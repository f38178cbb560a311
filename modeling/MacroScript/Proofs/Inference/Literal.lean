import MacroScript.Inference
import MacroScript.Proofs.Text.Hollow
import MacroScript.Proofs.Text.Part
import MacroScript.Token.Lemmas
import Mathlib.Data.List.Basic
import Mathlib.Data.List.Find

/-!
# Tags of expressions with hollow literals

Each step from an expression to its tag leaves the inside of literals alone: an expression is cut at
points outside its literals, a segment that holds a literal is no known name, and no shape looks for
anything in a literal except, in an argument list, for a closing bracket. So **the tag of a plain
expression is that of the expression with its literals made hollow** (`Names.infer_hollow`), as long
as no known name holds a double quote.
-/
namespace MacroScript

open Text

/-! ## 1. Parts -/

/-- Parts with their literals made hollow. The first one starts in the given state; all others start
at a cut, and so outside of all literals. -/
def hollowParts (q : Quoting) : List Text → List Text
  | [] => []
  | part :: parts => hollowFrom q part :: parts.map hollow

/-- Texts that can be put together with points: they are plain, and each but the last ends outside
its literals. The first one starts in the given state. -/
def AreParts : Quoting → List Text → Prop
  | _, [] => True
  | q, [part] => isPlainFrom q part
  | q, part :: next :: parts =>
    isPlainFrom q part ∧ q.past isDoubleQuote part = .outside ∧ AreParts .outside (next :: parts)

theorem hollowParts_outside (parts : List Text) :
    hollowParts .outside parts = parts.map hollow := by
  cases parts <;> rfl

/-- A character put in front of the first part goes with it. -/
theorem hollowParts_modifyHead (q : Quoting) (c : Char) {parts : List Text} (hne : parts ≠ []) :
    hollowParts q (parts.modifyHead (List.cons c)) =
      if q.covers c then hollowParts (q.next isDoubleQuote c) parts
      else (hollowParts (q.next isDoubleQuote c) parts).modifyHead (List.cons c) := by
  obtain ⟨part, parts, rfl⟩ := List.exists_cons_of_ne_nil hne
  rw [List.modifyHead_cons, hollowParts, hollowFrom]
  split <;> rfl

/-- A character put in front of parts leaves them parts, if it is one that a plain text may have
there. -/
theorem areParts_modifyHead {q : Quoting} {c : Char} {parts : List Text} (hne : parts ≠ [])
    (hc : (if q.isInside then c != ')' && c != '\n' else c != '\'' && c != '`') = true)
    (h : AreParts (q.next isDoubleQuote c) parts) :
    AreParts q (parts.modifyHead (List.cons c)) := by
  obtain ⟨part, parts, rfl⟩ := List.exists_cons_of_ne_nil hne
  have hpart {part : Text} (hpart : isPlainFrom (q.next isDoubleQuote c) part) :
      isPlainFrom q (c :: part) := by
    rw [isPlainFrom, hc, hpart]
    rfl
  cases parts with
  | nil => exact hpart h
  | cons next parts => exact ⟨hpart h.1, h.2.1, h.2.2⟩

/-- An empty part may stand in front of others, as it does at each cut. -/
theorem areParts_nil_cons {parts : List Text} (h : AreParts .outside parts) :
    AreParts .outside ([] :: parts) := by
  cases parts with
  | nil => rfl
  | cons next parts => exact ⟨rfl, rfl, h⟩

/-- Whether a point is one of a number depends on the word before it and on the next character. A
literal is no part of either, so that hollowing it changes nothing. -/
theorem isPointOfNumber_congr {before before' after after' : Text}
    (hbefore : before'.takeWhile isAsciiNameChar = before.takeWhile isAsciiNameChar)
    (hafter : after'.head? = after.head?) :
    isPointOfNumber before' after' = isPointOfNumber before after := by
  have hdigit (t : Text) :
      t.head?.any Char.isDigit = (t.takeWhile isAsciiNameChar).head?.any Char.isDigit := by
    cases t with
    | nil => rfl
    | cons c t =>
      by_cases hc : isAsciiNameChar c
      · rw [List.takeWhile_cons_of_pos hc]
        rfl
      · have hnot : c.isDigit = false := by
          simp only [isAsciiNameChar, Char.isAlphanum, Bool.or_eq_true, not_or] at hc
          exact Bool.not_eq_true _ ▸ hc.1.2
        rw [List.takeWhile_cons_of_neg hc]
        simpa using hnot
  rw [isPointOfNumber, isPointOfNumber, hdigit before', hdigit before, hafter, hbefore]

/-- In a plain text a scan for quotes of any kind is one for double quotes, as it has none of the
other kinds outside of its literals. -/
theorem next_isQuote {q : Quoting} {c : Char}
    (hc : (if q.isInside then c != ')' && c != '\n' else c != '\'' && c != '`') = true) :
    q.next isQuote c = q.next isDoubleQuote c := by
  cases q with
  | outside =>
    simp only [Quoting.isInside, Bool.false_eq_true, if_false, Bool.and_eq_true, bne_iff_ne] at hc
    simp [Quoting.next, isQuote, isDoubleQuote, hc.1, hc.2]
  | inside quote e => cases e <;> rfl

/-- **A plain text with hollow literals has the parts of the text, with hollow literals.** The
induction is on the text. What stands before the place is asked for outside of literals only, since
there alone it can make a point one of a number. -/
theorem splitFrom_hollow {q : Quoting} (hq : q.IsDouble) {t : Text} (ht : isPlainFrom q t)
    (depth : Int) (before before' : Text)
    (hbefore : q = .outside →
      before'.takeWhile isAsciiNameChar = before.takeWhile isAsciiNameChar) :
    splitFrom '.' depth q.calm before' (hollowFrom q t) =
      hollowParts q (splitFrom '.' depth q before t) := by
  induction t generalizing q depth before before' with
  | nil =>
    rw [hollowFrom_nil, splitFrom, splitFrom, hollowParts]
    rfl
  | cons c cs ih =>
    rw [isPlainFrom, Bool.and_eq_true] at ht
    obtain ⟨hc, hcs⟩ := ht
    have hnext := next_isQuote hc
    have hih := ih (Quoting.isDouble_next hq c) hcs
    have hne (depth : Int) (before : Text) :=
      splitFrom_ne_nil '.' depth (q.next isDoubleQuote c) before cs
    rcases hq with rfl | ⟨e, rfl⟩
    · -- outside literals the character stays, and whether it is a cut does not change
      have hafter : c = '.' →
          (hollowFrom (Quoting.outside.next isDoubleQuote c) cs).head? = cs.head? := by
        rintro rfl
        cases cs <;> rfl
      have hcut : isCut '.' depth before' c (hollowFrom (Quoting.outside.next isDoubleQuote c) cs) =
          isCut '.' depth before c cs := by
        by_cases hpoint : c = '.'
        · rw [isCut, isCut, isPointOfNumber_congr (hbefore rfl) (hafter hpoint)]
        · simp [isCut, hpoint]
      have hparts := hih (depth + bracketStep c) (c :: before) (c :: before') fun _ => by
        rw [List.takeWhile_cons, List.takeWhile_cons, hbefore rfl]
      rw [Quoting.calm_next_outside] at hparts
      rw [← hollow, hollow_cons, Quoting.calm, splitFrom, splitFrom]
      simp only [hnext, hcut, hparts]
      split
      · next hcuts =>
        have hpoint : Quoting.outside.next isDoubleQuote c = .outside := by
          rw [eq_of_isCut hcuts]
          rfl
        rw [hpoint, hollowParts_outside, hollowParts_outside]
        rfl
      · exact (hollowParts_modifyHead .outside c (hne _ _)).symm
    · have hinside : (Quoting.inside '"' e).isInside := rfl
      rw [splitFrom, hnext, hollowParts_modifyHead _ c (hne _ _), hollowFrom]
      by_cases hcovers : (Quoting.inside '"' e).covers c
      · -- a character inside the literal goes, and the scan stays inside
        have hstays : ((Quoting.inside '"' e).next isDoubleQuote c).isInside := by
          rwa [Quoting.covers, hinside, Bool.true_and] at hcovers
        have hparts := hih depth (c :: before) before' fun hout => by
          rw [hout] at hstays
          simp [Quoting.isInside] at hstays
        rw [Quoting.calm_eq (Quoting.isDouble_next (.inr ⟨e, rfl⟩) c) hstays] at hparts
        rw [if_pos hcovers, if_pos hcovers]
        exact hparts
      · -- the quote that ends the literal stays
        obtain ⟨rfl, hcalm, hout⟩ :=
          Quoting.eq_quote_of_not_covers (.inr ⟨e, rfl⟩) hinside (Bool.not_eq_true _ ▸ hcovers)
        have hparts := hih depth ('"' :: before) ('"' :: before') fun _ => rfl
        rw [if_neg hcovers, if_neg hcovers]
        rw [hout] at hparts ⊢
        rw [Quoting.calm, splitFrom, ← hparts]
        rfl

/-- The parts of a plain text are parts that can be put together again. -/
theorem areParts_splitFrom {q : Quoting} (hq : q.IsDouble) {t : Text} (ht : isPlainFrom q t)
    (depth : Int) (before : Text) : AreParts q (splitFrom '.' depth q before t) := by
  induction t generalizing q depth before with
  | nil =>
    rw [splitFrom]
    rfl
  | cons c cs ih =>
    rw [isPlainFrom, Bool.and_eq_true] at ht
    obtain ⟨hc, hcs⟩ := ht
    have hnext := next_isQuote hc
    have hparts (depth : Int) (before : Text) := ih (Quoting.isDouble_next hq c) hcs depth before
    have hne (depth : Int) (before : Text) :=
      splitFrom_ne_nil '.' depth (q.next isDoubleQuote c) before cs
    cases q with
    | outside =>
      rw [splitFrom]
      simp only [hnext]
      split
      · next hcuts =>
        have hpoint : Quoting.outside.next isDoubleQuote c = .outside := by
          rw [eq_of_isCut hcuts]
          rfl
        rw [hpoint] at hparts ⊢
        exact areParts_nil_cons (hparts _ _)
      · exact areParts_modifyHead (hne _ _) hc (hparts _ _)
    | inside quote e =>
      rw [splitFrom, hnext]
      exact areParts_modifyHead (hne _ _) hc (hparts _ _)

/-! ## 2. Segments -/

/-- The canonical expressions have hollow literals only, are plain and have no open literal. -/
theorem Tag.canonical_hollow (tag : Tag) :
    hollow tag.canonical.toList = tag.canonical.toList ∧ isPlain tag.canonical.toList ∧
      Quoting.outside.past isDoubleQuote tag.canonical.toList = .outside := by
  cases tag <;> decide

/-- A segment is trimmed, or replaced by a canonical expression. The name that is looked up does not
matter for what follows. -/
theorem Names.segment_cases (names : Names) (t : Text) :
    names.segment t = trim t ∨ ∃ tag : Tag, names.segment t = tag.canonical.toList := by
  unfold segment
  split
  · exact .inl rfl
  · exact .inr ⟨_, rfl⟩
  · exact .inl rfl

/-- Both leave a plain segment plain. -/
theorem Names.isPlain_segment (names : Names) {t : Text} (h : isPlain t) :
    isPlain (names.segment t) := by
  rcases names.segment_cases t with hsegment | ⟨tag, hsegment⟩
  · rw [hsegment]
    exact isPlain_trim h
  · rw [hsegment]
    exact tag.canonical_hollow.2.1

/-- Both leave a segment without an open literal without one. -/
theorem Names.past_segment (names : Names) {t : Text}
    (h : Quoting.outside.past isDoubleQuote t = .outside) :
    Quoting.outside.past isDoubleQuote (names.segment t) = .outside := by
  rcases names.segment_cases t with hsegment | ⟨tag, hsegment⟩
  · rw [hsegment]
    exact past_trim h
  · rw [hsegment]
    exact tag.canonical_hollow.2.2

/-- No known name holds a double quote. A declaration without a proper name could bring one in, so
it has to be asked for. -/
def Names.IsQuoteless (names : Names) : Prop :=
  ∀ name, '"' ∈ name → names name = none

/-- A segment with a literal is no name, and one without does not change. -/
theorem Names.segment_hollow {names : Names} (hnames : names.IsQuoteless) (t : Text) :
    names.segment (hollow t) = hollow (names.segment t) := by
  by_cases hquote : '"' ∈ trim t
  · have hname := hnames _ hquote
    have hname' := hnames _ (mem_hollow.mpr hquote)
    rw [segment, segment, ← hollow_trim, hname, hname']
  · have htrim : trim (hollow t) = trim t := by
      rw [← hollow_trim, hollow_of_not_mem hquote]
    have hsame : names.segment (hollow t) = names.segment t := by
      rw [segment, segment, htrim]
    rw [hsame]
    rcases names.segment_cases t with hsegment | ⟨tag, hsegment⟩
    · rw [hsegment, hollow_of_not_mem hquote]
    · rw [hsegment, tag.canonical_hollow.1]

/-- Parts stay parts when known names among them are replaced. -/
theorem Names.areParts_segments (names : Names) {parts : List Text} (h : AreParts .outside parts) :
    AreParts .outside (parts.map names.segment) := by
  induction parts with
  | nil => trivial
  | cons part parts ih =>
    cases parts with
    | nil => exact names.isPlain_segment h
    | cons next parts => exact ⟨names.isPlain_segment h.1, names.past_segment h.2.1, ih h.2.2⟩

/-- Parts put together with points: the literals become hollow before or after, and the whole is
plain. Each part but the last ends outside of its literals, so no literal reaches over a point. -/
theorem hollow_intercalate {parts : List Text} (h : AreParts .outside parts) :
    hollow (List.intercalate ['.'] parts) = List.intercalate ['.'] (parts.map hollow) ∧
      isPlain (List.intercalate ['.'] parts) := by
  induction parts with
  | nil => exact ⟨rfl, rfl⟩
  | cons part parts ih =>
    cases parts with
    | nil =>
      rw [List.map_singleton, List.intercalate_singleton, List.intercalate_singleton]
      exact ⟨rfl, h⟩
    | cons next parts =>
      obtain ⟨hplain, hclosed, hrest⟩ := h
      obtain ⟨hjoin, hjoinPlain⟩ := ih hrest
      have hpoint : Quoting.outside.past isDoubleQuote (part ++ ['.']) = .outside := by
        rw [Quoting.past_append, hclosed]
        rfl
      rw [List.intercalate_cons_cons]
      refine ⟨?_, ?_⟩
      · rw [hollow_append hpoint, hollow_append hclosed, hjoin]
        exact List.intercalate_cons_cons.symm
      · rw [isPlain, isPlainFrom_append, hpoint, isPlainFrom_append, hclosed, hplain]
        exact hjoinPlain

/-! ## 3. Shapes -/

namespace Shape

/-- The piece has nothing to do with double quotes. It reads nothing of a literal, except that an
argument list may hold whole ones. -/
def Piece.isQuoteless : Piece → Bool
  | word w => !w.toList.contains '"'
  | oneOf ws => ws.all fun w => !w.toList.contains '"'
  | quote => false
  | _ => true

/-- A word without double quotes is found at the start of a text if it is found with hollow
literals, since it ends before the first literal starts. -/
theorem dropWord?_hollow {word : Text} (hword : '"' ∉ word) (t : Text) :
    dropWord? word (hollow t) = (dropWord? word t).map hollow := by
  induction word generalizing t with
  | nil => rfl
  | cons d word ih =>
    rw [List.mem_cons, not_or] at hword
    cases t with
    | nil => rfl
    | cons c t =>
      rw [hollow_cons]
      by_cases hc : d = c
      · subst hc
        have hrest := ih hword.2 t
        rw [Quoting.next_outside (Ne.symm hword.1), ← hollow]
        simpa [dropWord?] using hrest
      · simp [dropWord?, List.isPrefixOf, hc]

/-- What is left of a plain text behind such a word is plain. -/
theorem isPlain_of_dropWord? {word t rest : Text} (hword : '"' ∉ word) (ht : isPlain t)
    (h : dropWord? word t = some rest) : isPlain rest := by
  rw [eq_append_of_dropWord? h] at ht
  exact isPlain_of_append (Quoting.past_outside_of_not_mem hword) ht

theorem afterBlanks_hollow {t : Text} (ht : isPlain t) :
    afterBlanks (hollow t) = (afterBlanks t).map hollow ∧ ∀ rest ∈ afterBlanks t, isPlain rest := by
  induction t with
  | nil => simp [afterBlanks, hollow, isPlain, isPlainFrom]
  | cons c cs ih =>
    rw [hollow_cons, afterBlanks, afterBlanks]
    by_cases hc : isBlank c
    · have hquote := ne_quote isBlank_quote hc
      have hclosed : Quoting.outside.past isDoubleQuote [c] = .outside :=
        Quoting.next_outside hquote
      obtain ⟨hafter, hplain⟩ := ih (isPlain_of_append hclosed (u := cs) ht)
      rw [if_pos hc, if_pos hc, Quoting.next_outside hquote, ← hollow, hafter]
      refine ⟨?_, fun rest hrest => ?_⟩
      · rw [List.map_cons, hollow_cons, Quoting.next_outside hquote]
        rfl
      · rcases List.mem_cons.mp hrest with rfl | hrest
        · exact ht
        · exact hplain rest hrest
    · rw [if_neg hc, if_neg hc]
      exact ⟨rfl, fun rest hrest => List.mem_singleton.mp hrest ▸ ht⟩

/-- In a plain text every closing bracket stands outside literals. So the places behind one are
those of the text with hollow literals. -/
theorem afterClose_hollow {q : Quoting} {t : Text} (ht : isPlainFrom q t) :
    afterClose (hollowFrom q t) = (afterClose t).map hollow ∧
      ∀ rest ∈ afterClose t, isPlain rest := by
  induction t generalizing q with
  | nil => simp [afterClose]
  | cons c cs ih =>
    rw [isPlainFrom, Bool.and_eq_true] at ht
    obtain ⟨hafter, hplain⟩ := ih ht.2
    rw [hollowFrom, afterClose]
    by_cases hinside : q.isInside
    · -- inside a literal of a plain text there is neither a bracket nor a break, so nothing is
      -- found there
      rw [if_pos hinside, Bool.and_eq_true, bne_iff_ne, bne_iff_ne] at ht
      rw [if_neg ht.1.2, if_neg ht.1.1]
      refine ⟨?_, hplain⟩
      split
      · exact hafter
      · rw [afterClose, if_neg ht.1.2, if_neg ht.1.1]
        exact hafter
    · have hcovers : q.covers c = false := by simp [Quoting.covers, hinside]
      obtain rfl := Quoting.eq_outside (Bool.not_eq_true _ ▸ hinside)
      rw [hcovers, if_neg (by simp), afterClose]
      by_cases hbreak : c = '\n'
      · simp [hbreak]
      · rw [if_neg hbreak, if_neg hbreak]
        by_cases hclose : c = ')'
        · -- behind a bracket the text is outside of literals again, and what is found there is
          -- plain
          have hnext : Quoting.outside.next isDoubleQuote c = .outside := by
            rw [hclose]
            rfl
          rw [hnext] at hafter ht ⊢
          rw [if_pos hclose, if_pos hclose, hafter]
          refine ⟨rfl, fun rest hrest => ?_⟩
          rcases List.mem_cons.mp hrest with rfl | hrest
          · exact ht.2
          · exact hplain rest hrest
        · rw [if_neg hclose, if_neg hclose]
          exact ⟨hafter, hplain⟩

theorem afterCall_hollow {t : Text} (ht : isPlain t) :
    afterCall (hollow t) = (afterCall t).map hollow ∧ ∀ rest ∈ afterCall t, isPlain rest := by
  cases t with
  | nil => simp [afterCall, hollow]
  | cons c cs =>
    rw [hollow_cons, afterCall, afterCall]
    rw [isPlain, isPlainFrom, Bool.and_eq_true] at ht
    split
    · exact afterClose_hollow ht.2
    · simp

theorem afterOne_hollow {p : Char → Bool} (hp : p '"' = false) {t : Text} (ht : isPlain t) :
    afterOne p (hollow t) = (afterOne p t).map hollow ∧ ∀ rest ∈ afterOne p t, isPlain rest := by
  cases t with
  | nil => simp [afterOne, hollow]
  | cons c cs =>
    rw [hollow_cons, afterOne, afterOne]
    by_cases hc : p c
    · have hquote := ne_quote hp hc
      rw [isPlain, isPlainFrom, Bool.and_eq_true, Quoting.next_outside hquote] at ht
      rw [if_pos hc, if_pos hc, Quoting.next_outside hquote]
      exact ⟨rfl, fun rest hrest => List.mem_singleton.mp hrest ▸ ht.2⟩
    · simp [hc]

/-- **A piece leaves the same of a plain text, whether its literals are hollow or not.** What it
leaves is plain again, so that the next piece can be told of in the same way. -/
theorem after_hollow {piece : Piece} (hpiece : piece.isQuoteless) {t : Text} (ht : isPlain t) :
    piece.after (hollow t) = (piece.after t).map hollow ∧ ∀ rest ∈ piece.after t, isPlain rest := by
  cases piece with
  | word w =>
    have hword : '"' ∉ w.toList := by simpa [Piece.isQuoteless] using hpiece
    rw [Piece.after, Piece.after, dropWord?_hollow hword]
    refine ⟨by cases dropWord? w.toList t <;> rfl, fun rest hrest => ?_⟩
    exact isPlain_of_dropWord? hword ht (Option.mem_toList.mp hrest)
  | oneOf ws =>
    have hwords : ∀ w ∈ ws, '"' ∉ w.toList := by simpa [Piece.isQuoteless] using hpiece
    rw [Piece.after, Piece.after, List.map_filterMap]
    refine ⟨List.filterMap_congr fun w hw => dropWord?_hollow (hwords w hw) t, fun rest hrest => ?_⟩
    obtain ⟨w, hw, hrest⟩ := List.mem_filterMap.mp hrest
    exact isPlain_of_dropWord? (hwords w hw) ht hrest
  | blanks => exact afterBlanks_hollow ht
  | call => exact afterCall_hollow ht
  | optionalCall =>
    obtain ⟨hafter, hplain⟩ := afterCall_hollow ht
    exact ⟨congrArg (hollow t :: ·) hafter, List.forall_mem_cons.mpr ⟨ht, hplain⟩⟩
  | optionalMinus =>
    obtain ⟨hafter, hplain⟩ := afterOne_hollow (p := (· == '-')) (by decide) ht
    exact ⟨congrArg (hollow t :: ·) hafter, List.forall_mem_cons.mpr ⟨ht, hplain⟩⟩
  | quote => simp [Piece.isQuoteless] at hpiece
  | decimal => exact afterOne_hollow (by decide) ht
  | rest => exact ⟨rfl, fun rest hrest => List.mem_singleton.mp hrest ▸ rfl⟩

theorem isEmpty_hollow (t : Text) : (hollow t).isEmpty = t.isEmpty := by
  cases t <;> rfl

/-- By induction on the pieces. -/
theorem fits_hollow {pieces : List Piece} (hpieces : pieces.all Piece.isQuoteless) {t : Text}
    (ht : isPlain t) : fits pieces (hollow t) = fits pieces t := by
  induction pieces generalizing t with
  | nil => exact isEmpty_hollow t
  | cons piece pieces ih =>
    rw [List.all_cons, Bool.and_eq_true] at hpieces
    obtain ⟨hafter, hplain⟩ := after_hollow hpieces.1 ht
    rw [fits, fits, hafter, List.any_map, Bool.eq_iff_iff, List.any_eq_true, List.any_eq_true]
    refine exists_congr fun rest => and_congr_right fun hrest => ?_
    rw [Function.comp_apply, ih hpieces.2 (hplain rest hrest)]

/-- A string is known by its first character. -/
theorem fits_quote (t : Text) : fits [.quote, .rest] t = t.head?.any isQuote := by
  cases t with
  | nil => rfl
  | cons c cs => by_cases hc : isQuote c <;> simp [fits, Piece.after, afterOne, hc]

/-- Apart from the shape of strings no shape has to do with double quotes. -/
theorem isQuoteless_table :
    ∀ shape ∈ table, shape.pieces = [.quote, .rest] ∨ shape.pieces.all Piece.isQuoteless := by
  decide

/-- **A shape accepts the same plain texts, whether their literals are hollow or not.** The shape of
strings looks at the first character only, and a quote stays. -/
theorem accepts_hollow {shape : Shape} (hshape : shape ∈ table) {t : Text} (ht : isPlain t) :
    shape.accepts (hollow t) = shape.accepts t := by
  unfold accepts
  rcases isQuoteless_table shape hshape with hstring | hpieces
  · rw [hstring, fits_quote, fits_quote]
    cases t <;> rfl
  · exact fits_hollow hpieces ht

end Shape

/-! ## 4. Tags -/

/-- What an expression is stripped of stands outside of its literals, or in an open one at its end,
where hollowing takes it away as well. -/
theorem hollow_expression (t : Text) : hollow (Text.expression t) = Text.expression (hollow t) := by
  rw [Text.expression, trimEnd, hollow_dropEndWhile isBlank_quote, hollow_dropEndWhile (by decide),
    hollow_trim]
  rfl

theorem isPlain_expression {t : Text} (h : isPlain t) : isPlain (Text.expression t) :=
  isPlain_dropEndWhile (isPlain_dropEndWhile (isPlain_trim h))

/-- The table is searched with the same outcome at each row. -/
theorem Tag.classify_hollow {t : Text} (h : isPlain t) : classify (hollow t) = classify t := by
  have hplain := isPlain_expression h
  have hfind : (Shape.table.find? fun shape => shape.accepts (hollow (Text.expression t))) =
      Shape.table.find? fun shape => shape.accepts (Text.expression t) :=
    List.find?_congr fun shape hshape => Shape.accepts_hollow hshape hplain
  rw [classify, classify, ofShape, ofShape, ← hollow_expression, hfind]

namespace Names

/-- The cuts of an expression are those of the expression with hollow literals. -/
theorem topLevelParts_hollow {t : Text} (h : isPlain t) :
    (topLevelParts '.' (hollow t)).map (·.2) = ((topLevelParts '.' t).map (·.2)).map hollow := by
  have hparts := splitFrom_hollow Quoting.isDouble_outside h 0 [] [] fun _ => rfl
  rw [topLevelParts, topLevelParts, map_snd_locateParts, map_snd_locateParts]
  exact hparts.trans (hollowParts_outside _)

theorem areParts_topLevelParts {t : Text} (h : isPlain t) :
    AreParts .outside ((topLevelParts '.' t).map (·.2)) := by
  rw [topLevelParts, map_snd_locateParts]
  exact areParts_splitFrom Quoting.isDouble_outside h 0 []

/-- Known names are put in with the same outcome, and what comes out is plain. -/
theorem substitute_hollow {names : Names} (hnames : names.IsQuoteless) {t : Text} (h : isPlain t) :
    names.substitute (hollow t) = hollow (names.substitute t) ∧ isPlain (names.substitute t) := by
  have hplain := isPlain_expression h
  have hsubstitute (t : Text) : names.substitute t =
      List.intercalate ['.']
        (((topLevelParts '.' (Text.expression t)).map (·.2)).map names.segment) := by
    rw [substitute, List.map_map]
    rfl
  obtain ⟨hjoin, hjoinPlain⟩ :=
    hollow_intercalate (names.areParts_segments (areParts_topLevelParts hplain))
  rw [hsubstitute, hsubstitute, hjoin, ← hollow_expression, topLevelParts_hollow hplain]
  refine ⟨?_, hjoinPlain⟩
  rw [List.map_map, List.map_map (f := names.segment)]
  exact congrArg _ (List.map_congr_left fun part _ => segment_hollow hnames part)

/-- **The tag of a plain expression is that of the expression with hollow literals.** The names are
put in, and the table is searched for what comes out. -/
theorem infer_hollow {names : Names} (hnames : names.IsQuoteless) {t : Text} (h : isPlain t) :
    names.infer (hollow t) = names.infer t := by
  obtain ⟨hsubstitute, hplain⟩ := substitute_hollow hnames h
  rw [infer, infer, hsubstitute, Tag.classify_hollow hplain]

end Names

end MacroScript
