import MacroScript.Proofs.Text.Part
import MacroScript.Shape
import Mathlib.Data.List.Infix

/-!
# Shapes as cuts of a text

A piece lists what can be left of a text after it. Here it is told by what it reads (`Piece.Reads`),
and a text has a shape if and only if it can be cut into stretches that the pieces read, one after
the other (`fits_cons`, `fits_append`).

An argument list may hold any character of a line, closing brackets too. Two things follow. A shape
that ends with an argument list **accepts whatever is written after it, up to a further closing
bracket** (`fits_call_append`), and nothing else (`getLast?_of_fits_call`). And whether one call
comes after another is a question about the text between the first opening bracket and the last
closing one: somewhere in it there is a closing bracket, a point, the name and an opening bracket
(`fits_call_thenCall`).
-/
namespace MacroScript

open Text

namespace Shape

/-! ## 1. What a piece reads -/

/-- An argument list on one line. The arguments may be anything, closing brackets and further calls
included. -/
def IsCall (t : Text) : Prop :=
  ∃ args, '\n' ∉ args ∧ t = '(' :: (args ++ [')'])

/-- The piece reads the text. All the rest of a text is read by `rest`, whatever it is. -/
def Piece.Reads : Piece → Text → Prop
  | word w, t => t = w.toList
  | oneOf ws, t => ∃ w ∈ ws, t = w.toList
  | blanks, t => isAllBlank t
  | call, t => IsCall t
  | optionalCall, t => t = [] ∨ IsCall t
  | optionalMinus, t => t = [] ∨ t = ['-']
  | quote, t => ∃ c, isQuote c ∧ t = [c]
  | decimal, t => ∃ c, isDecimal c ∧ t = [c]
  | rest, _ => True

theorem dropWord?_eq_some_iff {word t rest : Text} :
    dropWord? word t = some rest ↔ t = word ++ rest := by
  refine ⟨eq_append_of_dropWord?, ?_⟩
  rintro rfl
  simp [dropWord?]

/-- White space can be read in part, so that there are as many rests as there are characters of
white space, and one more. -/
theorem mem_afterBlanks {t rest : Text} :
    rest ∈ afterBlanks t ↔ ∃ front, isAllBlank front ∧ t = front ++ rest := by
  induction t with
  | nil =>
    constructor
    · intro h
      exact ⟨[], rfl, (List.mem_singleton.mp h).symm⟩
    · rintro ⟨front, -, h⟩
      obtain ⟨-, rfl⟩ := List.append_eq_nil_iff.mp h.symm
      exact List.mem_singleton_self _
  | cons c cs ih =>
    rw [afterBlanks, List.mem_cons]
    constructor
    · rintro (rfl | h)
      · exact ⟨[], rfl, rfl⟩
      · split at h
        · next hc =>
          obtain ⟨front, hfront, rfl⟩ := ih.mp h
          exact ⟨c :: front, by rw [isAllBlank, List.all_cons, hc]; exact hfront, rfl⟩
        · simp at h
    · rintro ⟨front, hfront, h⟩
      cases front with
      | nil => exact .inl h.symm
      | cons d front =>
        obtain ⟨rfl, rfl⟩ := List.cons.inj h
        rw [isAllBlank, List.all_cons, Bool.and_eq_true] at hfront
        rw [if_pos hfront.1]
        exact .inr (ih.mpr ⟨front, hfront.2, rfl⟩)

/-- The rests behind an opening bracket are those behind any closing bracket on the line. -/
theorem mem_afterClose {t rest : Text} :
    rest ∈ afterClose t ↔ ∃ args, '\n' ∉ args ∧ t = args ++ ')' :: rest := by
  induction t with
  | nil => simp [afterClose]
  | cons c cs ih =>
    rw [afterClose]
    constructor
    · intro h
      split at h
      · simp at h
      · next hbreak =>
        -- a bracket further on is one that follows this character, too
        have hlater (h : rest ∈ afterClose cs) :
            ∃ args, '\n' ∉ args ∧ c :: cs = args ++ ')' :: rest := by
          obtain ⟨args, hargs, rfl⟩ := ih.mp h
          exact ⟨c :: args, by simp [Ne.symm hbreak, hargs], rfl⟩
        split at h
        · next hclose =>
          rcases List.mem_cons.mp h with rfl | h
          · exact ⟨[], by simp, by rw [hclose]; rfl⟩
          · exact hlater h
        · exact hlater h
    · rintro ⟨args, hargs, h⟩
      cases args with
      | nil =>
        -- the arguments may be empty, and then the bracket is here
        obtain ⟨rfl, rfl⟩ := List.cons.inj h
        rw [if_neg (by decide), if_pos rfl]
        exact List.mem_cons_self
      | cons d args =>
        obtain ⟨rfl, rfl⟩ := List.cons.inj h
        rw [List.mem_cons, not_or] at hargs
        have hmem := ih.mpr ⟨args, hargs.2, rfl⟩
        rw [if_neg (Ne.symm hargs.1)]
        split
        · exact List.mem_cons_of_mem _ hmem
        · exact hmem

/-- What an argument list leaves, by the arguments it reads. -/
theorem mem_afterCall {t rest : Text} :
    rest ∈ afterCall t ↔ ∃ front, IsCall front ∧ t = front ++ rest := by
  have hshape : (∃ front, IsCall front ∧ t = front ++ rest) ↔
      ∃ args, '\n' ∉ args ∧ t = '(' :: (args ++ ')' :: rest) := by
    constructor
    · rintro ⟨front, ⟨args, hargs, rfl⟩, rfl⟩
      exact ⟨args, hargs, by simp⟩
    · rintro ⟨args, hargs, rfl⟩
      exact ⟨_, ⟨args, hargs, rfl⟩, by simp⟩
  rw [hshape]
  cases t with
  | nil => simp [afterCall]
  | cons c cs =>
    rw [afterCall]
    split
    · next hopen => simp [mem_afterClose, hopen]
    · next hopen => simp [hopen]

/-- A single character is read if it is there and is one of those asked for. -/
theorem mem_afterOne {p : Char → Bool} {t rest : Text} :
    rest ∈ afterOne p t ↔ ∃ front, (∃ c, p c ∧ front = [c]) ∧ t = front ++ rest := by
  cases t with
  | nil =>
    refine iff_of_false (by simp [afterOne]) ?_
    rintro ⟨_, ⟨c, -, rfl⟩, h⟩
    simp at h
  | cons c cs =>
    rw [afterOne]
    constructor
    · intro h
      split at h
      · next hc => exact ⟨[c], ⟨c, hc, rfl⟩, by rw [List.mem_singleton.mp h]; rfl⟩
      · simp at h
    · rintro ⟨_, ⟨d, hd, rfl⟩, h⟩
      obtain ⟨rfl, rfl⟩ := List.cons.inj h
      rw [if_pos hd]
      exact List.mem_singleton_self _

/-- What may also be left out either leaves the text as it is or is read. -/
theorem mem_cons_iff_of_optional {Q : Text → Prop} {t rest : Text} {after : List Text}
    (h : rest ∈ after ↔ ∃ front, Q front ∧ t = front ++ rest) :
    rest ∈ t :: after ↔ ∃ front, (front = [] ∨ Q front) ∧ t = front ++ rest := by
  rw [List.mem_cons, h]
  constructor
  · rintro (rfl | ⟨front, hfront, rfl⟩)
    · exact ⟨[], .inl rfl, rfl⟩
    · exact ⟨front, .inr hfront, rfl⟩
  · rintro ⟨front, rfl | hfront, rfl⟩
    · exact .inl rfl
    · exact .inr ⟨front, hfront, rfl⟩

/-- **A piece leaves what comes after a stretch that it reads.** This is the one place where the
lists of rests are opened; from here on a shape is a matter of cuts. -/
theorem Piece.mem_after {piece : Piece} (hpiece : piece ≠ .rest) {t rest : Text} :
    rest ∈ piece.after t ↔ ∃ front, piece.Reads front ∧ t = front ++ rest := by
  cases piece with
  | word w =>
    rw [after, Option.mem_toList, dropWord?_eq_some_iff]
    exact ⟨fun h => ⟨_, rfl, h⟩, by rintro ⟨_, rfl, h⟩; exact h⟩
  | oneOf ws =>
    simp only [after, List.mem_filterMap, dropWord?_eq_some_iff]
    constructor
    · rintro ⟨w, hw, h⟩
      exact ⟨_, ⟨w, hw, rfl⟩, h⟩
    · rintro ⟨_, ⟨w, hw, rfl⟩, h⟩
      exact ⟨w, hw, h⟩
  | blanks => exact mem_afterBlanks
  | call => exact mem_afterCall
  | optionalCall => exact mem_cons_iff_of_optional mem_afterCall
  | optionalMinus =>
    have hminus : rest ∈ afterOne (· == '-') t ↔ ∃ front, front = ['-'] ∧ t = front ++ rest := by
      simp [mem_afterOne]
    exact mem_cons_iff_of_optional hminus
  | quote => exact mem_afterOne
  | decimal => exact mem_afterOne
  | rest => contradiction

/-! ## 2. Cuts -/

/-- **A text has a shape if the first piece reads its front and the others fit what comes then.** -/
theorem fits_cons {piece : Piece} (hpiece : piece ≠ .rest) {pieces : List Piece} {t : Text} :
    fits (piece :: pieces) t ↔
      ∃ front back, piece.Reads front ∧ fits pieces back ∧ t = front ++ back := by
  rw [fits, List.any_eq_true]
  constructor
  · rintro ⟨back, hback, hfits⟩
    obtain ⟨front, hfront, rfl⟩ := (Piece.mem_after hpiece).mp hback
    exact ⟨front, back, hfront, hfits, rfl⟩
  · rintro ⟨front, back, hfront, hfits, rfl⟩
    exact ⟨back, (Piece.mem_after hpiece).mpr ⟨front, hfront, rfl⟩, hfits⟩

theorem fits_nil {t : Text} : fits [] t ↔ t = [] := by
  rw [fits, List.isEmpty_iff]

theorem fits_singleton {piece : Piece} (hpiece : piece ≠ .rest) {t : Text} :
    fits [piece] t ↔ piece.Reads t := by
  simp [fits_cons hpiece, fits_nil]

/-- Pieces in a row: a text is cut in two where the second group of pieces begins. The piece `rest`
can only stand at the end, since it reads nothing that could be told. -/
theorem fits_append {front back : List Piece} (hfront : .rest ∉ front) {t : Text} :
    fits (front ++ back) t ↔ ∃ u v, fits front u ∧ fits back v ∧ t = u ++ v := by
  induction front generalizing t with
  | nil => simp [fits_nil]
  | cons piece front ih =>
    rw [List.mem_cons, not_or] at hfront
    simp only [List.cons_append, fits_cons (Ne.symm hfront.1), ih hfront.2]
    constructor
    · rintro ⟨s, _, hs, ⟨u, v, hu, hv, rfl⟩, rfl⟩
      exact ⟨s ++ u, v, ⟨s, u, hs, hu, rfl⟩, hv, by simp⟩
    · rintro ⟨_, v, ⟨s, u, hs, hu, rfl⟩, hv, rfl⟩
      exact ⟨s, u ++ v, hs, ⟨u, v, hu, hv, rfl⟩, by simp⟩

/-! ## 3. Argument lists at the end -/

section Call

variable {front : List Piece} (hfront : .rest ∉ front)
include hfront

/-- What ends with an argument list ends with a closing bracket, so nothing else need be tried. -/
theorem getLast?_of_fits_call {t : Text} (h : fits (front ++ [.call]) t) :
    t.getLast? = some ')' := by
  obtain ⟨u, v, -, hv, rfl⟩ := (fits_append hfront).mp h
  obtain ⟨args, -, rfl⟩ := (fits_singleton (by simp)).mp hv
  simp [List.getLast?_append, List.getLast?_cons]

/-- **An argument list at the end takes in whatever is written after it**, up to a further closing
bracket on the line. -/
theorem fits_call_append {t more : Text} (h : fits (front ++ [.call]) t) (hmore : '\n' ∉ more) :
    fits (front ++ [.call]) (t ++ (more ++ [')'])) := by
  obtain ⟨u, v, hu, hv, rfl⟩ := (fits_append hfront).mp h
  obtain ⟨args, hargs, rfl⟩ := (fits_singleton (by simp)).mp hv
  refine (fits_append hfront).mpr
    ⟨u, _, hu, (fits_singleton (by simp)).mpr ?_, List.append_assoc ..⟩
  exact ⟨args ++ ')' :: more, by simp [hargs, hmore], by simp⟩

/-- A chain of calls is also a single call, with the rest of the chain among its arguments. -/
theorem fits_of_fits_thenCall {names : List String} {t : Text} (ht : '\n' ∉ t)
    (h : fits (front ++ [.call] ++ thenCall names) t) : fits (front ++ [.call]) t := by
  have hcall : .rest ∉ front ++ [.call] := by simp [hfront]
  obtain ⟨u, v, hu, hv, rfl⟩ := (fits_append hcall).mp h
  have hname : Piece.rest ∉ [.word ".", .oneOf names, .blanks] := by simp
  have hlast := getLast?_of_fits_call hname hv
  obtain ⟨more, rfl⟩ := List.getLast?_eq_some_iff.mp hlast
  exact fits_call_append hfront hu fun hmem => ht (by simp [hmem])

end Call

/-! ## 4. One call after another -/

/-- The pieces of a call that goes on after a closing bracket: the bracket, a point, one of the
names and an opening bracket. Nothing is asked of what follows, as an argument list takes it in. -/
def nextCall (names : List String) : List Piece :=
  [.word ").", .oneOf names, .blanks, .word "(", .rest]

/-- Somewhere in the text a call of one of the names follows a closing bracket. -/
def opensCall (names : List String) (t : Text) : Bool :=
  t.tails.any (fits (nextCall names))

/-- Such a call as a text. -/
theorem fits_nextCall {names : List String} {t : Text} :
    fits (nextCall names) t ↔ ∃ name ∈ names, ∃ blanks back, isAllBlank blanks ∧
      t = ')' :: '.' :: (name.toList ++ (blanks ++ '(' :: back)) := by
  have hrest (t : Text) : fits [.rest] t := rfl
  have hopen {t : Text} : fits [.word "(", .rest] t ↔ ∃ back, t = '(' :: back := by
    simp [fits_cons, Piece.Reads, hrest]
  have hword : Piece.word ")." ≠ .rest := by simp
  have hname : Piece.oneOf names ≠ .rest := by simp
  have hblanks : Piece.blanks ≠ .rest := by simp
  simp only [nextCall, fits_cons hword, fits_cons hname, fits_cons hblanks, hopen, Piece.Reads]
  constructor
  · rintro ⟨_, _, rfl, ⟨_, _, ⟨name, hname, rfl⟩, ⟨blanks, _, hblanks, ⟨back, rfl⟩, rfl⟩, rfl⟩, rfl⟩
    exact ⟨name, hname, blanks, back, hblanks, rfl⟩
  · rintro ⟨name, hname, blanks, back, hblanks, rfl⟩
    exact ⟨_, _, rfl, ⟨_, _, ⟨name, hname, rfl⟩, ⟨blanks, _, hblanks, ⟨back, rfl⟩, rfl⟩, rfl⟩, rfl⟩

/-- A call is opened where its pieces fit: some front part goes before it. -/
theorem opensCall_iff {names : List String} {t : Text} :
    opensCall names t ↔ ∃ name ∈ names, ∃ front blanks back, isAllBlank blanks ∧
      t = front ++ ')' :: '.' :: (name.toList ++ (blanks ++ '(' :: back)) := by
  simp only [opensCall, List.any_eq_true, List.mem_tails, fits_nextCall]
  constructor
  · rintro ⟨_, ⟨front, rfl⟩, name, hname, blanks, back, hblanks, rfl⟩
    exact ⟨name, hname, front, blanks, back, hblanks, rfl⟩
  · rintro ⟨name, hname, front, blanks, back, hblanks, rfl⟩
    exact ⟨_, ⟨front, rfl⟩, name, hname, blanks, back, hblanks, rfl⟩

/-- What holds no such character lies on one side of it. This is how a closing bracket is told from
those of a name. -/
theorem exists_append_of_not_mem {c : Char} {x y front back : Text}
    (h : x ++ c :: y = front ++ back) (hfront : c ∉ front) :
    ∃ middle, x = front ++ middle ∧ back = middle ++ c :: y := by
  rcases List.append_eq_append_iff.mp h with ⟨middle, rfl, hback⟩ | ⟨middle, rfl, hback⟩
  · cases middle with
    | nil => exact ⟨[], by simp, by simpa using hback.symm⟩
    | cons d middle =>
      obtain ⟨rfl, -⟩ := List.cons.inj hback
      exact absurd (by simp) hfront
  · exact ⟨middle, rfl, hback⟩

theorem closer_not_mem_of_isAllBlank {t : Text} (h : isAllBlank t) : ')' ∉ t := by
  intro hmem
  exact absurd (List.all_eq_true.mp h _ hmem) (by decide)

/-- **A call that goes on after a closing bracket lies on one side of any closing bracket**, or
starts with it: there is none further on in it. So what a text opens can be told part by part. -/
theorem opensCall_append_closer {names : List String} (hnames : ∀ name ∈ names, ')' ∉ name.toList)
    (inner more : Text) :
    opensCall names (inner ++ ')' :: more) =
      (opensCall names inner || opensCall names (')' :: more)) := by
  rw [Bool.eq_iff_iff, Bool.or_eq_true]
  simp only [opensCall_iff]
  constructor
  · rintro ⟨name, hname, front, blanks, back, hblanks, h⟩
    rcases List.append_eq_append_iff.mp h with ⟨middle, rfl, hrest⟩ | ⟨middle, rfl, hrest⟩
    · exact .inr ⟨name, hname, middle, blanks, back, hblanks, hrest⟩
    · cases middle with
      | nil => exact .inr ⟨name, hname, [], blanks, back, hblanks, by simpa using hrest.symm⟩
      | cons d middle =>
        obtain ⟨rfl, htail⟩ := List.cons.inj hrest
        have hcall : middle ++ ')' :: more = '.' :: (name.toList ++ blanks) ++ ['('] ++ back := by
          simpa using htail.symm
        have hnot : ')' ∉ '.' :: (name.toList ++ blanks) ++ ['('] := by
          simp [hnames name hname, closer_not_mem_of_isAllBlank hblanks]
        obtain ⟨back', rfl, -⟩ := exists_append_of_not_mem hcall hnot
        exact .inl ⟨name, hname, front, blanks, back', hblanks, by simp⟩
  · rintro (⟨name, hname, front, blanks, back, hblanks, rfl⟩ |
      ⟨name, hname, front, blanks, back, hblanks, h⟩)
    · exact ⟨name, hname, front, blanks, back ++ ')' :: more, hblanks, by simp⟩
    · exact ⟨name, hname, inner ++ front, blanks, back, hblanks, by rw [h]; simp⟩

/-- A call behind a point, as a text. -/
theorem fits_thenCall {names : List String} {t : Text} :
    fits (thenCall names) t ↔ ∃ name ∈ names, ∃ blanks args, isAllBlank blanks ∧ '\n' ∉ args ∧
      t = '.' :: (name.toList ++ (blanks ++ '(' :: (args ++ [')']))) := by
  have hword : Piece.word "." ≠ .rest := by simp
  have hname : Piece.oneOf names ≠ .rest := by simp
  have hblanks : Piece.blanks ≠ .rest := by simp
  have hcall : Piece.call ≠ .rest := by simp
  simp only [thenCall, fits_cons hword, fits_cons hname, fits_cons hblanks, fits_singleton hcall,
    Piece.Reads]
  constructor
  · rintro ⟨_, _, rfl, ⟨_, _, ⟨name, hname, rfl⟩, ⟨blanks, _, hblanks, ⟨args, hargs, rfl⟩, rfl⟩,
      rfl⟩, rfl⟩
    exact ⟨name, hname, blanks, args, hblanks, hargs, rfl⟩
  · rintro ⟨name, hname, blanks, args, hblanks, hargs, rfl⟩
    exact ⟨_, _, rfl, ⟨_, _, ⟨name, hname, rfl⟩, ⟨blanks, _, hblanks, ⟨args, hargs, rfl⟩, rfl⟩,
      rfl⟩, rfl⟩

/-- **A call comes after another if the text in the outermost brackets opens it.** The argument list
of the first call may end at any closing bracket, and that of the second ends with the text. -/
theorem fits_call_thenCall {names : List String} {inner : Text} (hinner : '\n' ∉ inner) :
    fits (.call :: thenCall names) ('(' :: (inner ++ [')'])) = opensCall names inner := by
  rw [Bool.eq_iff_iff, fits_cons (by simp), opensCall_iff]
  simp only [fits_thenCall]
  constructor
  · rintro ⟨_, _, ⟨front, -, rfl⟩, ⟨name, hname, blanks, back, hblanks, -, rfl⟩, h⟩
    refine ⟨name, hname, front, blanks, back, hblanks, ?_⟩
    have h' : inner ++ [')'] =
        (front ++ ')' :: '.' :: (name.toList ++ (blanks ++ '(' :: back))) ++ [')'] := by
      simpa using h
    exact List.append_cancel_right h'
  · rintro ⟨name, hname, front, blanks, back, hblanks, rfl⟩
    simp only [List.mem_append, List.mem_cons, not_or] at hinner
    exact ⟨_, _, ⟨front, hinner.1, rfl⟩, ⟨name, hname, blanks, back, hblanks, by tauto, rfl⟩,
      by simp⟩

end Shape

end MacroScript
