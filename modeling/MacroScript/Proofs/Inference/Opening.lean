import MacroScript.Inference
import MacroScript.Proofs.Text.Hollow
import MacroScript.Proofs.Inference.Pieces
import MacroScript.Proofs.Token.Ascii
import Mathlib.Data.List.TakeWhile

/-!
# How texts open, and the order of the shapes

The *opening* of a text is its first word and the character that comes next, white space aside. What
the openings of a shape's texts are can be read off its pieces (`openings`), so two shapes accept a
common text only if they have an opening in common (`ofText_mem_openings`). Going through the table
shows that this happens in two places: the chains that go on from the call of a region, and the two
shapes of builders of settings. **All other shapes exclude each other** (`family_eq_of_accepts`).

Within the two families a chain of calls is accepted as a single call, too, because an argument list
may hold anything. So the order of the table decides there and nowhere else
(`order_matters_in_two_families`).
-/
namespace MacroScript

open Text

/-! ## 1. Openings -/

/-- How a text opens: its first word, and the character that comes next, white space aside. There is
none if the text ends there. -/
structure Opening where
  word : Text
  next : Option Char
deriving DecidableEq, Repr

namespace Opening

/-- What a character looks like. All quotes look alike, and so does all that can start a number.
With this there are few openings, and they can be listed. -/
def face (c : Char) : Char :=
  if isQuote c then '"' else if c == '-' || isDecimal c then '0' else c

/-- The character that comes next, as it looks. -/
def nextOf (t : Text) : Option Char :=
  (trimStart t).head?.map face

/-- The opening of a text. -/
def ofText (t : Text) : Opening :=
  ⟨t.takeWhile Char.isAlpha, nextOf (t.dropWhile Char.isAlpha)⟩

theorem nextOf_append_of_isAllBlank {blanks : Text} (h : isAllBlank blanks) (t : Text) :
    nextOf (blanks ++ t) = nextOf t := by
  rw [nextOf, trimStart, List.dropWhile_append_of_pos (List.all_eq_true.mp h)]
  rfl

/-- What comes next is not changed by what is written further on, if there is something. -/
theorem nextOf_append {t : Text} (h : nextOf t ≠ none) (more : Text) :
    nextOf (t ++ more) = nextOf t := by
  rw [nextOf, nextOf, trimStart, trimStart, List.dropWhile_append]
  cases hrest : t.dropWhile isBlank with
  | nil => simp [nextOf, trimStart, hrest] at h
  | cons c cs => rfl

/-- White space shows nothing, so what comes next is looked for behind it. -/
theorem nextOf_append_of_eq_none {t : Text} (h : nextOf t = none) (more : Text) :
    nextOf (t ++ more) = nextOf more := by
  refine nextOf_append_of_isAllBlank ?_ more
  rw [nextOf, Option.map_eq_none_iff, List.head?_eq_none_iff, trimStart,
    List.dropWhile_eq_nil_iff] at h
  exact List.all_eq_true.mpr h

/-- White space is no letter: the blank characters of ASCII are gone through, and the others are
above it. -/
theorem isAlpha_of_isBlank {c : Char} (h : isBlank c) : c.isAlpha = false := by
  have hnot : !c.isAlpha :=
    forall_of_isBlank (p := fun c => !c.isAlpha) (by decide +kernel) (by decide +kernel) h
  simpa using hnot

theorem isDecimal_of_isBlank {c : Char} (h : isBlank c) : isDecimal c = false := by
  have hnot : !isDecimal c :=
    forall_of_isBlank (p := fun c => !isDecimal c) (by decide +kernel) (by decide +kernel) h
  simpa using hnot

theorem isDecimal_of_isQuote {c : Char} (h : isQuote c) : isDecimal c = false := by
  simp only [isQuote, Bool.or_eq_true, beq_iff_eq] at h
  rcases h with (rfl | rfl) | rfl <;> decide

/-- A letter looks like itself. So a character that looks like no letter is none. -/
theorem face_of_isAlpha {c : Char} (h : c.isAlpha) : face c = c := by
  have hface := forall_of_isAsciiNameChar (p := fun c => !c.isAlpha || face c == c)
    (by decide +kernel) (isAsciiNameChar_of_isAlpha h)
  simpa [h] using hface

/-- If no letter comes next the text starts with none. -/
theorem not_isAlpha_head {t : Text} (h : ∀ c ∈ nextOf t, c.isAlpha = false) :
    ∀ c ∈ t.head?, c.isAlpha = false := by
  cases t with
  | nil => simp
  | cons c cs =>
    rintro d ⟨⟩
    by_cases hblank : isBlank c
    · exact isAlpha_of_isBlank hblank
    · rw [← Bool.not_eq_true]
      intro halpha
      have hc := h c (by simp [nextOf, trimStart, hblank, face_of_isAlpha halpha])
      rw [halpha] at hc
      contradiction

/-- **The opening of a word and what comes after it**, if that is no letter. A letter would go on
with the word. -/
theorem ofText_word {w t : Text} (hw : ∀ c ∈ w, c.isAlpha)
    (ht : ∀ c ∈ nextOf t, c.isAlpha = false) : ofText (w ++ t) = ⟨w, nextOf t⟩ := by
  have hhead := not_isAlpha_head ht
  have htake : t.takeWhile Char.isAlpha = [] := by
    cases t with
    | nil => rfl
    | cons c cs => simp [hhead c rfl]
  have hdrop : t.dropWhile Char.isAlpha = t := by
    cases t with
    | nil => rfl
    | cons c cs => simp [hhead c rfl]
  rw [ofText, List.takeWhile_append_of_pos hw, List.dropWhile_append_of_pos hw, htake, hdrop,
    List.append_nil]

/-- An opening that shows a character does not change with what is written after it. -/
theorem ofText_append {t : Text} (h : (ofText t).next ≠ none) (more : Text) :
    ofText (t ++ more) = ofText t := by
  have hrest : t.dropWhile Char.isAlpha ≠ [] := by
    intro hnil
    simp [ofText, hnil, nextOf, trimStart] at h
  have htake : (t ++ more).takeWhile Char.isAlpha = t.takeWhile Char.isAlpha := by
    rw [List.takeWhile_append, if_neg]
    intro hlength
    have hsplit := congrArg List.length
      (List.takeWhile_append_dropWhile (p := Char.isAlpha) (l := t))
    rw [List.length_append, hlength] at hsplit
    exact hrest (List.eq_nil_of_length_eq_zero (by omega))
  have hdrop : (t ++ more).dropWhile Char.isAlpha = t.dropWhile Char.isAlpha ++ more := by
    rw [List.dropWhile_append, if_neg (by simpa using hrest)]
  rw [ofText, ofText, htake, hdrop, nextOf_append h]

end Opening

namespace Shape

open Opening

/-! ## 2. The openings of a shape -/

/-- What can come next in a text that starts with the word. A word that shows no character, such as
an empty one, leaves it to what comes later. -/
def nextAfter (w : String) (later : List (Option Char)) : List (Option Char) :=
  if nextOf w.toList = none then later else [nextOf w.toList]

/-- What can come next in a text with these pieces. Nothing is said of `rest`, which can be
anything; the value there stands for this. -/
def nexts : List Piece → List (Option Char)
  | [] => [none]
  | .word w :: pieces => nextAfter w (nexts pieces)
  | .oneOf ws :: pieces => ws.flatMap fun w => nextAfter w (nexts pieces)
  | .blanks :: pieces => nexts pieces
  | .call :: _ => [some '(']
  | .optionalCall :: pieces => some '(' :: nexts pieces
  | .optionalMinus :: pieces => some '0' :: nexts pieces
  | .quote :: _ => [some '"']
  | .decimal :: _ => [some '0']
  | .rest :: _ => [none]

/-- The words that a shape starts with, and the pieces after them. A shape that starts with no word
starts with the empty one. -/
def start : List Piece → List Text × List Piece
  | .word w :: pieces =>
    if w.toList.all Char.isAlpha then ([w.toList], pieces) else ([[]], .word w :: pieces)
  | .oneOf ws :: pieces => (ws.map String.toList, pieces)
  | pieces => ([[]], pieces)

/-- The openings of the texts with these pieces. -/
def openings (pieces : List Piece) : List Opening :=
  (start pieces).1.flatMap fun w => (nexts (start pieces).2).map fun next => ⟨w, next⟩

/-- The first words are words, no letter can come after them, and the rest of a text is only taken
after something has come. Under these conditions the openings of a shape can be told from its
pieces. -/
def isOpened (pieces : List Piece) : Bool :=
  (start pieces).1.all (·.all Char.isAlpha) &&
    (nexts (start pieces).2).all (fun next => !next.any Char.isAlpha) &&
      (!(start pieces).2.contains .rest || !(nexts (start pieces).2).contains none)

theorem isOpened_table : ∀ shape ∈ table, isOpened shape.pieces := by
  decide

/-- The tag of the row that decides for a family of shapes which share their openings. -/
def family : Tag → Tag
  | .regionTextMatch | .regionMatch => .regionValue
  | .settingDialog => .settingBuilder
  | tag => tag

/-- The check that the main result rests on: rows with an opening in common belong to one family. -/
theorem family_of_openings : ∀ shape ∈ table, ∀ shape' ∈ table, ∀ opening ∈ openings shape.pieces,
    opening ∈ openings shape'.pieces → family shape.tag = family shape'.tag := by
  decide

theorem nextOf_mem_nextAfter {w : String} {t : Text} {later : List (Option Char)}
    (h : nextOf w.toList = none → nextOf t ∈ later) :
    nextOf (w.toList ++ t) ∈ nextAfter w later := by
  unfold nextAfter
  split
  · next hnone =>
    rw [nextOf_append_of_eq_none hnone]
    exact h hnone
  · next hsome =>
    rw [nextOf_append hsome]
    exact List.mem_singleton_self _

theorem nextOf_of_isCall {t : Text} (h : IsCall t) (more : Text) :
    nextOf (t ++ more) = some '(' := by
  obtain ⟨args, -, rfl⟩ := h
  rfl

/-- **What comes next in a text with a shape is what can come next.** The induction is on the
pieces. Those that may read nothing leave the question to the pieces behind them. -/
theorem nextOf_mem_nexts {pieces : List Piece} {t : Text} (h : fits pieces t)
    (hrest : .rest ∈ pieces → none ∉ nexts pieces) : nextOf t ∈ nexts pieces := by
  induction pieces generalizing t with
  | nil =>
    rw [fits_nil.mp h]
    exact List.mem_singleton_self _
  | cons piece pieces ih =>
    by_cases hpiece : piece = .rest
    · subst hpiece
      exact absurd (List.mem_singleton_self none) (hrest List.mem_cons_self)
    obtain ⟨front, back, hfront, hback, rfl⟩ := (fits_cons hpiece).mp h
    -- what the pieces behind this one leave is known, if it is asked for at all
    have hlater (hnone : none ∈ nexts pieces → none ∈ nexts (piece :: pieces)) :
        nextOf back ∈ nexts pieces :=
      ih hback fun hmem hnext => hrest (List.mem_cons_of_mem _ hmem) (hnone hnext)
    cases piece with
    | word w =>
      rw [hfront]
      refine nextOf_mem_nextAfter fun hnone => hlater fun hnext => ?_
      rwa [nexts, nextAfter, if_pos hnone]
    | oneOf ws =>
      obtain ⟨w, hw, rfl⟩ := hfront
      refine List.mem_flatMap.mpr ⟨w, hw, nextOf_mem_nextAfter fun hnone => hlater fun hnext => ?_⟩
      exact List.mem_flatMap.mpr ⟨w, hw, by rwa [nextAfter, if_pos hnone]⟩
    | blanks =>
      -- white space is passed over before the next character is looked at
      rw [nextOf_append_of_isAllBlank hfront]
      exact hlater id
    | call =>
      rw [nextOf_of_isCall hfront]
      exact List.mem_singleton_self _
    | optionalCall =>
      rcases hfront with rfl | hcall
      · exact List.mem_cons_of_mem _ (hlater (List.mem_cons_of_mem _))
      · rw [nextOf_of_isCall hcall]
        exact List.mem_cons_self
    | optionalMinus =>
      rcases hfront with rfl | rfl
      · exact List.mem_cons_of_mem _ (hlater (List.mem_cons_of_mem _))
      · exact List.mem_cons_self
    | quote =>
      obtain ⟨c, hc, rfl⟩ := hfront
      have hblank : isBlank c = false := by
        rw [← Bool.not_eq_true]
        intro hblank
        rw [isQuote_of_isBlank hblank] at hc
        contradiction
      simp [nexts, nextOf, trimStart, hblank, face, hc]
    | decimal =>
      obtain ⟨c, hc, rfl⟩ := hfront
      have hblank : isBlank c = false := by
        rw [← Bool.not_eq_true]
        intro hblank
        rw [isDecimal_of_isBlank hblank] at hc
        contradiction
      by_cases hquote : isQuote c
      · rw [isDecimal_of_isQuote hquote] at hc
        contradiction
      · simp [nexts, nextOf, trimStart, hblank, face, hc, hquote]
    | rest => contradiction

/-- A text with a shape starts with one of the shape's first words. -/
theorem exists_start {pieces : List Piece} {t : Text} (h : fits pieces t) :
    ∃ w ∈ (start pieces).1, ∃ rest, t = w ++ rest ∧ fits (start pieces).2 rest := by
  unfold start
  split
  · split
    · obtain ⟨_, back, rfl, hback, rfl⟩ := (fits_cons (by simp)).mp h
      exact ⟨_, List.mem_singleton_self _, back, rfl, hback⟩
    · exact ⟨[], List.mem_singleton_self _, t, rfl, h⟩
  · obtain ⟨_, back, ⟨w, hw, rfl⟩, hback, rfl⟩ := (fits_cons (by simp)).mp h
    exact ⟨_, List.mem_map_of_mem hw, back, rfl, hback⟩
  · exact ⟨[], List.mem_singleton_self _, t, rfl, h⟩

/-- **A text opens in one of the ways of its shape.** It is cut into the first word and the rest,
and what comes next in the rest is no letter. -/
theorem ofText_mem_openings {pieces : List Piece} (hopened : isOpened pieces) {t : Text}
    (h : fits pieces t) : ofText t ∈ openings pieces := by
  simp only [isOpened, Bool.and_eq_true, List.all_eq_true, Bool.or_eq_true,
    Bool.not_eq_true'] at hopened
  obtain ⟨⟨hwords, hletters⟩, hrest⟩ := hopened
  obtain ⟨w, hw, rest, rfl, hfits⟩ := exists_start h
  have hnext : nextOf rest ∈ nexts (start pieces).2 := by
    refine nextOf_mem_nexts hfits fun hmem hnone => ?_
    simp [hmem, hnone] at hrest
  have hopening : ofText (w ++ rest) = ⟨w, nextOf rest⟩ := by
    refine ofText_word (hwords w hw) fun c hc => ?_
    have hletter := hletters _ hnext
    rw [hc] at hletter
    simpa using hletter
  rw [hopening]
  exact List.mem_flatMap.mpr ⟨w, hw, List.mem_map_of_mem hnext⟩

theorem ofText_mem_of_accepts {shape : Shape} (hshape : shape ∈ table) {t : Text}
    (h : shape.accepts t) : ofText t ∈ openings shape.pieces :=
  ofText_mem_openings (isOpened_table shape hshape) h

/-- **Shapes that accept one text belong to one family**, since a text has one opening. -/
theorem family_eq_of_accepts {shape shape' : Shape} (hshape : shape ∈ table)
    (hshape' : shape' ∈ table) {t : Text} (h : shape.accepts t) (h' : shape'.accepts t) :
    family shape.tag = family shape'.tag :=
  family_of_openings shape hshape shape' hshape' _ (ofText_mem_of_accepts hshape h)
    (ofText_mem_of_accepts hshape' h')

/-! ## 3. Families -/

/-- The names that look for a text in a region. -/
def textFinders : List String :=
  ["findText", "findMultiText", "findAllText", "findAnyText"]

/-- The names that look for an image in a region. -/
def finders : List String :=
  ["find", "findMulti", "findAll", "findAny"]

/-- What the calls of the two families start with. -/
def regionFront : List Piece :=
  [.word "Region", .blanks]

def settingFront : List Piece :=
  [.word "Setting", .word ".", .oneOf ["builder"], .blanks]

/-- The rows of the first family, in their order. -/
theorem table_region :
    table.filter (fun shape => family shape.tag = .regionValue) =
      [⟨regionFront ++ [.call] ++ thenCall textFinders, .regionTextMatch⟩,
        ⟨regionFront ++ [.call] ++ thenCall finders, .regionMatch⟩,
        ⟨regionFront ++ [.call], .regionValue⟩] := rfl

/-- The rows of the other family. -/
theorem table_setting :
    table.filter (fun shape => family shape.tag = .settingBuilder) =
      [⟨settingFront ++ [.call] ++ thenCall ["build"], .settingDialog⟩,
        ⟨settingFront ++ [.call], .settingBuilder⟩] := rfl

/-- No other family has two shapes, so that outside of the two families at most one row accepts a
text. -/
theorem length_family : ∀ shape ∈ table, family shape.tag ≠ .regionValue →
    family shape.tag ≠ .settingBuilder →
      table.filter (fun shape' => family shape'.tag = family shape.tag) = [shape] := by
  decide

/-- The rows that accept a text, of all rows or of those of the family of one of them. -/
theorem filter_accepts {shape : Shape} (hshape : shape ∈ table) {t : Text} (h : shape.accepts t) :
    table.filter (·.accepts t) =
      (table.filter fun shape' => family shape'.tag = family shape.tag).filter (·.accepts t) := by
  rw [List.filter_filter]
  refine List.filter_congr fun shape' hshape' => ?_
  cases haccepts : shape'.accepts t with
  | false => rfl
  | true => simp [family_eq_of_accepts hshape' hshape haccepts h]

/-- The tags of the rows that accept a text, in the order of the table. -/
def fitting (t : Text) : List Tag :=
  (table.filter (·.accepts t)).map Shape.tag

/-- **A chain of calls is accepted as a single call, too.** The rows of a family have a front in
common and differ in how they go on. -/
theorem fits_call_of_mem {front : List Piece} (hfront : .rest ∉ front) {rows : List Shape}
    (hrows : ∀ row ∈ rows, row.pieces = front ++ [.call] ∨
      ∃ names, row.pieces = front ++ [.call] ++ thenCall names)
    {shape : Shape} (hshape : shape ∈ rows) {t : Text} (ht : '\n' ∉ t) (h : shape.accepts t) :
    fits (front ++ [.call]) t := by
  unfold accepts at h
  rcases hrows shape hshape with hpieces | ⟨names, hpieces⟩
  · rwa [hpieces] at h
  · rw [hpieces] at h
    exact fits_of_fits_thenCall hfront ht h

theorem fits_region_of_accepts {shape : Shape} (hshape : shape ∈ table)
    (hfamily : family shape.tag = .regionValue) {t : Text} (ht : '\n' ∉ t) (h : shape.accepts t) :
    fits (regionFront ++ [.call]) t := by
  have hmem : shape ∈ table.filter fun shape => family shape.tag = .regionValue :=
    List.mem_filter.mpr ⟨hshape, by simp [hfamily]⟩
  rw [table_region] at hmem
  refine fits_call_of_mem (by decide) ?_ hmem ht h
  simp only [List.forall_mem_cons]
  exact ⟨.inr ⟨_, rfl⟩, .inr ⟨_, rfl⟩, .inl trivial, by simp⟩

theorem fits_setting_of_accepts {shape : Shape} (hshape : shape ∈ table)
    (hfamily : family shape.tag = .settingBuilder) {t : Text} (ht : '\n' ∉ t)
    (h : shape.accepts t) : fits (settingFront ++ [.call]) t := by
  have hmem : shape ∈ table.filter fun shape => family shape.tag = .settingBuilder :=
    List.mem_filter.mpr ⟨hshape, by simp [hfamily]⟩
  rw [table_setting] at hmem
  refine fits_call_of_mem (by decide) ?_ hmem ht h
  simp only [List.forall_mem_cons]
  exact ⟨.inr ⟨_, rfl⟩, .inl trivial, by simp⟩

/-- **The rows that accept a text**: one at most, or those of one of the two families. Of a family
with a row that accepts the text, the row of the single call accepts it as well. -/
theorem fitting_cases {t : Text} (ht : '\n' ∉ t) :
    (fitting t).length ≤ 1 ∨
      fitting t ∈ [[.regionTextMatch, .regionMatch, .regionValue], [.regionTextMatch, .regionValue],
        [.regionMatch, .regionValue]] ∨
      fitting t = [.settingDialog, .settingBuilder] := by
  by_cases hnone : ∀ shape ∈ table, shape.accepts t = false
  · have hempty : table.filter (·.accepts t) = [] :=
      List.filter_eq_nil_iff.mpr fun shape hshape => by simp [hnone shape hshape]
    exact .inl (by simp [fitting, hempty])
  · simp only [not_forall, Bool.not_eq_false] at hnone
    obtain ⟨shape, hshape, haccepts⟩ := hnone
    rw [fitting, filter_accepts hshape haccepts]
    by_cases hregion : family shape.tag = .regionValue
    · have hbase := fits_region_of_accepts hshape hregion ht haccepts
      rw [hregion, table_region]
      cases htext : fits (regionFront ++ [.call] ++ thenCall textFinders) t <;>
        cases hfind : fits (regionFront ++ [.call] ++ thenCall finders) t <;>
        simp only [List.filter, accepts, hbase, htext, hfind] <;> decide
    · by_cases hsetting : family shape.tag = .settingBuilder
      · have hbase := fits_setting_of_accepts hshape hsetting ht haccepts
        rw [hsetting, table_setting]
        cases hbuild : fits (settingFront ++ [.call] ++ thenCall ["build"]) t <;>
          simp only [List.filter, accepts, hbase, hbuild] <;> decide
      · rw [length_family shape hshape hregion hsetting]
        simp [haccepts]

/-! ## 4. Orders of the table -/

/-- Two sublists of a list without repetition are equal if they hold the same. So the rows that
accept a text stand in the order of the table, if the families do. -/
theorem eq_of_perm_of_sublist {α : Type} {l a b : List α} (hl : l.Nodup) (ha : a.Sublist l)
    (hb : b.Sublist l) (h : a.Perm b) : a = b := by
  induction l generalizing a b with
  | nil => rw [List.sublist_nil.mp ha, List.sublist_nil.mp hb]
  | cons x l ih =>
    obtain ⟨hx, hl⟩ := List.nodup_cons.mp hl
    cases ha with
    | cons _ ha =>
      cases hb with
      | cons _ hb => exact ih hl ha hb h
      | cons_cons _ hb => exact absurd (ha.subset (h.mem_iff.mpr List.mem_cons_self)) hx
    | cons_cons _ ha =>
      cases hb with
      | cons _ hb => exact absurd (hb.subset (h.mem_iff.mp List.mem_cons_self)) hx
      | cons_cons _ hb => rw [ih hl ha hb h.cons_inv]

end Shape

open Shape

/-- The tag of a text is that of the first row that accepts it. -/
theorem Tag.ofShape_eq_head? (rows : List Shape) (t : Text) :
    Tag.ofShape rows t = ((rows.filter (·.accepts t)).map Shape.tag).head?.getD .any := by
  rw [Tag.ofShape, List.head?_map, List.head?_filter]
  cases rows.find? (·.accepts t) <;> rfl

theorem Shape.nodup_tags : (table.map Shape.tag).Nodup := by
  decide

/-- In a table with the two families in order, the rows that accept a text are those of the given
table, in the same order. -/
theorem Shape.fitting_eq {rows : List Shape} (hrows : rows.Perm table)
    (hregion : [.regionTextMatch, .regionMatch, .regionValue].Sublist (rows.map Shape.tag))
    (hsetting : [.settingDialog, .settingBuilder].Sublist (rows.map Shape.tag)) {t : Text}
    (ht : '\n' ∉ t) : (rows.filter (·.accepts t)).map Shape.tag = fitting t := by
  have hperm : ((rows.filter (·.accepts t)).map Shape.tag).Perm (fitting t) :=
    (hrows.filter _).map _
  have hnodup : (rows.map Shape.tag).Nodup := (hrows.map _).nodup_iff.mpr nodup_tags
  have hsublist : ((rows.filter (·.accepts t)).map Shape.tag).Sublist (rows.map Shape.tag) :=
    List.filter_sublist.map _
  refine eq_of_perm_of_sublist hnodup hsublist ?_ hperm
  rcases fitting_cases ht with hlength | hfamily | hfamily
  · -- a single row stands somewhere in any order
    rcases hone : fitting t with _ | ⟨tag, _ | ⟨tag', tags⟩⟩
    · exact List.nil_sublist _
    · rw [hone] at hperm
      exact List.singleton_sublist.mpr (hsublist.subset (hperm.mem_iff.mpr List.mem_cons_self))
    · simp [hone] at hlength
  · refine List.Sublist.trans ?_ hregion
    simp only [List.mem_cons, List.not_mem_nil, or_false] at hfamily
    rcases hfamily with h | h | h <;> rw [h] <;> decide
  · rw [hfamily]
    exact hsetting

theorem Shape.mem_fitting {tag : Tag} {t : Text} :
    tag ∈ fitting t ↔ ∃ shape ∈ table, shape.accepts t ∧ shape.tag = tag := by
  simp [fitting, and_assoc]

/-- The expression of a text holds nothing that is not in the text. -/
theorem Text.expression_subset (t : Text) : expression t ⊆ t := by
  intro c hc
  have htrim := (List.rdropWhile_prefix _ _).subset ((List.rdropWhile_prefix _ _).subset hc)
  exact trim_subset t htrim

/-- **The order of the shapes matters in two families only.** A text on one line is accepted by at
most one shape, or by the call of a region together with one or both of the chains that go on from
it, or by the two shapes of builders of settings; what goes on from a call is accepted as the call,
too. So every order in which the chains stand above the calls gives the same tags. -/
theorem Shape.order_matters_in_two_families {t : Text} (ht : '\n' ∉ t) :
    ((fitting t).length ≤ 1 ∨
      fitting t ∈ [[.regionTextMatch, .regionMatch, .regionValue], [.regionTextMatch, .regionValue],
        [.regionMatch, .regionValue]] ∨
      fitting t = [.settingDialog, .settingBuilder]) ∧
    (.regionTextMatch ∈ fitting t ∨ .regionMatch ∈ fitting t → .regionValue ∈ fitting t) ∧
    (.settingDialog ∈ fitting t → .settingBuilder ∈ fitting t) ∧
    ∀ rows : List Shape, rows.Perm table →
      [.regionTextMatch, .regionMatch, .regionValue].Sublist (rows.map Shape.tag) →
      [.settingDialog, .settingBuilder].Sublist (rows.map Shape.tag) →
      Tag.ofShape rows (expression t) = Tag.classify t := by
  refine ⟨fitting_cases ht, fun h => ?_, fun h => ?_, fun rows hrows hregion hsetting => ?_⟩
  · obtain ⟨shape, hshape, haccepts, hfamily⟩ :
        ∃ shape ∈ table, shape.accepts t ∧ family shape.tag = .regionValue := by
      rcases h with h | h <;> obtain ⟨shape, hshape, haccepts, htag⟩ := mem_fitting.mp h <;>
        exact ⟨shape, hshape, haccepts, by rw [htag]; rfl⟩
    exact mem_fitting.mpr ⟨⟨regionFront ++ [Piece.call], .regionValue⟩, by decide +kernel,
      fits_region_of_accepts hshape hfamily ht haccepts, rfl⟩
  · obtain ⟨shape, hshape, haccepts, htag⟩ := mem_fitting.mp h
    exact mem_fitting.mpr ⟨⟨settingFront ++ [Piece.call], .settingBuilder⟩, by decide +kernel,
      fits_setting_of_accepts hshape (by rw [htag]; rfl) ht haccepts, rfl⟩
  · have hline : '\n' ∉ expression t := fun hmem => ht (expression_subset t hmem)
    rw [Tag.classify, Tag.ofShape_eq_head?, Tag.ofShape_eq_head?,
      fitting_eq hrows hregion hsetting hline]
    rfl

/-- A chain that all three shapes of regions accept, with the shapes of literals tried last. -/
theorem Shape.chain_with_literals_tried_last :
    fitting "Region(1).findText(2).find(3)".toList =
      [.regionTextMatch, .regionMatch, .regionValue] ∧
    Tag.ofShape (table.drop 5 ++ table.take 5)
        (expression "Region(1).findText(2).find(3)".toList) =
      Tag.classify "Region(1).findText(2).find(3)".toList := by
  refine ⟨by decide +kernel, ?_⟩
  refine (order_matters_in_two_families (by decide +kernel)).2.2.2 _ ?_ (by decide +kernel)
    (by decide +kernel)
  have hswap : (table.drop 5 ++ table.take 5).Perm (table.take 5 ++ table.drop 5) :=
    List.perm_append_comm
  rwa [List.take_append_drop] at hswap

end MacroScript
