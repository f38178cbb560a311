import MacroScript.Proofs.Inference.Name
import MacroScript.Proofs.Inference.Opening
import MacroScript.Proofs.Line.Chain

/-!
# What is found in a region

The tag of a call that other calls can follow is decided by the text in its outermost brackets, from
the first opening bracket of the expression to its last character: a region is searched for a text
if a call that does so follows a closing bracket anywhere in there, else for an image if such a call
does, and else it is just a region (`Tag.ofShape_region`). The builder of settings is read in the
same way (`Tag.ofShape_setting`).

So the outermost call decides only as long as its arguments do not hold such a call. A search for a
text is always known as one, but **a search for an image is taken for a search for a text if a call
that searches for a text follows a closing bracket in its arguments or in those of the region**, be
it in a nested call or inside a string literal (`Tag.classify_find`).
-/
namespace MacroScript

open Text

namespace Shape

/-! ## 1. Calls and their outermost brackets -/

/-- Nothing that the piece reads holds an opening bracket. In a text that such pieces read, the
first opening bracket is that of the argument list behind them. -/
def Piece.isOpenless : Piece → Bool
  | word w => !w.toList.contains '('
  | oneOf ws => ws.all fun w => !w.toList.contains '('
  | blanks => true
  | _ => false

section Front

variable {front : List Piece} (hfront : front.all Piece.isOpenless)
include hfront

theorem rest_not_mem_of_isOpenless : .rest ∉ front := by
  intro hmem
  exact absurd (List.all_eq_true.mp hfront _ hmem) (by decide)

/-- By induction on the pieces: each reads a stretch without an opening bracket. -/
theorem opener_not_mem_of_fits {t : Text} (h : fits front t) : '(' ∉ t := by
  induction front generalizing t with
  | nil => simp [fits_nil.mp h]
  | cons piece front ih =>
    rw [List.all_cons, Bool.and_eq_true] at hfront
    have hpiece : piece ≠ .rest := by
      rintro rfl
      exact absurd hfront.1 (by decide)
    obtain ⟨u, v, hu, hv, rfl⟩ := (fits_cons hpiece).mp h
    rw [List.mem_append, not_or]
    refine ⟨?_, ih hfront.2 hv⟩
    have hopenless := hfront.1
    cases piece with
    | word w =>
      rw [hu]
      simpa [Piece.isOpenless] using hopenless
    | oneOf ws =>
      obtain ⟨w, hw, rfl⟩ := hu
      simp only [Piece.isOpenless, List.all_eq_true] at hopenless
      simpa using hopenless w hw
    | blanks =>
      intro hmem
      exact absurd (List.all_eq_true.mp hu _ hmem) (by decide)
    | _ => contradiction

/-- A call is cut at its first opening bracket, and the last character closes it. -/
theorem exists_of_fits_call {t : Text} (h : fits (front ++ [.call]) t) :
    ∃ name inner, fits front name ∧ '\n' ∉ inner ∧ t = name ++ '(' :: (inner ++ [')']) := by
  obtain ⟨name, v, hname, hv, rfl⟩ := (fits_append (rest_not_mem_of_isOpenless hfront)).mp h
  obtain ⟨inner, hinner, rfl⟩ := (fits_singleton (by simp)).mp hv
  exact ⟨name, inner, hname, hinner, rfl⟩

/-- **What comes after the name of a call is decided from the first opening bracket on.** There is
one way only to cut such a text, as the name holds no bracket. -/
theorem fits_front_call {name : Text} (hname : fits front name) (more : List Piece) (t : Text) :
    fits (front ++ .call :: more) (name ++ '(' :: t) = fits (.call :: more) ('(' :: t) := by
  rw [Bool.eq_iff_iff, fits_append (rest_not_mem_of_isOpenless hfront)]
  constructor
  · rintro ⟨u, v, hu, hv, h⟩
    obtain ⟨_, back, ⟨args, -, rfl⟩, -, rfl⟩ := (fits_cons (by simp)).mp hv
    -- both the name and what was read before the bracket end at the first bracket
    have hcut : u ++ '(' :: (args ++ ')' :: back) = name ++ '(' :: t := by
      rw [h]
      simp
    obtain ⟨middle, rfl, hmiddle⟩ :=
      exists_append_of_not_mem hcut (opener_not_mem_of_fits hfront hname)
    cases middle with
    | nil =>
      rw [hmiddle]
      simpa using hv
    | cons c middle =>
      obtain ⟨rfl, -⟩ := List.cons.inj hmiddle
      exact absurd (by simp) (opener_not_mem_of_fits hfront hu)
  · intro h
    exact ⟨name, _, hname, h, rfl⟩

section Inner

variable {name inner : Text} (hname : fits front name) (hinner : '\n' ∉ inner)
include hname hinner

theorem fits_front_inner : fits (front ++ [.call]) (name ++ '(' :: (inner ++ [')'])) := by
  rw [fits_front_call hfront hname]
  exact (fits_singleton (by simp)).mpr ⟨inner, hinner, rfl⟩

/-- A call that goes on is one if a call is opened between its outermost brackets. -/
theorem fits_front_inner_thenCall (names : List String) :
    fits (front ++ [.call] ++ thenCall names) (name ++ '(' :: (inner ++ [')'])) =
      opensCall names inner := by
  rw [List.append_assoc, List.singleton_append, fits_front_call hfront hname,
    fits_call_thenCall hinner]

end Inner

end Front

theorem isOpenless_regionFront : regionFront.all Piece.isOpenless := by
  decide

theorem isOpenless_settingFront : settingFront.all Piece.isOpenless := by
  decide

end Shape

open Shape

/-! ## 2. The tags of the two families -/

/-- The tag of a region with this text in its outermost brackets. The searches for a text are asked
for first, as they stand first in the table. -/
def Tag.ofRegion (inner : Text) : Tag :=
  if opensCall textFinders inner then .regionTextMatch
  else if opensCall finders inner then .regionMatch
  else .regionValue

/-- The tag of a builder of settings with this text in its outermost brackets. -/
def Tag.ofSetting (inner : Text) : Tag :=
  if opensCall ["build"] inner then .settingDialog else .settingBuilder

/-- Only the family of a shape that accepts the text has a say, so that the table comes down to
three rows or to two. -/
theorem Tag.ofShape_of_accepts {shape : Shape} (hshape : shape ∈ table) {t : Text}
    (h : shape.accepts t) :
    Tag.ofShape table t =
      Tag.ofShape (table.filter fun shape' => family shape'.tag = family shape.tag) t := by
  rw [ofShape_eq_head?, ofShape_eq_head?, filter_accepts hshape h]

/-- **The tag of a call on a region is told by the text in its outermost brackets.** -/
theorem Tag.ofShape_region {name inner : Text} (hname : fits regionFront name)
    (hinner : '\n' ∉ inner) :
    Tag.ofShape table (name ++ '(' :: (inner ++ [')'])) = Tag.ofRegion inner := by
  have hmem : ⟨regionFront ++ [Piece.call], .regionValue⟩ ∈ table := by decide
  have hbase := fits_front_inner isOpenless_regionFront hname hinner
  have hchain := fits_front_inner_thenCall isOpenless_regionFront hname hinner
  rw [ofShape_of_accepts hmem hbase]
  change Tag.ofShape (table.filter fun shape => family shape.tag = .regionValue) _ = _
  simp only [table_region, Tag.ofShape, List.find?, accepts, hbase, hchain, Tag.ofRegion]
  cases opensCall textFinders inner <;> cases opensCall finders inner <;> rfl

/-- The same of the builder of settings. -/
theorem Tag.ofShape_setting {name inner : Text} (hname : fits settingFront name)
    (hinner : '\n' ∉ inner) :
    Tag.ofShape table (name ++ '(' :: (inner ++ [')'])) = Tag.ofSetting inner := by
  have hmem : ⟨settingFront ++ [Piece.call], .settingBuilder⟩ ∈ table := by decide
  have hbase := fits_front_inner isOpenless_settingFront hname hinner
  have hchain := fits_front_inner_thenCall isOpenless_settingFront hname hinner
  rw [ofShape_of_accepts hmem hbase]
  change Tag.ofShape (table.filter fun shape => family shape.tag = .settingBuilder) _ = _
  simp only [table_setting, Tag.ofShape, List.find?, accepts, hbase, hchain, Tag.ofSetting]
  cases opensCall ["build"] inner <;> rfl

/-! ## 3. Searching a region -/

namespace Shape

theorem opensCall_cons (names : List String) (c : Char) (t : Text) :
    opensCall names (c :: t) = (fits (nextCall names) (c :: t) || opensCall names t) := by
  rw [opensCall, List.tails_cons, List.any_cons, opensCall]

/-- No call is opened where no bracket is closed, so what stands in front of the first closing
bracket can be passed over. -/
theorem opensCall_append_of_not_mem (names : List String) {front : Text} (hfront : ')' ∉ front)
    (t : Text) : opensCall names (front ++ t) = opensCall names t := by
  induction front with
  | nil => rfl
  | cons c front ih =>
    rw [List.mem_cons, not_or] at hfront
    have hnext : fits (nextCall names) (c :: (front ++ t)) = false := by
      rw [← Bool.not_eq_true, fits_nextCall]
      rintro ⟨_, _, _, _, _, h⟩
      exact hfront.1 (List.cons.inj h).1.symm
    rw [List.cons_append, opensCall_cons, hnext, Bool.false_or, ih hfront.2]

/-- A call on a region: `a` are the arguments of the region and `b` are those of the call. Nothing
is asked of them, so they may hold calls of their own. -/
def findCall (name : String) (a b : Text) : Text :=
  "Region(".toList ++ a ++ ").".toList ++ name.toList ++ "(".toList ++ b ++ ")".toList

/-- What stands in the outermost brackets of a call on a region. -/
def findInner (name : String) (a b : Text) : Text :=
  a ++ ')' :: ('.' :: (name.toList ++ '(' :: b))

/-- The call as a name, an opening bracket and what the brackets hold. -/
theorem findCall_eq (name : String) (a b : Text) :
    findCall name a b = "Region".toList ++ '(' :: (findInner name a b ++ [')']) := by
  have hregion : "Region(".toList = "Region".toList ++ ['('] := rfl
  have hpoint : ").".toList = [')', '.'] := rfl
  have hopener : "(".toList = ['('] := rfl
  have hcloser : ")".toList = [')'] := rfl
  unfold findCall findInner
  rw [hregion, hpoint, hopener, hcloser]
  simp only [List.append_assoc, List.cons_append, List.nil_append]

/-- The call on the region opens a call, or its arguments or those of the region do. A call that is
opened in both would hold a closing bracket in its name. -/
theorem opensCall_findInner {names : List String} (hnames : ∀ name ∈ names, ')' ∉ name.toList)
    {name : String} (hname : ')' ∉ name.toList) (a b : Text) :
    opensCall names (findInner name a b) =
      (opensCall names a || fits (nextCall names) (')' :: '.' :: (name.toList ++ '(' :: b)) ||
        opensCall names b) := by
  have hfront : ')' ∉ '.' :: (name.toList ++ ['(']) := by simp [hname]
  have hback := opensCall_append_of_not_mem names hfront b
  simp only [List.cons_append, List.append_assoc, List.nil_append] at hback
  rw [findInner, opensCall_append_closer hnames, opensCall_cons, hback, Bool.or_assoc]

/-- No name of a search for an image goes on like one of a search for a text. (`find` is the start
of `findText`, but an opening bracket comes then.) -/
theorem fits_nextCall_textFinders {name : String} (hname : name ∈ finders) (b : Text) :
    fits (nextCall textFinders) (')' :: '.' :: (name.toList ++ '(' :: b)) = false := by
  simp only [finders, List.mem_cons, List.not_mem_nil, or_false] at hname
  rcases hname with rfl | rfl | rfl | rfl <;> rfl

theorem closer_not_mem_textFinders : ∀ name ∈ textFinders, ')' ∉ name.toList := by
  decide

theorem closer_not_mem_finders : ∀ name ∈ finders, ')' ∉ name.toList := by
  decide

theorem newline_not_mem_finders : ∀ name ∈ textFinders ++ finders, '\n' ∉ name.toList := by
  decide

end Shape

/-- A call on a region has the tag of its inside: it is an expression as it stands, since it ends
with a bracket. -/
theorem Tag.classify_findCall (name : String) {a b : Text} (ha : '\n' ∉ a) (hb : '\n' ∉ b)
    (hname : '\n' ∉ name.toList) :
    Tag.classify (findCall name a b) = Tag.ofRegion (findInner name a b) := by
  have hfront : fits regionFront "Region".toList := by decide
  have hinner : '\n' ∉ findInner name a b := by simp [findInner, ha, hb, hname]
  have hhead : (findCall name a b).head? = some 'R' := by
    rw [findCall_eq]
    rfl
  have hlast : (findCall name a b).getLast? = some ')' := by
    rw [findCall_eq, ← List.cons_append, ← List.append_assoc, List.getLast?_concat]
  have htrimmed : (findCall name a b).isTrimmed := by
    rw [Text.isTrimmed, hhead, hlast]
    decide
  have hexpression := Text.expression_of_isTrimmed htrimmed (by simp [hlast])
  rw [Tag.classify, hexpression, findCall_eq, Tag.ofShape_region hfront hinner]

/-- **A search for a text wins.** A call that searches a region for a text has the tag of such
searches, whatever the arguments are. A call that searches it for an image has its own tag exactly
if no search for a text follows a closing bracket in the arguments of the region or of the call. -/
theorem Tag.classify_find {a b : Text} (ha : '\n' ∉ a) (hb : '\n' ∉ b) :
    (∀ name ∈ textFinders, Tag.classify (findCall name a b) = .regionTextMatch) ∧
    ∀ name ∈ finders, Tag.classify (findCall name a b) =
      if opensCall textFinders a || opensCall textFinders b then .regionTextMatch
      else .regionMatch := by
  constructor
  · intro name hname
    have hbreak := newline_not_mem_finders name (List.mem_append_left _ hname)
    have hcloser := closer_not_mem_textFinders name hname
    have hnext : fits (nextCall textFinders) (')' :: '.' :: (name.toList ++ '(' :: b)) :=
      fits_nextCall.mpr ⟨name, hname, [], b, rfl, rfl⟩
    rw [classify_findCall name ha hb hbreak, ofRegion,
      opensCall_findInner closer_not_mem_textFinders hcloser, hnext]
    simp
  · intro name hname
    have hbreak := newline_not_mem_finders name (List.mem_append_right _ hname)
    have hcloser := closer_not_mem_finders name hname
    have hnext : fits (nextCall finders) (')' :: '.' :: (name.toList ++ '(' :: b)) :=
      fits_nextCall.mpr ⟨name, hname, [], b, rfl, rfl⟩
    rw [classify_findCall name ha hb hbreak, ofRegion,
      opensCall_findInner closer_not_mem_textFinders hcloser,
      opensCall_findInner closer_not_mem_finders hcloser, hnext,
      fits_nextCall_textFinders hname]
    simp

/-- A search inside a search, with a call in the arguments of the region. -/
theorem Tag.classify_find_in_find :
    '\n' ∉ "Region(1).getX()".toList ∧ '\n' ∉ "Region(2).find(\"t\")".toList ∧
    Tag.classify (findCall "find" "Region(1).getX()".toList "Region(2).find(\"t\")".toList) =
      .regionMatch := by
  refine ⟨by decide, by decide, ?_⟩
  rw [(Tag.classify_find (by decide) (by decide)).2 "find" (by decide)]
  decide +kernel

/-- Characters that mean nothing to a scan may stand in front of a well-nested text. -/
theorem IsNested.append_free {escapes : Char → Bool} (front : Text) {t : Text}
    (hfront : front.all fun c => isFreeChar c && c != '/') (ht : IsNested escapes t) :
    IsNested escapes (front ++ t) := by
  induction front with
  | nil => exact ht
  | cons c front ih =>
    simp only [List.all_cons, Bool.and_eq_true, bne_iff_ne, ne_eq] at hfront
    exact .plain hfront.1.1 (fun hslash => absurd hslash hfront.1.2) (ih hfront.2)

/-- The arguments are well nested, and yet it is not the outermost call that decides. -/
theorem Tag.nested_text_search_decides :
    IsNested (fun _ => false) "0".toList ∧
    IsNested (fun _ => false) "Region(1).findText(\"t\")".toList ∧
    Tag.classify (findCall "find" "0".toList "Region(1).findText(\"t\")".toList) =
      .regionTextMatch := by
  refine ⟨?_, ?_, by decide +kernel⟩
  · exact .append_free "0".toList (by decide) .nil
  · have hliteral : IsNested (fun _ => false) "\"t\"".toList :=
      .literal (.plain (by decide) (by decide) .nil) .nil
    have hsearch : IsNested (fun _ => false) ".findText(\"t\")".toList :=
      .append_free ".findText".toList (by decide) (.group .round hliteral .nil)
    have hregion : IsNested (fun _ => false) ['1'] := .append_free ['1'] (by decide) .nil
    exact .append_free "Region".toList (by decide) (.group .round hregion hsearch)

end MacroScript
