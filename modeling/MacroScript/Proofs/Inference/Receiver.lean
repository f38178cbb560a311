import MacroScript.Proofs.Inference.FindCall
import MacroScript.Proofs.Inference.Literal
import Mathlib.Data.List.Nodup

/-!
# Naming a receiver

What a variable stands for is remembered as a tag, and a chain that starts with the variable is read
as if it started with the canonical expression of the tag. This is right as long as the tag tells
all that the rest of the chain can depend on: **two expressions with one tag can be continued by the
same text and still have one tag** (`Tag.ofShape_append_congr`). The shapes of literals end with
anything; those of calls end with a bracket, which can just as well be one of the continuation; and
in the two families the outermost brackets of the continued chain hold those of the receiver.

There is one exception. A map has the same tag with and without brackets, and its canonical
expression has none. A continuation that ends with a bracket turns `Map(…)` into a longer call, but
`Map` into a chain that has no shape (`Tag.ofShape_map_append`).
-/
namespace MacroScript

open Text

namespace Shape

/-! ## 1. Shapes that end with a bracket -/

/-- The shape ends with an argument list, and nothing in it reads all the rest of a text. A text
with such a shape ends with a bracket. -/
def isClosed (shape : Shape) : Bool :=
  shape.pieces.getLast? = some .call && !shape.pieces.contains .rest

/-- The shape ends with anything, as those of strings and numbers do. A text with such a shape has
it however it goes on. -/
def isOpenEnded (shape : Shape) : Bool :=
  shape.pieces.getLast? = some .rest && !shape.pieces.dropLast.contains .rest

theorem exists_of_isClosed {shape : Shape} (h : shape.isClosed) :
    ∃ front, .rest ∉ front ∧ shape.pieces = front ++ [.call] := by
  simp only [isClosed, Bool.and_eq_true, decide_eq_true_eq, Bool.not_eq_true',
    List.contains_eq_mem, decide_eq_false_iff_not] at h
  obtain ⟨front, hfront⟩ := List.getLast?_eq_some_iff.mp h.1
  rw [hfront, List.mem_append, not_or] at h
  exact ⟨front, h.2.1, hfront⟩

theorem exists_of_isOpenEnded {shape : Shape} (h : shape.isOpenEnded) :
    ∃ front, .rest ∉ front ∧ shape.pieces = front ++ [.rest] := by
  simp only [isOpenEnded, Bool.and_eq_true, decide_eq_true_eq, Bool.not_eq_true',
    List.contains_eq_mem, decide_eq_false_iff_not] at h
  obtain ⟨front, hfront⟩ := List.getLast?_eq_some_iff.mp h.1
  rw [hfront, List.dropLast_concat] at h
  exact ⟨front, h.2, hfront⟩

/-- All shapes of a family end with a bracket, or none does. So a chain that ends otherwise has no
shape of the family. -/
theorem isClosed_of_family : ∀ shape ∈ table, ∀ shape' ∈ table,
    family shape.tag = family shape'.tag → shape.isClosed → shape'.isClosed := by
  decide +kernel

/-- A closed shape does not end with its first word, so that its opening shows a character and does
not change as the text goes on. -/
theorem next_of_isClosed : ∀ shape ∈ table, shape.isClosed →
    ∀ opening ∈ openings shape.pieces, opening.next ≠ none := by
  decide

/-- The shapes by what they end with: a bracket, anything, or a single word. Booleans and maps are
told of on their own, the first since they are two words and the second since their brackets can be
left out. -/
theorem table_cases : ∀ shape ∈ table,
    shape.isClosed ∨ shape.isOpenEnded ∨ shape.pieces = bare shape.tag.canonical ∨
      shape.tag = .boolean ∨ shape.tag = .map := by
  decide

theorem family_of_isOpenEnded : ∀ shape ∈ table, shape.isOpenEnded →
    family shape.tag ≠ .regionValue ∧ family shape.tag ≠ .settingBuilder := by
  decide

theorem getLast?_of_isClosed {shape : Shape} (hclosed : shape.isClosed) {t : Text}
    (h : shape.accepts t) : t.getLast? = some ')' := by
  obtain ⟨front, hfront, hpieces⟩ := exists_of_isClosed hclosed
  rw [accepts, hpieces] at h
  exact getLast?_of_fits_call hfront h

/-- A closed shape accepts a longer text that ends with a bracket, with all that comes between among
the arguments. -/
theorem accepts_append_of_isClosed {shape : Shape} (hclosed : shape.isClosed) {t more : Text}
    (h : shape.accepts t) (hmore : '\n' ∉ more) : shape.accepts (t ++ (more ++ [')'])) := by
  obtain ⟨front, hfront, hpieces⟩ := exists_of_isClosed hclosed
  rw [accepts, hpieces] at h ⊢
  exact fits_call_append hfront h hmore

/-- An open-ended shape accepts any longer text. -/
theorem accepts_append_of_isOpenEnded {shape : Shape} (hopen : shape.isOpenEnded) {t : Text}
    (h : shape.accepts t) (more : Text) : shape.accepts (t ++ more) := by
  obtain ⟨front, hfront, hpieces⟩ := exists_of_isOpenEnded hopen
  rw [accepts, hpieces] at h ⊢
  obtain ⟨u, v, hu, -, rfl⟩ := (fits_append hfront).mp h
  exact (fits_append hfront).mpr ⟨u, v ++ more, hu, rfl, List.append_assoc ..⟩

theorem mem_table_boolean : ⟨[.oneOf ["true", "false"]], .boolean⟩ ∈ table := by
  decide

/-! ## 2. The shape of maps -/

/-- What every map starts with. -/
def mapFront : List Piece :=
  [.word "Map", .blanks]

theorem mem_table_map : ⟨mapFront ++ [.optionalCall], .map⟩ ∈ table := by
  decide

/-- Maps are a family of their own. -/
theorem eq_map_of_family : ∀ shape ∈ table, family shape.tag = .map →
    shape = ⟨mapFront ++ [.optionalCall], .map⟩ := by
  decide

theorem isOpenless_mapFront : mapFront.all Piece.isOpenless := by
  decide

/-- A map stands alone or has an argument list. -/
theorem fits_map {t : Text} :
    fits (mapFront ++ [.optionalCall]) t ↔ fits mapFront t ∨ fits (mapFront ++ [.call]) t := by
  have hfront := rest_not_mem_of_isOpenless isOpenless_mapFront
  rw [fits_append hfront, fits_append hfront]
  constructor
  · rintro ⟨u, v, hu, hv, rfl⟩
    rcases (fits_singleton (by simp)).mp hv with rfl | hcall
    · exact .inl (by rwa [List.append_nil])
    · exact .inr ⟨u, v, hu, (fits_singleton (by simp)).mpr hcall, rfl⟩
  · rintro (h | ⟨u, v, hu, hv, rfl⟩)
    · exact ⟨t, [], h, (fits_singleton (by simp)).mpr (.inl rfl), (List.append_nil t).symm⟩
    · have hcall := (fits_singleton (by simp)).mp hv
      exact ⟨u, v, hu, (fits_singleton (by simp)).mpr (.inr hcall), rfl⟩

/-- Without white space at its end a map without brackets is the word alone. -/
theorem eq_of_fits_mapFront {t : Text} (htrim : t.isTrimmed) (h : fits mapFront t) :
    t = "Map".toList := by
  obtain ⟨_, blanks, rfl, hblanks, rfl⟩ := (fits_cons (by simp)).mp h
  have hall : isAllBlank blanks := (fits_singleton (by simp)).mp hblanks
  obtain ⟨front, d, hconcat, hd⟩ := exists_last_of_isTrimmed htrim
  rcases List.eq_nil_or_concat' blanks with rfl | ⟨blanks, b, rfl⟩
  · simp
  · rw [← List.append_assoc] at hconcat
    obtain rfl : b = d := List.singleton_inj.mp (List.append_inj' hconcat rfl).2
    simp [isAllBlank, hd] at hall

end Shape

open Shape

namespace Tag

/-! ## 3. Texts with one tag -/

/-- A tag other than `any` is that of a row that accepts the text. -/
theorem exists_of_ofShape {t : Text} (h : ofShape table t ≠ .any) :
    ∃ shape ∈ table, shape.accepts t ∧ shape.tag = ofShape table t := by
  unfold ofShape at h ⊢
  split at h
  · next shape hshape =>
    have haccepts := List.find?_some (p := fun shape : Shape => shape.accepts t) hshape
    exact ⟨shape, List.mem_of_find?_eq_some hshape, haccepts, rfl⟩
  · contradiction

theorem ofShape_eq_any {t : Text} (h : ∀ shape ∈ table, ¬ shape.accepts t) :
    ofShape table t = .any := by
  by_contra hany
  obtain ⟨shape, hshape, haccepts, -⟩ := exists_of_ofShape hany
  exact h shape hshape haccepts

/-- No shape accepts a text that opens like none of them. -/
theorem ofShape_eq_any_of_opening {t : Text}
    (h : ∀ shape ∈ table, Opening.ofText t ∉ openings shape.pieces) : ofShape table t = .any :=
  ofShape_eq_any fun shape hshape haccepts => h shape hshape (ofText_mem_of_accepts hshape haccepts)

/-- A shape that is alone in its family decides: no other row accepts the text. -/
theorem ofShape_eq_tag {shape : Shape} (hshape : shape ∈ table)
    (hregion : family shape.tag ≠ .regionValue) (hsetting : family shape.tag ≠ .settingBuilder)
    {t : Text} (h : shape.accepts t) : ofShape table t = shape.tag := by
  rw [ofShape_of_accepts hshape h, length_family shape hshape hregion hsetting]
  simp [ofShape, h]

/-- A chain that starts with a call has to end with one. The opening is that of the call, so only
shapes of its family are left, and all of them are closed. -/
theorem ofShape_append_of_not_closed {shape : Shape} (hshape : shape ∈ table)
    (hclosed : shape.isClosed) {t : Text} (h : shape.accepts t) {more : Text}
    (hmore : (t ++ more).getLast? ≠ some ')') : ofShape table (t ++ more) = .any := by
  have hopening := ofText_mem_of_accepts hshape h
  have hnext := next_of_isClosed shape hshape hclosed _ hopening
  refine ofShape_eq_any fun shape' hshape' haccepts => ?_
  have hopening' := ofText_mem_of_accepts hshape' haccepts
  rw [Opening.ofText_append hnext] at hopening'
  have hfamily := family_of_openings shape hshape shape' hshape' _ hopening hopening'
  have hclosed' := isClosed_of_family shape hshape shape' hshape' hfamily hclosed
  exact hmore (getLast?_of_isClosed hclosed' haccepts)

theorem closer_not_mem_build : ∀ name ∈ ["build"], ')' ∉ name.toList := by
  decide

/-- **The tag of a region tells what its brackets open**, as far as the continued chain depends on
it. -/
theorem ofRegion_append_congr {inner inner' : Text} (h : ofRegion inner = ofRegion inner')
    (more : Text) : ofRegion (inner ++ ')' :: more) = ofRegion (inner' ++ ')' :: more) := by
  unfold ofRegion at h ⊢
  rw [opensCall_append_closer closer_not_mem_textFinders,
    opensCall_append_closer closer_not_mem_textFinders,
    opensCall_append_closer closer_not_mem_finders,
    opensCall_append_closer closer_not_mem_finders]
  revert h
  generalize opensCall textFinders inner = text, opensCall textFinders inner' = text',
    opensCall finders inner = find, opensCall finders inner' = find'
  cases text <;> cases text' <;> cases find <;> cases find' <;> simp

/-- The same of the builder of settings. -/
theorem ofSetting_append_congr {inner inner' : Text} (h : ofSetting inner = ofSetting inner')
    (more : Text) : ofSetting (inner ++ ')' :: more) = ofSetting (inner' ++ ')' :: more) := by
  unfold ofSetting at h ⊢
  rw [opensCall_append_closer closer_not_mem_build, opensCall_append_closer closer_not_mem_build]
  revert h
  generalize opensCall ["build"] inner = build, opensCall ["build"] inner' = build'
  cases build <;> cases build' <;> simp

/-- Two texts of a closed shape with one tag have one tag when they go on to another bracket. In the
two families this is told by the outermost brackets, which take in the continuation; elsewhere the
shape is the only one. -/
theorem ofShape_append_closed_congr {shape : Shape} (hshape : shape ∈ table)
    (hclosed : shape.isClosed) {t t' : Text} (ht : '\n' ∉ t) (ht' : '\n' ∉ t')
    (h : shape.accepts t) (h' : shape.accepts t') (heq : ofShape table t = ofShape table t')
    {more : Text} (hmore : '\n' ∉ more) :
    ofShape table (t ++ (more ++ [')'])) = ofShape table (t' ++ (more ++ [')'])) := by
  have hlonger (name inner : Text) : name ++ '(' :: (inner ++ [')']) ++ (more ++ [')']) =
      name ++ '(' :: ((inner ++ ')' :: more) ++ [')']) := by simp
  by_cases hregion : family shape.tag = .regionValue
  · obtain ⟨name, inner, hname, hinner, rfl⟩ :=
      exists_of_fits_call isOpenless_regionFront (fits_region_of_accepts hshape hregion ht h)
    obtain ⟨name', inner', hname', hinner', rfl⟩ :=
      exists_of_fits_call isOpenless_regionFront (fits_region_of_accepts hshape hregion ht' h')
    rw [ofShape_region hname hinner, ofShape_region hname' hinner'] at heq
    rw [hlonger, hlonger, ofShape_region hname (by simp [hinner, hmore]),
      ofShape_region hname' (by simp [hinner', hmore]), ofRegion_append_congr heq]
  · by_cases hsetting : family shape.tag = .settingBuilder
    · obtain ⟨name, inner, hname, hinner, rfl⟩ :=
        exists_of_fits_call isOpenless_settingFront (fits_setting_of_accepts hshape hsetting ht h)
      obtain ⟨name', inner', hname', hinner', rfl⟩ :=
        exists_of_fits_call isOpenless_settingFront (fits_setting_of_accepts hshape hsetting ht' h')
      rw [ofShape_setting hname hinner, ofShape_setting hname' hinner'] at heq
      rw [hlonger, hlonger, ofShape_setting hname (by simp [hinner, hmore]),
        ofShape_setting hname' (by simp [hinner', hmore]), ofSetting_append_congr heq]
    · rw [ofShape_eq_tag hshape hregion hsetting (accepts_append_of_isClosed hclosed h hmore),
        ofShape_eq_tag hshape hregion hsetting (accepts_append_of_isClosed hclosed h' hmore)]

/-- No two rows have one tag. -/
theorem eq_of_tag_eq {shape shape' : Shape} (hshape : shape ∈ table) (hshape' : shape' ∈ table)
    (h : shape.tag = shape'.tag) : shape = shape' :=
  List.inj_on_of_nodup_map nodup_tags hshape hshape' h

/-- Three words have no point after them in any shape: no row opens with the word and a point. -/
theorem ofShape_word_point {w : String} (hw : w ∈ ["true", "false", "Map"]) (rest : Text) :
    ofShape table (w.toList ++ '.' :: rest) = .any := by
  have hletters : ∀ w ∈ ["true", "false", "Map"], w.toList.all Char.isAlpha := by decide
  have hnone : ∀ w ∈ ["true", "false", "Map"], ∀ shape ∈ table,
      ⟨w.toList, some '.'⟩ ∉ openings shape.pieces := by decide
  have hpoint : Opening.nextOf ('.' :: rest) = some '.' := rfl
  have hother : ∀ c ∈ Opening.nextOf ('.' :: rest), c.isAlpha = false := by
    rw [hpoint]
    rintro c ⟨⟩
    decide
  have hopening : Opening.ofText (w.toList ++ '.' :: rest) = ⟨w.toList, some '.'⟩ := by
    rw [Opening.ofText_word (List.all_eq_true.mp (hletters w hw)) hother, hpoint]
  exact ofShape_eq_any_of_opening (hopening ▸ hnone w hw)

/-- A text with the tag of a row is accepted by the row. -/
theorem accepts_of_ofShape {shape : Shape} (hshape : shape ∈ table) {t : Text}
    (hany : shape.tag ≠ .any) (h : ofShape table t = shape.tag) : shape.accepts t := by
  obtain ⟨shape', hshape', haccepts, htag⟩ := exists_of_ofShape (h ▸ hany)
  rwa [eq_of_tag_eq hshape hshape' (by rw [htag, h])]

/-- A boolean has no members. -/
theorem ofShape_boolean_append {t : Text} (h : ofShape table t = .boolean) (rest : Text) :
    ofShape table (t ++ '.' :: rest) = .any := by
  have haccepts := accepts_of_ofShape mem_table_boolean (by decide) h
  obtain ⟨w, hw, rfl⟩ := (fits_singleton (by simp)).mp haccepts
  refine ofShape_word_point ?_ rest
  simp only [List.mem_cons, List.not_mem_nil, or_false] at hw ⊢
  exact hw.elim .inl fun h => .inr (.inl h)

theorem getLast?_append_point (t rest : Text) :
    (t ++ '.' :: rest).getLast? = ('.' :: rest).getLast? := by
  rw [List.getLast?_append_cons]

theorem newline_not_mem_of_concat {rest more : Text} {c : Char} (h : '.' :: rest = more ++ [c])
    (hrest : '\n' ∉ rest) : '\n' ∉ more := by
  intro hmem
  have hpoint : '\n' ∈ '.' :: rest := h ▸ List.mem_append_left _ hmem
  simp [hrest] at hpoint

/-- **What can follow an expression depends on its tag only**, unless it is that of maps. The two
expressions are accepted by one row, and the row is gone through by how it ends. -/
theorem ofShape_append_congr {t t' : Text} (ht : '\n' ∉ t) (ht' : '\n' ∉ t')
    (h : ofShape table t = ofShape table t') (hany : ofShape table t ≠ .any)
    (hmap : ofShape table t ≠ .map) {rest : Text} (hrest : '\n' ∉ rest) :
    ofShape table (t ++ '.' :: rest) = ofShape table (t' ++ '.' :: rest) := by
  obtain ⟨shape, hshape, haccepts, htag⟩ := exists_of_ofShape hany
  obtain ⟨shape', hshape', haccepts', htag'⟩ := exists_of_ofShape (h ▸ hany)
  obtain rfl : shape = shape' := eq_of_tag_eq hshape hshape' (by rw [htag, htag', h])
  rcases table_cases shape hshape with hclosed | hopen | hbare | hboolean | hmaps
  · by_cases hlast : ('.' :: rest).getLast? = some ')'
    · obtain ⟨more, hmore⟩ := List.getLast?_eq_some_iff.mp hlast
      have hbreak := newline_not_mem_of_concat hmore hrest
      rw [hmore]
      exact ofShape_append_closed_congr hshape hclosed ht ht' haccepts haccepts' h hbreak
    · rw [ofShape_append_of_not_closed hshape hclosed haccepts (by rwa [getLast?_append_point]),
        ofShape_append_of_not_closed hshape hclosed haccepts' (by rwa [getLast?_append_point])]
  · obtain ⟨hregion, hsetting⟩ := family_of_isOpenEnded shape hshape hopen
    rw [ofShape_eq_tag hshape hregion hsetting (accepts_append_of_isOpenEnded hopen haccepts _),
      ofShape_eq_tag hshape hregion hsetting (accepts_append_of_isOpenEnded hopen haccepts' _)]
  · rw [accepts, hbare] at haccepts haccepts'
    obtain rfl : t = _ := (fits_singleton (by simp)).mp haccepts
    obtain rfl : t' = _ := (fits_singleton (by simp)).mp haccepts'
    rfl
  · rw [ofShape_boolean_append (by rw [← htag, hboolean]),
      ofShape_boolean_append (by rw [← htag', hboolean])]
  · exact absurd (htag ▸ hmaps) hmap

/-- A map with brackets is continued to a longer one or to nothing. It ends with a bracket in the
first case and not in the second. -/
theorem ofShape_mapCall_append {t : Text} (h : fits (mapFront ++ [.call]) t) {rest : Text}
    (hrest : '\n' ∉ rest) :
    ofShape table (t ++ '.' :: rest) =
      if ('.' :: rest).getLast? = some ')' then .map else .any := by
  have hfront := rest_not_mem_of_isOpenless isOpenless_mapFront
  split
  · next hlast =>
    obtain ⟨more, hmore⟩ := List.getLast?_eq_some_iff.mp hlast
    have hbreak : '\n' ∉ more := newline_not_mem_of_concat hmore hrest
    have hlonger := fits_map.mpr (.inr (fits_call_append hfront h hbreak))
    rw [hmore]
    exact ofShape_eq_tag mem_table_map (by decide) (by decide) hlonger
  · next hlast =>
    have hopening : Opening.ofText t = ⟨"Map".toList, some '('⟩ :=
      List.mem_singleton.mp (ofText_mem_openings (by decide) h)
    refine ofShape_eq_any fun shape hshape haccepts => ?_
    -- a shape that goes on like this one is the shape of maps
    have hopening' := ofText_mem_of_accepts hshape haccepts
    rw [Opening.ofText_append (by simp [hopening]), hopening] at hopening'
    have hfamily := family_of_openings _ mem_table_map shape hshape _ (by decide) hopening'
    obtain rfl := eq_map_of_family shape hshape hfamily.symm
    rcases fits_map.mp haccepts with hbare | hcall
    · obtain ⟨name, inner, -, -, rfl⟩ := exists_of_fits_call isOpenless_mapFront h
      exact opener_not_mem_of_fits isOpenless_mapFront hbare (by simp)
    · rw [← getLast?_append_point t] at hlast
      exact hlast (getLast?_of_fits_call hfront hcall)

/-- **A map with and without brackets.** Only if it has some it can be continued, by what ends with
a bracket. -/
theorem ofShape_map_append {t : Text} (htrim : t.isTrimmed) (h : ofShape table t = .map)
    {rest : Text} (hrest : '\n' ∉ rest) :
    ofShape table (t ++ '.' :: rest) =
      if t ≠ "Map".toList ∧ ('.' :: rest).getLast? = some ')' then .map else .any := by
  rcases fits_map.mp (accepts_of_ofShape mem_table_map (by decide) h) with hbare | hcall
  · obtain rfl := eq_of_fits_mapFront htrim hbare
    rw [if_neg (by simp), ofShape_word_point (by decide)]
  · have hne : t ≠ "Map".toList := by
      rintro rfl
      exact absurd hcall (by decide)
    rw [ofShape_mapCall_append hcall hrest]
    simp only [ne_eq, hne, not_false_eq_true, true_and]

end Tag

/-! ## 4. Chains -/

namespace Text

/-- The text without white space and semicolons at its end. An expression is stripped so, and at its
start of white space as well. -/
def stripEnd (t : Text) : Text :=
  trimEnd (dropEndWhile (· == ';') (trimEnd t))

theorem expression_eq_stripEnd (t : Text) : expression t = stripEnd (trimStart t) := rfl

/-- A point is not stripped, nor is what stands before it. -/
theorem stripEnd_append_point (front t : Text) :
    stripEnd (front ++ '.' :: t) = front ++ '.' :: stripEnd t := by
  simp only [stripEnd, trimEnd]
  rw [dropEndWhile_append_cons (by decide), dropEndWhile_append_cons (by decide),
    dropEndWhile_append_cons (by decide)]

/-- Of a front part, a front part is left. It is the whole of it unless all that follows is dropped.
-/
theorem exists_dropEndWhile_append (p : Char → Bool) (front t : Text) :
    ∃ front', front' <+: front ∧ dropEndWhile p (front ++ t) = front' ++ dropEndWhile p t := by
  rw [dropEndWhile_append]
  split
  · next hempty =>
    refine ⟨dropEndWhile p front, List.rdropWhile_prefix p front, ?_⟩
    rw [List.isEmpty_iff.mp hempty, List.append_nil]
  · exact ⟨front, List.prefix_refl front, rfl⟩

/-- An expression is its text without what stands at its end and without white space before it. (The
order of the two matters for a text of white space only, and there both leave nothing but white
space.) -/
theorem exists_stripEnd (t : Text) :
    ∃ blanks, isAllBlank blanks ∧ stripEnd t = blanks ++ expression t := by
  obtain ⟨b₁, hb₁, h₁⟩ : ∃ b₁, b₁ <+: t.takeWhile isBlank ∧
      trimEnd (t.takeWhile isBlank ++ trimStart t) = b₁ ++ trim t :=
    exists_dropEndWhile_append isBlank _ _
  obtain ⟨b₂, hb₂, h₂⟩ := exists_dropEndWhile_append (· == ';') b₁ (trim t)
  obtain ⟨b₃, hb₃, h₃⟩ : ∃ b₃, b₃ <+: b₂ ∧
      trimEnd (b₂ ++ dropEndWhile (· == ';') (trim t)) = b₃ ++ expression t :=
    exists_dropEndWhile_append isBlank _ _
  have hsplit : t.takeWhile isBlank ++ trimStart t = t := List.takeWhile_append_dropWhile
  rw [hsplit] at h₁
  refine ⟨b₃, List.all_eq_true.mpr fun c hc => ?_, by rw [stripEnd, h₁, h₂, h₃]⟩
  exact List.mem_takeWhile_imp (hb₁.subset (hb₂.subset (hb₃.subset hc)))

/-- A chain is stripped behind its point only, since the receiver starts with no white space. -/
theorem expression_append_point {front : Text} (hfront : front.isTrimmed) (t : Text) :
    expression (front ++ '.' :: t) = front ++ '.' :: stripEnd t := by
  obtain ⟨c, cs, rfl, hc⟩ := exists_head_of_isTrimmed hfront
  have hstart : trimStart (c :: cs ++ '.' :: t) = c :: cs ++ '.' :: t := by
    simpa using @trimStart_append [] rfl c hc (cs ++ '.' :: t)
  rw [expression_eq_stripEnd, hstart, stripEnd_append_point]

/-- Whether a chain ends with a bracket is told by the expression after its point. -/
theorem getLast?_point_stripEnd (t : Text) :
    ('.' :: stripEnd t).getLast? = some ')' ↔ (expression t).getLast? = some ')' := by
  obtain ⟨blanks, hblanks, hstrip⟩ := exists_stripEnd t
  rw [hstrip, ← List.cons_append, List.getLast?_append]
  cases hlast : (expression t).getLast? with
  | some c => simp
  | none =>
    simp only [Option.none_or, reduceCtorEq, iff_false]
    intro hmem
    rcases List.mem_cons.mp (List.mem_of_getLast? hmem) with hpoint | hmem
    · exact absurd hpoint (by decide)
    · exact absurd (List.all_eq_true.mp hblanks _ hmem) (by decide)

theorem stripEnd_isPrefix (t : Text) : stripEnd t <+: t :=
  ((List.rdropWhile_prefix _ _).trans (List.rdropWhile_prefix _ _)).trans
    (List.rdropWhile_prefix _ _)

end Text

/-! ## 5. Known names at the start of a chain -/

/-- What stands before a text matters to its cuts by the word at its end only, which decides whether
a point is one of a number. -/
theorem splitFrom_congr {sep : Char} {before before' : Text}
    (h : before'.takeWhile isAsciiNameChar = before.takeWhile isAsciiNameChar) (depth : Int)
    (q : Quoting) (t : Text) :
    splitFrom sep depth q before' t = splitFrom sep depth q before t := by
  induction t generalizing depth q before before' with
  | nil => cases q <;> rfl
  | cons c cs ih =>
    have hnext : (c :: before').takeWhile isAsciiNameChar =
        (c :: before).takeWhile isAsciiNameChar := by
      rw [List.takeWhile_cons, List.takeWhile_cons, h]
    cases q with
    | outside =>
      have hcut : isCut sep depth before' c cs = isCut sep depth before c cs := by
        rw [isCut, isCut, isPointOfNumber_congr h rfl]
      simp only [splitFrom, hcut, ih hnext]
    | inside quote e => rw [splitFrom, splitFrom, ih hnext]

theorem isQuote_of_isBlank_or_isNameChar {c : Char} (h : isBlank c ∨ isNameChar c) :
    isQuote c = false :=
  h.elim isQuote_of_isBlank isQuote_of_isNameChar

/-- White space and the characters of names are in the part that follows: no literal, no bracket and
no cut starts with one. -/
theorem splitFrom_cons_plain {c : Char} (h : isBlank c ∨ isNameChar c) (before t : Text) :
    splitFrom '.' 0 .outside before (c :: t) =
      (splitFrom '.' 0 .outside (c :: before) t).modifyHead (List.cons c) := by
  have hnext : Quoting.outside.next isQuote c = .outside := by
    simp [Quoting.next, isQuote_of_isBlank_or_isNameChar h]
  have hcut : isCut '.' 0 before c t = false := by
    rw [← Bool.not_eq_true]
    intro hcut
    rw [eq_of_isCut hcut] at h
    exact absurd h (by decide)
  rw [splitFrom, hnext, bracketStep_of_isBlank_or_isNameChar h, hcut]
  rfl

/-- **A name before a point is a part of its own**, unless the point is one of a number. The
induction is on the name, with what stands before it left open. -/
theorem splitFrom_name_point {name : Text} (hname : ∀ c ∈ name, isNameChar c) {before t : Text}
    (hpoint : isPointOfNumber (name.reverse ++ before) t = false) :
    splitFrom '.' 0 .outside before (name ++ '.' :: t) =
      name :: splitFrom '.' 0 .outside ('.' :: (name.reverse ++ before)) t := by
  induction name generalizing before with
  | nil =>
    have hcut : isCut '.' 0 before '.' t = true := by
      rw [List.reverse_nil, List.nil_append] at hpoint
      simp [isCut, hpoint]
      decide
    rw [List.nil_append, splitFrom, hcut]
    rfl
  | cons c name ih =>
    rw [List.reverse_cons, List.append_assoc, List.singleton_append] at hpoint ⊢
    rw [List.cons_append, splitFrom_cons_plain (.inr (hname c List.mem_cons_self)),
      ih (fun d hd => hname d (List.mem_cons_of_mem _ hd)) hpoint]
    rfl

/-- No point after a name is one of a number, since a name starts with no digit. -/
theorem isPointOfNumber_name {name : Text} (h : name.isAsciiName) (t : Text) :
    isPointOfNumber name.reverse t = false := by
  cases name with
  | nil => contradiction
  | cons c name =>
    have hword : (c :: name).reverse.takeWhile isAsciiNameChar = (c :: name).reverse :=
      List.takeWhile_eq_self_iff.mpr fun d hd =>
        isAsciiNameChar_of_isAsciiName h d (List.mem_reverse.mp hd)
    have hletter : c.isDigit = false := by
      have hc := isAsciiNameChar_of_isAsciiName h c List.mem_cons_self
      have hdigit := forall_of_isAsciiNameChar
        (p := fun c => !(c.isAlpha || c == '_') || !c.isDigit) (by decide +kernel) hc
      rw [Text.isAsciiName, Bool.and_eq_true] at h
      simpa [h.1] using hdigit
    rw [isPointOfNumber, hword]
    simp [hletter]

namespace Names

/-- The parts without their places: the segments are put in, and the parts are joined with points
again. -/
theorem substitute_eq (names : Names) (t : Text) :
    names.substitute t =
      List.intercalate ['.'] ((splitFrom '.' 0 .outside [] (expression t)).map names.segment) := by
  rw [substitute, ← map_snd_locateParts '.' 0 (splitFrom '.' 0 .outside [] (expression t)),
    List.map_map]
  rfl

/-- White space before the first part does not count, as each segment is trimmed. -/
theorem map_segment_splitFrom (names : Names) {blanks : Text} (hblanks : isAllBlank blanks)
    {before : Text} (hbefore : before.takeWhile isAsciiNameChar = []) (t : Text) :
    (splitFrom '.' 0 .outside before (blanks ++ t)).map names.segment =
      (splitFrom '.' 0 .outside [] t).map names.segment := by
  induction blanks generalizing before with
  | nil => rw [List.nil_append, splitFrom_congr (hbefore.trans List.takeWhile_nil.symm)]
  | cons b blanks ih =>
    rw [isAllBlank, List.all_cons, Bool.and_eq_true] at hblanks
    have hword : isAsciiNameChar b = false := by
      have hnot := forall_of_isBlank (p := fun c => !isAsciiNameChar c) (by decide +kernel)
        (by decide +kernel) hblanks.1
      simpa using hnot
    have hhead : (b :: before).takeWhile isAsciiNameChar = [] := by simp [hword]
    have hne := splitFrom_ne_nil '.' 0 .outside (b :: before) (blanks ++ t)
    have hrest := ih hblanks.2 hhead
    rw [List.cons_append, splitFrom_cons_plain (.inl hblanks.1), ← hrest]
    cases hparts : splitFrom '.' 0 .outside (b :: before) (blanks ++ t) with
    | nil => exact absurd hparts hne
    | cons part parts =>
      have htrim : trim (b :: part) = trim part := by
        rw [trim, trimStart, List.dropWhile_cons_of_pos hblanks.1, trim, trimStart]
      rw [List.modifyHead_cons, List.map_cons, List.map_cons, segment, segment, htrim]

/-- **A known name at the start of a chain becomes the canonical expression of its tag**, and the
rest of the chain is read on its own. -/
theorem substitute_name_point {names : Names} {x : Text} (hx : x.isAsciiName) {tag : Tag}
    (hknown : names x = some tag) (htag : tag ≠ .any) (rest : Text) :
    names.substitute (x ++ '.' :: rest) = tag.canonical.toList ++ '.' :: names.substitute rest := by
  have hchars := isAsciiNameChar_of_isAsciiName hx
  have htrim : x.isTrimmed :=
    isTrimmed_of_forall (ne_nil_of_isAsciiName hx) fun c hc =>
      isBlank_of_isAsciiNameChar (hchars c hc)
  obtain ⟨blanks, hblanks, hstrip⟩ := exists_stripEnd rest
  have hpoint : isPointOfNumber (x.reverse ++ []) (blanks ++ expression rest) = false := by
    rw [List.append_nil, isPointOfNumber_name hx]
  rw [substitute_eq, expression_append_point htrim, hstrip,
    splitFrom_name_point (fun c hc => isNameChar_of_isAsciiNameChar (hchars c hc)) hpoint,
    List.map_cons, segment_known htrim hknown htag, map_segment_splitFrom names hblanks rfl,
    substitute_eq]
  rw [List.intercalate_cons_of_ne_nil (by simpa using splitFrom_ne_nil _ _ _ _ _)]
  simp

end Names

/-- A character of joined parts is one of the separator or of a part. -/
theorem Text.mem_intercalate {sep : Text} {parts : List Text} {c : Char}
    (h : c ∈ List.intercalate sep parts) : c ∈ sep ∨ ∃ part ∈ parts, c ∈ part := by
  induction parts with
  | nil => simp at h
  | cons part parts ih =>
    cases parts with
    | nil => exact .inr ⟨part, List.mem_cons_self, by simpa using h⟩
    | cons next parts =>
      rw [List.intercalate_cons_cons, List.append_assoc, List.mem_append, List.mem_append] at h
      rcases h with h | h | h
      · exact .inr ⟨part, List.mem_cons_self, h⟩
      · exact .inl h
      · rcases ih h with h | ⟨part', hpart', h⟩
        · exact .inl h
        · exact .inr ⟨part', List.mem_cons_of_mem _ hpart', h⟩

theorem Text.subset_intercalate {sep : Text} {parts : List Text} {part : Text} (h : part ∈ parts) :
    part ⊆ List.intercalate sep parts := by
  induction parts with
  | nil => simp at h
  | cons first parts ih =>
    cases parts with
    | nil => simp [List.mem_singleton.mp h]
    | cons next parts =>
      rw [List.intercalate_cons_cons, List.append_assoc]
      rcases List.mem_cons.mp h with rfl | h
      · exact List.subset_append_left _ _
      · exact List.subset_append_of_subset_right _ (List.subset_append_of_subset_right _ (ih h))

/-- No line break comes in with known names, since no canonical expression has one. -/
theorem Names.newline_not_mem_substitute (names : Names) {t : Text} (h : '\n' ∉ t) :
    '\n' ∉ names.substitute t := by
  rw [substitute_eq]
  intro hmem
  rcases mem_intercalate hmem with hmem | ⟨segment, hsegment, hmem⟩
  · exact absurd hmem (by decide)
  · obtain ⟨part, hpart, rfl⟩ := List.mem_map.mp hsegment
    have hsubset : part ⊆ List.intercalate ['.'] (splitFrom '.' 0 .outside [] (expression t)) :=
      subset_intercalate hpart
    rw [intercalate_splitFrom] at hsubset
    rcases names.segment_cases part with heq | ⟨tag, heq⟩
    · rw [heq] at hmem
      exact h (expression_subset t (hsubset (trim_subset part hmem)))
    · rw [heq] at hmem
      exact absurd hmem (by cases tag <;> decide)

/-! ## 6. Naming a receiver -/

namespace Tag

/-- The expression is a map with brackets, and the chain goes on to another bracket. The canonical
expression of maps has no brackets, and so this is lost on it. -/
def ContinuesMapCall (e rest : Text) : Prop :=
  classify e = .map ∧ e ≠ "Map".toList ∧ (expression rest).getLast? = some ')'

/-- A canonical expression stands on one line and is an expression as it stands. -/
theorem canonical_facts (tag : Tag) :
    '\n' ∉ tag.canonical.toList ∧ isTrimmed tag.canonical.toList ∧
      tag.canonical.toList.getLast? ≠ some ';' := by
  cases tag <;> decide

/-- **The tag of an expression tells all that the rest of a chain depends on**, but for maps with
brackets. For those the two sides differ, which makes it an equivalence. -/
theorem classify_append_point_iff {e : Text} (he : e.isTrimmed) (hbreak : '\n' ∉ e)
    (hsemicolon : e.getLast? ≠ some ';') (hany : classify e ≠ .any) {rest : Text}
    (hrest : '\n' ∉ rest) :
    classify (e ++ '.' :: rest) = classify ((classify e).canonical.toList ++ '.' :: rest) ↔
      ¬ ContinuesMapCall e rest := by
  obtain ⟨hbreak', htrim', hsemicolon'⟩ := (classify e).canonical_facts
  have hself : classify e = ofShape table e := by
    rw [classify, expression_of_isTrimmed he hsemicolon]
  have hcanonical : ofShape table (classify e).canonical.toList = classify e := by
    have hclassify := classify_canonical hany
    rwa [classify, expression_of_isTrimmed htrim' hsemicolon'] at hclassify
  have hstrip : '\n' ∉ stripEnd rest := fun hmem => hrest ((stripEnd_isPrefix rest).subset hmem)
  rw [classify, classify, expression_append_point he, expression_append_point htrim']
  by_cases hmap : classify e = .map
  · have hword : ofShape table (Tag.map.canonical.toList ++ '.' :: stripEnd rest) = .any :=
      ofShape_word_point (by decide) _
    rw [ofShape_map_append he (hself ▸ hmap) hstrip, hmap, hword]
    simp [ContinuesMapCall, getLast?_point_stripEnd, hmap]
  · refine iff_of_true ?_ fun h => hmap h.1
    exact ofShape_append_congr hbreak hbreak' (hself.symm.trans hcanonical.symm) (hself ▸ hany)
      (hself ▸ hmap) hstrip

/-- **A name stands for its expression in a chain.** The tag of an expression that is continued is
the tag of the canonical expression that is continued in the same way, unless the expression is a
map with brackets and the chain goes on to another bracket. So a chain that starts with a name is
typed like the chain that starts with the expression that the name has its tag from, with that
exception. -/
theorem receiver_stands_for_expression {e : Text} (he : e.isTrimmed) (hbreak : '\n' ∉ e)
    (hsemicolon : e.getLast? ≠ some ';') (hany : classify e ≠ .any) {rest : Text}
    (hrest : '\n' ∉ rest) :
    (classify (e ++ '.' :: rest) = classify ((classify e).canonical.toList ++ '.' :: rest) ↔
      ¬ ContinuesMapCall e rest) ∧
    ∀ (names : Names) (x : Text), x.isAsciiName → names x = some (classify e) →
      (names.infer (x ++ '.' :: rest) = classify (e ++ '.' :: names.substitute rest) ↔
        ¬ ContinuesMapCall e (names.substitute rest)) := by
  refine ⟨classify_append_point_iff he hbreak hsemicolon hany hrest, fun names x hx hknown => ?_⟩
  rw [Names.infer, Names.substitute_name_point hx hknown hany, eq_comm]
  exact classify_append_point_iff he hbreak hsemicolon hany (names.newline_not_mem_substitute hrest)

/-- A region by its name and in place, searched for a text. -/
theorem region_receiver_by_name :
    classify "Region(0, 0)".toList = .regionValue ∧
    classify ("Region(0, 0)".toList ++ '.' :: "findText(\"t\")".toList) =
      classify (Tag.regionValue.canonical.toList ++ '.' :: "findText(\"t\")".toList) ∧
    Names.infer (fun x => if x = "r".toList then some .regionValue else none)
        ("r".toList ++ '.' :: "findText(\"t\")".toList) = .regionTextMatch := by
  have htag : classify "Region(0, 0)".toList = .regionValue := by decide +kernel
  have hother (rest : Text) : ¬ ContinuesMapCall "Region(0, 0)".toList rest := by
    rintro ⟨hmap, -⟩
    rw [htag] at hmap
    contradiction
  obtain ⟨hinline, hnamed⟩ := @receiver_stands_for_expression "Region(0, 0)".toList (by decide)
    (by decide) (by decide) (by decide +kernel) "findText(\"t\")".toList (by decide)
  have hchain := (hnamed (fun x => if x = "r".toList then some .regionValue else none) "r".toList
    (by decide) (by decide +kernel)).mpr (hother _)
  refine ⟨htag, htag ▸ hinline.mpr (hother _), ?_⟩
  rw [hchain]
  decide +kernel

/-- A map is written with brackets, and its tag forgets them. -/
theorem map_receiver_loses_brackets :
    classify "Map(1)".toList = .map ∧
    classify ("Map(1)".toList ++ '.' :: "get(2)".toList) = .map ∧
    classify (Tag.map.canonical.toList ++ '.' :: "get(2)".toList) = .any := by
  decide +kernel

end Tag

end MacroScript
