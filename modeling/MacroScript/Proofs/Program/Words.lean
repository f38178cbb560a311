import MacroScript.Analysis
import MacroScript.Proofs.Program.Copy
import MacroScript.Proofs.Program.Form

/-!
# The words and the ends of program lines

Some rules look at a line without regard to its form: at the words that other languages have, at
names that are assigned to themselves, at operators and quotes, and at the end of the line. For each
word of a line of a program it can be said once why nothing is wrong with it (`IsProper`). **Every
word of a program line is proper** (`Form.wordsProper`), and then these rules find nothing.
-/
namespace MacroScript

/-! ## 1. Proper words -/

/-- The words of other languages that are reported wherever they stand, in any line. -/
def foreignWords : List Text :=
  ["let", "const", "function"].map String.toList

/-- Nothing can be said against a word with `back` after it in its line: it is no word of another
language, a `var` has a name after it, and the word is not assigned to itself. -/
structure IsProper (w : Word) (back : List Piece) : Prop where
  isOwn : w.text ∉ foreignWords
  named : w.text = "var".toList → ∃ x more, back = .space :: .name x :: more
  changes : ∀ v, copied? back = some v → w.text ≠ v.text

/-- Every word among the pieces is proper, with what comes after it. -/
def WordsProper : List Piece → Prop
  | [] => True
  | .name w :: back => IsProper w back ∧ WordsProper back
  | _ :: back => WordsProper back

/-- So is any word that is picked out of the line. -/
theorem WordsProper.of_append {front : List Piece} {w : Word} {back : List Piece}
    (h : WordsProper (front ++ .name w :: back)) : IsProper w back := by
  induction front with
  | nil => exact h.1
  | cons p front ih =>
    cases p with
    | name => exact ih h.2
    | space | number | sign | mark | literal => exact ih h

theorem Identifier.not_mem_foreignWords (x : Identifier) : x.text ∉ foreignWords := by
  intro h
  have hsub : ∀ word ∈ foreignWords, word ∈ reservedWords := by decide
  exact x.isFree (hsub _ h)

/-- An identifier is proper where no other word is assigned to it. It is not reserved, and so no
word of another language and no `var`. -/
theorem isProper_identifier (x : Identifier) {back : List Piece} (hcopy : copied? back = none) :
    IsProper x.toWord back where
  isOwn := x.not_mem_foreignWords
  named := fun hvar => absurd hvar (x.ne_of_mem (by decide))
  changes := fun v hv => by rw [hcopy] at hv; contradiction

/-- A keyword is proper where nothing is assigned to it, and `var` where a name comes after it. -/
theorem isProper_keyword {w : Word} {back : List Piece} (hown : w.text ∉ foreignWords)
    (hcopy : copied? back = none)
    (hnamed : w.text ≠ "var".toList ∨ ∃ x more, back = .space :: .name x :: more) :
    IsProper w back where
  isOwn := hown
  named := fun hvar => hnamed.resolve_left fun hne => hne hvar
  changes := fun v hv => by rw [hcopy] at hv; contradiction

/-- The words that a value can be are `true`, `false` and `null`. -/
theorem wordsProper_value (v : Value) : WordsProper (v.pieces ++ [.mark .semicolon]) := by
  have hkeyword {w : Word} (hown : w.text ∉ foreignWords) (hvar : w.text ≠ "var".toList) :
      WordsProper [.name w, .mark .semicolon] :=
    ⟨isProper_keyword hown rfl (.inl hvar), trivial⟩
  cases v with
  | boolean b => cases b <;> exact hkeyword (by decide) (by decide)
  | null => exact hkeyword (by decide) (by decide)
  | number | emptyList | string => trivial

/-- What is assigned to an identifier is another word, if it is a word at all: it is a reserved one.
-/
theorem isProper_assigned (x : Identifier) (v : Value) :
    IsProper x.toWord (.space :: .sign .assign :: .space :: (v.pieces ++ [.mark .semicolon])) := by
  refine ⟨x.not_mem_foreignWords, fun hvar => absurd hvar (x.ne_of_mem (by decide)), fun w hw => ?_⟩
  have hreserved : w.text ∈ reservedWords := by
    cases v with
    | boolean b =>
      cases b with
      | false =>
        obtain rfl : (⟨"false".toList, by decide⟩ : Word) = w := Option.some.inj hw
        decide
      | true =>
        obtain rfl : (⟨"true".toList, by decide⟩ : Word) = w := Option.some.inj hw
        decide
    | null =>
      obtain rfl : (⟨"null".toList, by decide⟩ : Word) = w := Option.some.inj hw
      decide
    | number | emptyList | string => exact absurd hw (by simp [copied?, dropSpaces, Value.pieces])
  exact x.ne_of_mem hreserved

theorem wordsProper_condition (c : Condition) {back : List Piece} (hback : WordsProper back) :
    WordsProper (c.pieces ++ back) :=
  ⟨isProper_identifier c.left rfl, hback⟩

theorem wordsProper_parameters (xs : List Identifier) :
    WordsProper (parameterPieces xs ++ blockPieces) := by
  fun_induction parameterPieces xs with
  | case1 => trivial
  | case2 x => exact ⟨isProper_identifier x rfl, trivial⟩
  | case3 x y xs ih => exact ⟨isProper_identifier x rfl, ih⟩

/-- **Every word of a program line is proper.** The words of each form are gone through from left to
right. -/
theorem Form.wordsProper (f : Form) : WordsProper f.pieces := by
  cases f with
  | declare x v =>
    exact ⟨isProper_keyword (by decide) rfl (.inr ⟨_, _, rfl⟩), isProper_assigned x v,
      wordsProper_value v⟩
  | assign x v => exact ⟨isProper_assigned x v, wordsProper_value v⟩
  | branch c | whileLoop c =>
    exact ⟨isProper_keyword (by decide) rfl (.inl (by decide)), wordsProper_condition c trivial⟩
  | otherwise | doLoop =>
    exact ⟨isProper_keyword (by decide) rfl (.inl (by decide)), trivial⟩
  | doEnd c =>
    exact ⟨isProper_keyword (by decide) rfl (.inl (by decide)), wordsProper_condition c trivial⟩
  | countLoop x start c target source step =>
    exact ⟨isProper_keyword (by decide) rfl (.inl (by decide)),
      isProper_keyword (by decide) rfl (.inr ⟨_, _, rfl⟩), isProper_identifier x rfl,
      wordsProper_condition c
        ⟨isProper_identifier target rfl, isProper_identifier source rfl, trivial⟩⟩
  | itemLoop x items =>
    exact ⟨isProper_keyword (by decide) rfl (.inl (by decide)),
      isProper_keyword (by decide) rfl (.inr ⟨_, _, rfl⟩), isProper_identifier x rfl,
      isProper_identifier items rfl, trivial⟩
  | function name parameters =>
    exact ⟨isProper_keyword (by decide) rfl (.inl (by decide)), isProper_identifier name rfl,
      wordsProper_parameters parameters⟩
  | close => trivial

/-! ## 2. Rules about words -/

section Words

variable {l : ProgramLine}

/-- A whole word of the line is one of its pieces, and so it is proper. -/
theorem isProper_of_mem_wholeWords (word : Word) {occurrence : WordOccurrence}
    (h : occurrence ∈ Text.wholeWords word.text l.code) :
    ∃ back, IsProper word back ∧ occurrence.after = textOf back := by
  obtain ⟨front, w, back, hsplit, htext, hafter⟩ :=
    exists_name_of_mem_wholeWords l.startsWord_indent l.form.separated h
  have hproper := l.form.wordsProper
  rw [hsplit] at hproper
  obtain rfl : w = word := by
    cases w
    cases word
    congr
  exact ⟨back, hproper.of_append, hafter⟩

/-- No word of another language is found in the line. -/
theorem wholeWords_foreign {word : Text} (h : word ∈ foreignWords) :
    Text.wholeWords word l.code = [] := by
  have hword : ∀ w ∈ foreignWords, Text.isAsciiWord w := by decide
  rw [List.eq_nil_iff_forall_not_mem]
  intro occurrence hmem
  obtain ⟨back, hproper, -⟩ := isProper_of_mem_wholeWords ⟨word, hword word h⟩ hmem
  exact hproper.isOwn h

/-- A name after `var` is more than the end of a statement, so the keyword is not alone. -/
theorem isLoneTail_name (x : Word) (more : List Piece) :
    isLoneTail (textOf (.space :: .name x :: more)) = false := by
  obtain ⟨c, cs, htext, hc, -⟩ := x.exists_cons
  have hblank := isBlank_of_isAsciiNameChar (isAsciiNameChar_of_isAlpha hc)
  have hsemicolon : (c == ';') = false := by
    rw [beq_eq_false_iff_ne]
    rintro rfl
    exact absurd hc (by decide)
  have hspace : isBlank ' ' := by decide
  simp [isLoneTail, Text.trimStart, Piece.text, htext, hblank, hsemicolon, hspace]

theorem loneVarFindings_eq_nil : loneVarFindings l.code = [] := by
  have hnone : (Text.wholeWords "var".toList l.code).find? (fun word => isLoneTail word.after) =
      none := by
    rw [List.find?_eq_none]
    intro occurrence hmem
    obtain ⟨back, hproper, hafter⟩ := isProper_of_mem_wholeWords ⟨"var".toList, by decide⟩ hmem
    obtain ⟨x, more, rfl⟩ := hproper.named rfl
    rw [hafter, isLoneTail_name]
    simp
  rw [loneVarFindings, hnone]

theorem keywordFindings_eq_nil {word : Text} (h : word ∈ foreignWords) (issue : Issue) :
    keywordFindings word issue l.code = [] := by
  rw [keywordFindings, wholeWords_foreign h]
  rfl

theorem functionKeywordFindings_eq_nil : functionKeywordFindings l.code = [] := by
  rw [functionKeywordFindings, wholeWords_foreign (by decide)]

/-- No name is assigned to itself: the copies of the line are read off its pieces, and its words are
proper. -/
theorem selfCopyFindings_eq_nil {view : RuleView} (hcode : view.code = l.code) :
    selfCopyFindings view = [] := by
  have hnone : (Copy.all view.code).find? (fun copy => copy.target == copy.value) = none := by
    rw [List.find?_eq_none]
    intro copy hmem
    rw [hcode] at hmem
    obtain ⟨front, w, back, v, hsplit, hcopied, htarget, hvalue⟩ :=
      exists_copied_of_mem_all l.startsWord_indent l.form.separated hmem
    have hproper := l.form.wordsProper
    rw [hsplit] at hproper
    simpa [htarget, hvalue] using hproper.of_append.changes v hcopied
  rw [selfCopyFindings, hnone]

end Words

/-! ## 3. Operators, and the end of a line -/

/-- A line ends with a semicolon or with a brace, so the rule about ends is content. -/
theorem Form.exists_last (f : Form) :
    ∃ front c, textOf f.pieces = front ++ [c] ∧ (c == ';' || c == '}' || c == '{') := by
  have hends {ps ends : List Piece} (back : Text) {c : Char} (hback : textOf ends = back ++ [c])
      (hc : c == ';' || c == '}' || c == '{') :
      ∃ front c, textOf (ps ++ ends) = front ++ [c] ∧ (c == ';' || c == '}' || c == '{') :=
    ⟨textOf ps ++ back, c, by rw [textOf_append, hback, List.append_assoc], hc⟩
  cases f with
  | declare | assign => exact hends [] rfl rfl
  | branch | whileLoop | countLoop | itemLoop | function => exact hends ") ".toList rfl rfl
  | doEnd => exact hends ")".toList rfl rfl
  | otherwise => exact ⟨"\x7d else ".toList, '{', rfl, rfl⟩
  | doLoop => exact ⟨"do ".toList, '{', rfl, rfl⟩
  | close => exact ⟨[], '}', rfl, rfl⟩

theorem isBlank_of_endsLine {c : Char} (h : c == ';' || c == '}' || c == '{') :
    isBlank c = false := by
  simp only [Bool.or_eq_true, beq_iff_eq] at h
  rcases h with (rfl | rfl) | rfl <;> decide

/-- The last character that is no white space stays the last one. -/
theorem Text.getLast?_trim (t : Text) {c : Char} (hc : isBlank c = false) :
    (trim (t ++ [c])).getLast? = some c := by
  have hstart : ∃ u, trimStart (t ++ [c]) = u ++ [c] := by
    rw [trimStart, List.dropWhile_append]
    split
    · exact ⟨[], by simp [hc]⟩
    · exact ⟨_, rfl⟩
  obtain ⟨u, hu⟩ := hstart
  have hend : trimEnd (u ++ [c]) = u ++ [c] := by
    rw [trimEnd, dropEndWhile_eq_rdropWhile]
    exact List.rdropWhile_concat_neg _ u c (by simp [hc])
  rw [trim, hu, hend, List.getLast?_concat]

section View

variable {view : RuleView} {l : ProgramLine} (hcode : view.code = l.code)
include hcode

/-- What the rules see of the line as tokens are its pieces. -/
theorem tokens_programLine : view.tokens = tokensOf (Text.byteSize l.indent) l.form.pieces := by
  rw [← l.scan_code, ← hcode]
  rfl

theorem operatorFindings_eq_nil : operatorFindings view = [] := by
  rw [operatorFindings, tokens_programLine hcode, foreignFindings_tokensOf,
    find?_hasForeignQuotes_tokensOf]
  rfl

theorem terminatorFindings_eq_nil : terminatorFindings view = [] := by
  obtain ⟨front, c, hlast, hc⟩ := l.form.exists_last
  have hterminated : isTerminated view.code := by
    rw [isTerminated, hcode, ProgramLine.code, hlast, ← List.append_assoc,
      Text.getLast?_trim _ (isBlank_of_endsLine hc)]
    exact hc
  rw [terminatorFindings, if_pos hterminated]

end View

end MacroScript
