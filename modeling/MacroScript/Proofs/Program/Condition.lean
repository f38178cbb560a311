import MacroScript.Proofs.Diagnostic.Condition
import MacroScript.Proofs.Program.Bracket
import MacroScript.Proofs.Program.Statement

/-!
# Conditions of program lines

A condition compares a name with a number. It is therefore not constant, it has both of its
operands, they differ, and its operator is spelled well: **nothing is found in its text**
(`conditionTextFindings_eq_nil`). The header around it is read bracket by bracket. Between its
brackets stands the condition, and after them the block (`Bracketed`); only the `while` that ends a
`do` block has something else there.
-/
namespace MacroScript

/-! ## 1. The text of a condition -/

/-- A letter is no digit, which tells a name from a number. -/
theorem isDigit_of_isAlpha {c : Char} (h : c.isAlpha) : c.isDigit = false := by
  rw [← Bool.not_eq_true]
  intro hdigit
  have hkind := Token.kindOf_eq_number.mpr hdigit
  rw [kindOf_of_isAlpha h] at hkind
  contradiction

namespace Condition

variable (c : Condition)

/-- The comparison that a condition is. -/
def comparison : Comparison :=
  ⟨c.left.text, c.order.text, c.right.text⟩

/-- Names and numbers are operands, and every operator of a program is made of characters of
operators. -/
theorem wellFormed_comparison : c.comparison.WellFormed where
  left := by
    obtain ⟨d, ds, htext, -⟩ := c.left.exists_cons
    refine .name (by simp [comparison, htext]) fun e he => ?_
    exact isOperandChar_of_isAsciiNameChar (c.left.isAsciiNameChar e he)
  right := .name c.right.ne_nil fun e he =>
    isOperandChar_of_isAsciiNameChar (isAsciiNameChar_of_isDigit (c.right.isDigits e he))
  operator_ne := by
    dsimp only [comparison]
    cases c.order <;> decide
  operator := by
    apply List.all_eq_true.mp
    dsimp only [comparison]
    cases c.order <;> decide

theorem textOf_pieces : textOf c.pieces = c.comparison.written [' '] [' '] := by
  simp [pieces, Sign.text, comparison, Comparison.written]

theorem isTrimmed : Text.isTrimmed (textOf c.pieces) := by
  rw [textOf_pieces]
  exact c.wellFormed_comparison.isTrimmed_written _ _

/-- **A condition is the comparison that it is written as**, with one space on either side of its
operator. -/
theorem ofText? : Comparison.ofText? (c.comparison.written [' '] [' ']) = some c.comparison :=
  c.wellFormed_comparison.ofText?_written rfl rfl

end Condition

/-! ## 2. What could be found in a condition -/

section Findings

variable (c : Condition)

/-- No operator of a program is spelled wrongly. -/
theorem spellingFindings_eq_nil (site : ConditionSite) (base : Nat) :
    spellingFindings site base (c.comparison.written [' '] [' ']) = [] := by
  rw [spellingFindings, c.ofText?]
  dsimp only [Condition.comparison]
  cases c.order <;> rfl

theorem selfComparisonFindings_eq_nil (base : Nat) :
    selfComparisonFindings base (c.comparison.written [' '] [' ']) = [] := by
  -- a name starts with a letter, and a number does not
  have hne : c.comparison.left ≠ c.comparison.right := by
    obtain ⟨d, ds, htext, hd, -⟩ := c.left.exists_cons
    intro heq
    have htexts : c.left.text = c.right.text := heq
    have hdigit := c.right.isDigits d (by rw [← htexts, htext]; exact List.mem_cons_self)
    rw [isDigit_of_isAlpha hd] at hdigit
    contradiction
  simp [selfComparisonFindings, c.ofText?, hne]

/-- **Nothing is found in a condition**, wherever it stands. It is a comparison, so it is searched
for its operator and for equal sides only. -/
theorem conditionTextFindings_eq_nil {blank : Text} (hblank : Text.isAllBlank blank)
    (site : ConditionSite) (base : Nat) :
    conditionTextFindings site base (blank ++ textOf c.pieces) = [] := by
  have hend : Text.isAllBlank [] := rfl
  have hfindings : conditionTextFindings site base
      (blank ++ c.comparison.written [' '] [' '] ++ []) = [] := by
    rw [conditionTextFindings_written site base c.wellFormed_comparison hblank hend,
      spellingFindings_eq_nil, selfComparisonFindings_eq_nil, List.append_nil]
  rwa [List.append_nil, ← c.textOf_pieces] at hfindings

end Findings

/-! ## 3. Headers with a condition -/

theorem isRound_condition (c : Condition) : ∀ p ∈ c.pieces, p.isRound = false := by
  simp [Condition.pieces, Identifier.piece, Piece.isRound]

/-- A header around a condition is silent, unless something stray follows it. What follows is left
to the forms, which differ in it. -/
theorem conditionHeaderFindings_eq_nil {view : RuleView} {indent : Text} {front back : List Piece}
    {c : Condition} (h : Bracketed view indent front c.pieces back) {site : ConditionSite}
    (hstray : (strayFollows view (closerOf indent front c.pieces).stop &&
      !(site = .whileLoop && endsDoWhile view)) = false) (keyword : Token) :
    conditionHeaderFindings view site keyword (openerOf indent front)
      (closerOf indent front c.pieces) = [] := by
  have hblank : Text.isAllBlank (textOf c.pieces) = false := by
    obtain ⟨d, ds, htext, hd⟩ := Text.exists_head_of_isTrimmed c.isTrimmed
    simp [Text.isAllBlank, htext, hd]
  have hempty : Text.isAllBlank [] := rfl
  have htext := conditionTextFindings_eq_nil c hempty site (openerOf indent front).stop
  rw [List.nil_append] at htext
  simp only [conditionHeaderFindings, h.between_eq, hblank, hstray, htext]
  rfl

/-- The rule at a keyword with a condition. What follows the brackets is a block, or anything at all
at the end of a `do` block. -/
theorem conditionFindings_header {view : RuleView} {indent : Text} {front back : List Piece}
    {c : Condition} (h : Bracketed view indent front c.pieces back) {keyword : Token}
    (hskip : skipElse view.tokens = keyword :: bracketTokens indent front c.pieces back)
    (hword : keyword.isWord "if" ∨ keyword.isWord "while") (hdo : keyword.isWord "do" = false)
    (hstray : strayFollows view (closerOf indent front c.pieces).stop = false ∨
      (keyword.isWord "if" = false ∧ endsDoWhile view)) : conditionFindings view = [] := by
  have hkeyword : (keyword.isWord "if" || keyword.isWord "while") = true := by
    rw [Bool.or_eq_true]
    exact hword
  have hcloser := (h.closer_eq []).2
  rw [List.nil_append, List.length_nil] at hcloser
  have hopener : (bracketTokens indent front c.pieces back).head? = some (openerOf indent front) :=
    rfl
  have hkind : (openerOf indent front).kind = .opener .round := rfl
  simp only [conditionFindings, hskip, hdo, hkeyword, hopener, hcloser, hkind, if_true]
  refine conditionHeaderFindings_eq_nil h ?_ keyword
  rcases hstray with hstray | ⟨hif, hends⟩
  · rw [hstray, Bool.false_and]
  · simp [hif, hends]

/-- The rule passes over a line that starts with another word. There are four words that it knows.
-/
theorem conditionFindings_of_word {view : RuleView} {word : Text} {offset : Nat}
    {rest : List Token} (htokens : view.tokens = ⟨.name, word, offset⟩ :: rest)
    (hword : ∀ k ∈ ["else", "do", "if", "while"], word ≠ k.toList) :
    conditionFindings view = [] := by
  have hisWord {k : String} (hk : k ∈ ["else", "do", "if", "while"]) :
      Token.isWord ⟨.name, word, offset⟩ k = false := by
    simp [Token.isWord, hword k hk]
  have hskip : skipElse view.tokens = ⟨.name, word, offset⟩ :: rest := by
    have helse : Token.isWord ⟨.name, word, offset⟩ "else" = false := hisWord (by simp)
    simp [skipElse, htokens, helse]
  have hdo : Token.isWord ⟨.name, word, offset⟩ "do" = false := hisWord (by simp)
  have hif : Token.isWord ⟨.name, word, offset⟩ "if" = false := hisWord (by simp)
  have hwhile : Token.isWord ⟨.name, word, offset⟩ "while" = false := hisWord (by simp)
  simp [conditionFindings, hskip, hdo, hif, hwhile]

/-- A block is nothing stray. -/
theorem strayFollows_block {view : RuleView} {indent : Text} {front inner : List Piece}
    (h : Bracketed view indent front inner [.space, .mark (.opener .curly)]) :
    strayFollows view (closerOf indent front inner).stop = false := by
  rw [strayFollows, h.rest_block]
  rfl

/-- The brace after a `do`. -/
theorem strayFollows_do {view : RuleView} {l : ProgramLine} (hcode : view.code = l.code)
    (hform : l.form = .doLoop) :
    strayFollows view (Text.byteSize l.indent + Text.byteSize "do".toList) = false := by
  have hsplit : view.line.code = l.indent ++ "do".toList ++ [' ', '{'] := by
    rw [show view.line.code = view.code from rfl, hcode, ProgramLine.code, hform,
      List.append_assoc]
    rfl
  have hrest : view.rest (Text.byteSize l.indent + Text.byteSize "do".toList) = ['{'] := by
    rw [RuleView.rest, hsplit, ← Text.byteSize_append, Text.dropBytes_byteSize_append]
    decide
  rw [strayFollows, hrest]
  rfl

/-- **The rule about conditions is silent**, if the table knows where the `do` blocks end. Each form
is brought to one of the cases above. -/
theorem conditionFindings_eq_nil {view : RuleView} {l : ProgramLine} (hcode : view.code = l.code)
    (hends : ∀ c, l.form = .doEnd c → endsDoWhile view) : conditionFindings view = [] := by
  have htokens := tokens_programLine hcode
  cases hform : l.form with
  | declare | countLoop | itemLoop | function =>
    rw [hform] at htokens
    refine conditionFindings_of_word htokens ?_
    decide
  | assign x v =>
    rw [hform] at htokens
    refine conditionFindings_of_word htokens fun k hk => x.ne_of_mem ?_
    have hreserved : ∀ k ∈ ["else", "do", "if", "while"], k.toList ∈ reservedWords := by decide
    exact hreserved k hk
  | branch c =>
    have h : Bracketed view l.indent [.keyword "if", .space] c.pieces
        [.space, .mark (.opener .curly)] :=
      bracketed_programLine hcode (by rw [hform]; rfl) (isRound_condition c)
    refine conditionFindings_header h (by rw [h.tokens_eq]; rfl) (.inl rfl) rfl ?_
    exact .inl (strayFollows_block h)
  | whileLoop c =>
    have h : Bracketed view l.indent [.keyword "while", .space] c.pieces
        [.space, .mark (.opener .curly)] :=
      bracketed_programLine hcode (by rw [hform]; rfl) (isRound_condition c)
    refine conditionFindings_header h (by rw [h.tokens_eq]; rfl) (.inr rfl) rfl ?_
    exact .inl (strayFollows_block h)
  | doEnd c =>
    -- what follows is a semicolon, which only the end of a `do` block may have there
    have h : Bracketed view l.indent
        [.mark (.closer .curly), .space, .keyword "while", .space] c.pieces [.mark .semicolon] :=
      bracketed_programLine hcode (by rw [hform]; rfl) (isRound_condition c)
    refine conditionFindings_header h (by rw [h.tokens_eq]; rfl) (.inr rfl) rfl ?_
    exact .inr ⟨rfl, hends c hform⟩
  | doLoop =>
    rw [hform] at htokens
    have hskip : skipElse view.tokens = [⟨.name, "do".toList, Text.byteSize l.indent⟩,
        ⟨.opener .curly, ['{'], Text.byteSize l.indent + 2 + 1⟩] := by
      rw [htokens]
      rfl
    have hword : Token.isWord ⟨.name, "do".toList, Text.byteSize l.indent⟩ "do" = true := rfl
    simp only [conditionFindings, hskip, hword, if_true, Token.stop, strayFollows_do hcode hform]
    rfl
  | otherwise | close =>
    rw [hform] at htokens
    rw [conditionFindings, htokens]
    rfl

end MacroScript
