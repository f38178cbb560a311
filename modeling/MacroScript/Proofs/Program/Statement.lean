import MacroScript.Proofs.Diagnostic.Declaration
import MacroScript.Proofs.Program.Words

/-!
# Declarations of program lines

A `var` statement is taken apart at its assignment and its semicolon. In `var x = v`, with or
without a semicolon after it, **the name that is found is `x` and the value that is found is `v`**
(`VarStatement.ofText_declaration`): no token before them is an assignment or a semicolon. The name
is one of the language and the value is recognised, so the rule about declarations finds nothing.
-/
namespace MacroScript

/-! ## 1. Trimmed texts -/

theorem Word.isTrimmed (w : Word) : w.text.isTrimmed := by
  obtain ⟨c, cs, htext, -⟩ := w.exists_cons
  refine Text.isTrimmed_of_forall (by simp [htext]) fun d hd => ?_
  exact isBlank_of_isAsciiNameChar (w.isAsciiNameChar d hd)

theorem Numeral.isTrimmed (n : Numeral) : n.text.isTrimmed :=
  Text.isTrimmed_of_forall n.ne_nil fun c hc =>
    isBlank_of_isAsciiNameChar (isAsciiNameChar_of_isDigit (n.isDigits c hc))

/-- A value starts and ends with characters that are not white space; a string does with its quotes.
-/
theorem Value.isTrimmed (v : Value) : Text.isTrimmed (textOf v.pieces) := by
  cases v with
  | number n => simpa [pieces] using n.isTrimmed
  | boolean b => cases b <;> decide
  | null | emptyList => decide
  | string body h =>
    have hquote : isBlank '"' = false := by decide
    simpa [pieces, Piece.text] using Text.isTrimmed_of_ends hquote hquote _

/-! ## 2. Names and values -/

theorem badNameChar?_word (underscoreStart : Bool) (w : Word) :
    badNameChar? underscoreStart w.text = none := by
  obtain ⟨c, cs, htext, hc, hcs⟩ := w.exists_cons
  have hgood : cs.takeWhile isAsciiNameChar = cs := List.takeWhile_eq_self_iff.mpr hcs
  simp [badNameChar?, htext, hc, hgood]

theorem Text.opensWithWord_cons {c d : Char} (h : c ≠ d) (word t : Text) :
    opensWithWord (c :: word) (d :: t) = false := by
  simp [opensWithWord, dropWord?, h]

/-- None of the values that are reported by their first characters. -/
theorem Value.exists_cons (v : Value) :
    ∃ c cs, textOf v.pieces = c :: cs ∧ c ∉ ['{', 'u', '\'', '`'] ∧
      Text.opensWithWord "fun".toList (c :: cs) = false := by
  cases v with
  | number n =>
    obtain ⟨c, cs, htext⟩ := List.exists_cons_of_ne_nil n.ne_nil
    have hc := n.isDigits c (by rw [htext]; exact List.mem_cons_self)
    have hne {d : Char} (hd : d.isDigit = false) : c ≠ d := by
      rintro rfl
      rw [hc] at hd
      contradiction
    refine ⟨c, cs, by simp [pieces, htext], ?_, Text.opensWithWord_cons (hne (by decide)).symm _ _⟩
    simp only [List.mem_cons, List.not_mem_nil, or_false, not_or]
    exact ⟨hne (by decide), hne (by decide), hne (by decide), hne (by decide)⟩
  | boolean b => cases b <;> exact ⟨_, _, rfl, by decide, by decide⟩
  | null | emptyList => exact ⟨_, _, rfl, by decide, by decide⟩
  | string body h => exact ⟨_, _, rfl, by decide, Text.opensWithWord_cons (by decide) _ _⟩

theorem separated_value (v : Value) : Separated v.pieces := by
  cases v with
  | boolean b => cases b <;> trivial
  | number | null | string => trivial
  | emptyList => exact ⟨fun _ => rfl, trivial⟩

/-- **A value is recognised**: it holds no names, or one that is built in. What the table knows does
not matter. -/
theorem isRecognised_value (view : RuleView) (v : Value) :
    isRecognised view (textOf v.pieces) := by
  have hroots : (chainRoots false (tokensOf 0 v.pieces)).isEmpty ||
      (chainRoots false (tokensOf 0 v.pieces)).any Catalogue.isBuiltIn := by
    cases v with
    | boolean b => cases b <;> decide
    | null | emptyList => decide
    | number | string => rfl
  rw [isRecognised, Token.scan, scanFrom_textOf (separated_value v)]
  split
  · rfl
  · simp only [Bool.or_eq_true, List.any_eq_true] at hroots ⊢
    rcases hroots with hempty | ⟨name, hname, hbuiltIn⟩
    · exact .inl hempty
    · exact .inr ⟨name, hname, .inl hbuiltIn⟩

section Findings

variable {t : Text} {statement : VarStatement}

/-- A word is a name of the language. -/
theorem variableNameFindings_eq_nil {w : Word}
    (hname : Text.between statement.nameStart statement.nameStop t = w.text) (base : Nat) :
    variableNameFindings t base statement = [] := by
  rw [variableNameFindings, hname, badNameChar?_word]

/-- The faults of a value are gone through: none of them fits, and the value is recognised. -/
theorem valueFindings_eq_nil (view : RuleView) {v : Value}
    (hvalue : Text.between statement.valueStart statement.valueStop t = textOf v.pieces)
    (base assignment : Nat) : valueFindings view t base statement assignment = [] := by
  obtain ⟨c, cs, htext, hc, hfun⟩ := v.exists_cons
  simp only [List.mem_cons, List.not_mem_nil, or_false, not_or] at hc
  obtain ⟨hbrace, hu, hsingle, hback⟩ := hc
  have hundefined : Text.opensWithWord "undefined".toList (c :: cs) = false :=
    Text.opensWithWord_cons (Ne.symm hu) _ _
  have hobject : ['{'].isPrefixOf (c :: cs) = false := by simp [List.isPrefixOf, Ne.symm hbrace]
  have hrecognised := isRecognised_value view v
  rw [htext] at hvalue hrecognised
  simp only [valueFindings, hvalue, hobject, hfun, hundefined, hrecognised]
  simp [hsingle, hback]

end Findings

/-! ## 3. The statement taken apart -/

section Declaration

variable (x : Identifier) (v : Value) {ending : List Piece}
  (hending : ending = [] ∨ ending = [.mark .semicolon])

/-- The first sign of a declaration is its assignment, as neither the keyword nor the name is one.
-/
theorem find?_assigns_declaration (rest : List Piece) :
    (tokensOf 0 (declarationPieces x ++ rest)).find? Token.assigns =
      some ⟨.operator, ['='], Text.byteSize (textOf (namePieces x))⟩ := by
  have hsplit : declarationPieces x ++ rest = namePieces x ++ .sign .assign :: .space :: rest := rfl
  have hname : (tokensOf 0 (namePieces x)).find? Token.assigns = none := rfl
  rw [hsplit, tokensOf_append, List.find?_append, hname, Nat.zero_add]
  rfl

include hending

theorem separated_declaration : Separated (declarationPieces x ++ v.pieces ++ ending) := by
  have hsemicolon : Separated (declarationPieces x ++ v.pieces ++ [.mark .semicolon]) :=
    (Form.declare x v).separated
  rcases hending with rfl | rfl
  · rw [List.append_nil]
    exact hsemicolon.of_append_left
  · exact hsemicolon

/-- The value ends at the semicolon, or with the text. There is no other semicolon in it, since a
literal is one token. -/
theorem stop_declaration :
    (((tokensOf 0 (declarationPieces x ++ v.pieces ++ ending)).find?
        fun token => token.kind = .semicolon).map Token.offset).getD
      (Text.byteSize (textOf (declarationPieces x ++ v.pieces ++ ending))) =
    Text.byteSize (textOf (declarationPieces x ++ v.pieces)) := by
  have hnone : (tokensOf 0 (declarationPieces x ++ v.pieces)).find?
      (fun token => token.kind = .semicolon) = none := by
    cases v with
    | boolean b => cases b <;> rfl
    | number | null | emptyList | string => rfl
  -- what is found first is the semicolon at the end, if there is one
  rw [tokensOf_append, List.find?_append, hnone, Nat.zero_add]
  rcases hending with rfl | rfl
  · rw [List.append_nil]
    rfl
  · rfl

/-- **The parts of a declaration**: its name, and its value. Both are cut out with a space around
them, which is trimmed off. -/
theorem VarStatement.ofText_declaration {t : Text}
    (ht : t = textOf (declarationPieces x ++ v.pieces ++ ending)) :
    ∃ statement assignment, VarStatement.ofText t = statement ∧
      statement.assignment = some assignment ∧
      Text.between statement.nameStart statement.nameStop t = x.text ∧
      Text.between statement.valueStart statement.valueStop t = textOf v.pieces := by
  have hspace : Text.isAllBlank [' '] := by decide
  have hscan : Token.scan t = tokensOf 0 (declarationPieces x ++ v.pieces ++ ending) := by
    rw [ht, Token.scan, scanFrom_textOf (separated_declaration x v hending)]
  have hassign := find?_assigns_declaration x (v.pieces ++ ending)
  have hstop := stop_declaration x v hending
  rw [← List.append_assoc, ← hscan] at hassign
  rw [← hscan, ← ht] at hstop
  have hname : textOf (namePieces x) = "var".toList ++ ([' '] ++ x.text ++ [' ']) := by
    simp [namePieces]
  have hvalue : textOf (declarationPieces x ++ v.pieces) =
      textOf (namePieces x) ++ ['='] ++ ([' '] ++ textOf v.pieces ++ []) := by
    simp [declarationPieces, namePieces, Sign.text]
  have hwhole : t = textOf (namePieces x) ++ ['='] ++
      ([' '] ++ textOf v.pieces ++ [] ++ textOf ending) := by
    rw [ht, textOf_append, hvalue, List.append_assoc]
  -- in bytes: the name starts behind the keyword, and the value behind the sign
  have hvar : Text.byteSize "var".toList = 3 := by decide
  have hequals : Text.byteSize ['='] = 1 := by decide
  refine ⟨_, _, ofText_eq hassign hstop, rfl, ?_, ?_⟩
  · refine between_spanBetween "var".toList (['='] ++ [' '] ++ textOf (v.pieces ++ ending)) ?_
      hvar.symm ?_ hspace x.isTrimmed hspace
    · rw [hwhole, hname]
      simp
    · dsimp only
      rw [hname, Text.byteSize_append, hvar]
      omega
  · refine between_spanBetween (textOf (namePieces x) ++ ['=']) (textOf ending) hwhole ?_ ?_ hspace
      v.isTrimmed rfl
    · rw [Text.byteSize_append, hequals]
      rfl
    · rw [hvalue, Text.byteSize_append, Text.byteSize_append, hequals, Token.valueOffset]
      dsimp only
      omega

/-- **Nothing is found in a declaration**, whether it is a line of its own or the first clause of a
loop. -/
theorem varStatementFindings_eq_nil (view : RuleView) (base : Nat) :
    varStatementFindings view (textOf (declarationPieces x ++ v.pieces ++ ending)) base = [] := by
  obtain ⟨statement, assignment, hstatement, hassign, hname, hvalue⟩ :=
    VarStatement.ofText_declaration x v hending rfl
  have hnameFindings := variableNameFindings_eq_nil hname base
  have hvalueFindings := valueFindings_eq_nil view hvalue base assignment
  simp only [varStatementFindings, hstatement, hassign, hnameFindings, hvalueFindings,
    List.append_nil]

end Declaration

/-! ## 4. The rule -/

/-- **The rule about declarations is silent**: there is no foreign keyword in the line, no name
copied to itself, and nothing is found in the statement. -/
theorem declarationFindings_eq_nil {view : RuleView} {l : ProgramLine}
    (hcode : view.code = l.code) : declarationFindings view = [] := by
  have hlet : keywordFindings "let".toList .letKeyword l.code = [] :=
    keywordFindings_eq_nil (by decide) _
  have hconst : keywordFindings "const".toList .constKeyword l.code = [] :=
    keywordFindings_eq_nil (by decide) _
  have htokens := tokens_programLine hcode
  simp only [declarationFindings, selfCopyFindings_eq_nil hcode, hcode, loneVarFindings_eq_nil,
    hlet, hconst, htokens, List.nil_append, List.append_nil]
  -- only a line whose first word is the keyword is read as a declaration
  cases hform : l.form with
  | declare x v =>
    have hdrop : Text.dropBytes (Text.byteSize l.indent) l.code =
        textOf (declarationPieces x ++ v.pieces ++ [.mark .semicolon]) := by
      rw [ProgramLine.code, Text.dropBytes_byteSize_append, hform]
      rfl
    have hfirst : (tokensOf (Text.byteSize l.indent) (Form.declare x v).pieces).head? =
        some ⟨.name, "var".toList, Text.byteSize l.indent⟩ := rfl
    simp only [hfirst, hdrop, varStatementFindings_eq_nil x v (.inr rfl)]
    exact ite_self _
  | assign x v =>
    have hfirst : (tokensOf (Text.byteSize l.indent) (Form.assign x v).pieces).head? =
        some ⟨.name, x.text, Text.byteSize l.indent⟩ := rfl
    simp only [hfirst, x.isWord_eq_false (show "var".toList ∈ reservedWords by decide)]
    rfl
  | branch | otherwise | whileLoop | doLoop | doEnd | countLoop | itemLoop | function | close => rfl

end MacroScript
