import MacroScript.Proofs.Program.Condition

/-!
# Headers of functions and loops

The name of a function stands between its keyword and its brackets. It is a name of the language and
a block follows the brackets, so the rule about headers finds nothing.

The clauses of a loop stand between the semicolons inside its brackets. **The clauses that are found
are those of the header** (`topLevelParts_clauses`), because neither quotes nor brackets stand in
them. The first is a declaration and the second a condition, and a loop over items declares its
variable and has its colon, so the rule about loops finds nothing.
-/
namespace MacroScript

/-! ## 1. Functions -/

theorem isRound_parameters (xs : List Identifier) :
    ∀ p ∈ parameterPieces xs, p.isRound = false := by
  fun_induction parameterPieces xs with
  | case1 => simp
  | case2 x => simp [Identifier.piece, Piece.isRound]
  | case3 x y xs ih => simpa [Identifier.piece, Piece.isRound] using ih

/-- The rule passes over a line that starts with another token. The foreign keyword that it also
looks for is in no line of a program. -/
theorem headerFindings_of_word {view : RuleView} {l : ProgramLine} (hcode : view.code = l.code)
    {first : Token} {rest : List Token} (htokens : view.tokens = first :: rest)
    (hfun : first.isWord "fun" = false) (hclass : first.isWord "class" = false) :
    headerFindings view = [] := by
  simp [headerFindings, hcode, functionKeywordFindings_eq_nil, htokens, hfun, hclass]

/-- The name of a function is one of the language, and there is one: the bracket is the third token.
-/
theorem headerNameFindings_eq_nil {view : RuleView} {indent : Text} {name : Identifier}
    {inner back : List Piece}
    (h : Bracketed view indent [.keyword "fun", .space, name.piece] inner back)
    (header : HeaderKind) :
    headerNameFindings view.code header ⟨.name, "fun".toList, Text.byteSize indent⟩
      (openerOf indent [.keyword "fun", .space, name.piece]) 2 = [] := by
  have hspace : Text.isAllBlank [' '] := by decide
  have hend : Text.isAllBlank [] := rfl
  have hregion : Text.between (Token.stop ⟨.name, "fun".toList, Text.byteSize indent⟩)
      (openerOf indent [.keyword "fun", .space, name.piece]).offset view.code =
        [' '] ++ name.text ++ [] := by
    have hcut := Text.between_append (indent ++ "fun".toList) ([' '] ++ name.text ++ [])
      (['('] ++ (textOf inner ++ ([')'] ++ textOf back)))
    rw [h.code_eq]
    simpa [Token.stop, openerOf, Nat.add_assoc] using hcut
  have hspan := Text.coreSpan_core hspace name.isTrimmed hend
  have hname := Text.between_append [' '] name.text []
  rw [← List.append_assoc] at hname
  simp only [headerNameFindings, hregion, hspan, hname, badNameChar?_word]
  rfl

/-- **The rule about headers is silent.** Only a function is looked at, and it has its name, its
brackets and its block. -/
theorem headerFindings_eq_nil {view : RuleView} {l : ProgramLine} (hcode : view.code = l.code) :
    headerFindings view = [] := by
  have htokens := tokens_programLine hcode
  cases hform : l.form with
  | function name parameters =>
    have h : Bracketed view l.indent [.keyword "fun", .space, name.piece]
        (parameterPieces parameters) [.space, .mark (.opener .curly)] :=
      bracketed_programLine hcode (by rw [hform]; simp [Form.pieces, headerPieces, blockPieces])
        (isRound_parameters parameters)
    -- the bracket is the third token, behind the keyword and the name
    have hcloser := (h.closer_eq (tokensOf (Text.byteSize l.indent)
      [.keyword "fun", .space, name.piece])).2
    have hline : headerFindings view = functionKeywordFindings view.code ++
        (headerNameFindings view.code .function ⟨.name, "fun".toList, Text.byteSize l.indent⟩
          (openerOf l.indent [.keyword "fun", .space, name.piece]) 2 ++
          view.blockFindings ((Token.partner? view.tokens 2).bind (view.tokens[·]?))) := by
      rw [headerFindings, h.tokens_eq]
      rfl
    rw [hline, headerNameFindings_eq_nil h, h.tokens_eq]
    have hblock := h.blockFindings_eq_nil
    rw [← hcloser] at hblock
    rw [hcode, functionKeywordFindings_eq_nil, List.nil_append, List.nil_append]
    exact hblock
  | assign x v =>
    rw [hform] at htokens
    exact headerFindings_of_word hcode htokens (x.isWord_eq_false (by decide) _)
      (x.isWord_eq_false (by decide) _)
  | declare | branch | otherwise | whileLoop | doLoop | doEnd | countLoop | itemLoop | close =>
    rw [hform] at htokens
    exact headerFindings_of_word hcode htokens rfl rfl

/-! ## 2. Clauses -/

/-- The character neither starts a literal or a group nor ends a clause. A scan that cuts a header
passes over it. -/
def isInert (c : Char) : Bool :=
  !isQuote c && bracketStep c = 0 && c != ';'

theorem isInert_of_isAsciiNameChar {c : Char} (h : isAsciiNameChar c) : isInert c :=
  forall_of_isAsciiNameChar (by decide +kernel) h

/-- Whether the piece can stand inside a clause. All its characters are inert. -/
def Piece.isInner : Piece → Bool
  | space | name _ | number _ | sign _ | mark .colon => true
  | mark _ | literal _ => false

theorem isInert_piece {p : Piece} (h : p.isInner) : ∀ c ∈ p.text, isInert c := by
  cases p with
  | space => exact List.all_eq_true.mp (by decide)
  | name w => exact fun c hc => isInert_of_isAsciiNameChar (w.isAsciiNameChar c hc)
  | number n =>
    exact fun c hc => isInert_of_isAsciiNameChar (isAsciiNameChar_of_isDigit (n.isDigits c hc))
  | sign s =>
    refine List.all_eq_true.mp ?_
    cases s with
    | assign | plus => decide
    | order o => cases o <;> decide
  | mark m =>
    cases m with
    | colon => exact List.all_eq_true.mp (by decide)
    | opener | closer | comma | semicolon => simp [Piece.isInner] at h
  | literal => simp [Piece.isInner] at h

theorem isInert_textOf {ps : List Piece} (h : ∀ p ∈ ps, p.isInner) :
    ∀ c ∈ textOf ps, isInert c := by
  intro c hc
  obtain ⟨p, hp, hmem⟩ := List.mem_flatMap.mp hc
  exact isInert_piece (h p hp) c hmem

section Clauses

variable {clause : Text} (hclause : ∀ c ∈ clause, isInert c)

theorem splitFrom_inert {c : Char} (hc : isInert c) (before cs : Text) :
    splitFrom ';' 0 .outside before (c :: cs) =
      (splitFrom ';' 0 .outside (c :: before) cs).modifyHead (List.cons c) := by
  simp only [isInert, Bool.and_eq_true, Bool.not_eq_true', decide_eq_true_eq, bne_iff_ne] at hc
  obtain ⟨⟨hquote, hbracket⟩, hsemicolon⟩ := hc
  have hnext : Quoting.outside.next isQuote c = .outside := by simp [Quoting.next, hquote]
  have hcut : isCut ';' 0 before c cs = false := by simp [isCut, hsemicolon]
  rw [splitFrom, hnext, hbracket, hcut]
  rfl

include hclause

/-- A clause with nothing behind it is the last one. -/
theorem splitFrom_last (before : Text) : splitFrom ';' 0 .outside before clause = [clause] := by
  induction clause generalizing before with
  | nil => rfl
  | cons c cs ih =>
    rw [splitFrom_inert (hclause c List.mem_cons_self),
      ih fun d hd => hclause d (List.mem_cons_of_mem _ hd)]
    rfl

/-- A clause ends at its semicolon, and the next one starts anew. -/
theorem splitFrom_clause (before rest : Text) :
    ∃ before', splitFrom ';' 0 .outside before (clause ++ ';' :: rest) =
      clause :: splitFrom ';' 0 .outside before' rest := by
  induction clause generalizing before with
  | nil => exact ⟨';' :: before, rfl⟩
  | cons c cs ih =>
    obtain ⟨before', hsplit⟩ := ih (fun d hd => hclause d (List.mem_cons_of_mem _ hd)) (c :: before)
    refine ⟨before', ?_⟩
    rw [List.cons_append, splitFrom_inert (hclause c List.mem_cons_self), hsplit]
    rfl

/-- No two semicolons are found before the end of a clause. -/
theorem twinSemicolons?_clause (offset : Nat) (rest : Text) :
    ∃ offset', twinSemicolons? offset (clause ++ rest) = twinSemicolons? offset' rest := by
  induction clause generalizing offset with
  | nil => exact ⟨offset, rfl⟩
  | cons c cs ih =>
    have hc := hclause c List.mem_cons_self
    have hsemicolon : c ≠ ';' := by
      rintro rfl
      exact absurd hc (by decide)
    obtain ⟨offset', hrest⟩ :=
      ih (fun d hd => hclause d (List.mem_cons_of_mem _ hd)) (offset + c.utf8Size)
    refine ⟨offset', ?_⟩
    simp only [List.cons_append, twinSemicolons?, hsemicolon, decide_false, Bool.false_and]
    exact hrest

end Clauses

/-- **The clauses of a header with two semicolons**, which are cut out as they were put together. -/
theorem topLevelParts_clauses {first second third : Text} (hfirst : ∀ c ∈ first, isInert c)
    (hsecond : ∀ c ∈ second, isInert c) (hthird : ∀ c ∈ third, isInert c) :
    ∃ offset offset', topLevelParts ';' (first ++ ';' :: (second ++ ';' :: third)) =
      [(0, first), (offset, second), (offset', third)] := by
  obtain ⟨before, hsplit⟩ := splitFrom_clause hfirst [] (second ++ ';' :: third)
  obtain ⟨before', hsplit'⟩ := splitFrom_clause hsecond before third
  rw [topLevelParts, hsplit, hsplit', splitFrom_last hthird]
  exact ⟨_, _, rfl⟩

/-- A semicolon with more than white space after it is no twin. -/
theorem twinSemicolons?_semicolon {c : Char} (hblank : isBlank c = false) (hc : c ≠ ';')
    (offset : Nat) (rest : Text) :
    ∃ offset', twinSemicolons? offset (';' :: ' ' :: c :: rest) =
      twinSemicolons? offset' (c :: rest) := by
  have hspace : isBlank ' ' := by decide
  refine ⟨offset + Char.utf8Size ';' + Char.utf8Size ' ', ?_⟩
  simp [twinSemicolons?, hspace, hblank, hc]

/-! ## 3. Loop headers -/

/-- A `for` header taken apart, as the rule does it. -/
def loopHeaderOf (indent : Text) (inner : List Piece) : LoopHeader where
  keyword := ⟨.name, "for".toList, Text.byteSize indent⟩
  start := (openerOf indent forPieces).offset
  stop := (closerOf indent forPieces inner).stop
  base := (openerOf indent forPieces).stop
  inner := textOf inner

/-- **What the rule checks in a header**: its clauses, or its variable and items. The block is
there, so nothing is said about it. -/
theorem loopFindings_header {view : RuleView} {indent : Text} {inner : List Piece}
    (h : Bracketed view indent forPieces inner [.space, .mark (.opener .curly)]) :
    loopFindings view =
      if (topLevelParts ';' (textOf inner)).length = 1 then
        itemLoopFindings (loopHeaderOf indent inner)
          (tokensOf (openerOf indent forPieces).stop inner)
      else clauseFindings view (loopHeaderOf indent inner) (topLevelParts ';' (textOf inner)) := by
  -- the rule looks for the partner among the tokens behind the keyword
  obtain ⟨hpartner, hcloser⟩ := h.closer_eq []
  rw [hpartner] at hcloser
  rw [List.nil_append, List.length_nil, Nat.zero_add] at hpartner hcloser
  have htokens : view.tokens = ⟨.name, "for".toList, Text.byteSize indent⟩ ::
      bracketTokens indent forPieces inner [.space, .mark (.opener .curly)] := by
    rw [h.tokens_eq]
    rfl
  have hword : Token.isWord ⟨.name, "for".toList, Text.byteSize indent⟩ "for" = true := rfl
  have hkind : (openerOf indent forPieces).kind = .opener .round := rfl
  rw [bracketTokens] at htokens hpartner hcloser
  simp only [loopFindings, htokens, hword, hkind, if_true, loopHeaderFindings, hpartner, hcloser,
    h.between_eq, h.blockFindings_eq_nil, List.append_nil, Nat.add_sub_cancel, List.take_left]
  rfl

/-! ## 4. Loops with clauses -/

section Clauses

variable (x : Identifier) (start : Numeral) (c : Condition) (target source : Identifier)
  (step : Numeral)

/-- The first clause of a loop. -/
def startPieces : List Piece :=
  declarationPieces x ++ [.number start]

/-- The third clause of a loop, without the space before it. -/
def stepPieces : List Piece :=
  [target.piece, .space, .sign .assign, .space, source.piece, .space, .sign .plus, .space,
    .number step]

/-- What stands between the brackets of a loop. -/
def clausePieces : List Piece :=
  startPieces x start ++ .mark .semicolon :: ((.space :: c.pieces) ++ .mark .semicolon ::
    (.space :: stepPieces target source step))

theorem textOf_clauses :
    textOf (clausePieces x start c target source step) =
      textOf (startPieces x start) ++ ';' :: (textOf (.space :: c.pieces) ++ ';' ::
        textOf (.space :: stepPieces target source step)) := by
  simp [clausePieces, Mark.char]

theorem isInner_start : ∀ p ∈ startPieces x start, p.isInner := by
  simp [startPieces, declarationPieces, Identifier.piece, Piece.keyword, Piece.isInner]

theorem isInner_condition : ∀ p ∈ Piece.space :: c.pieces, p.isInner := by
  simp [Condition.pieces, Identifier.piece, Piece.isInner]

theorem isInner_step : ∀ p ∈ Piece.space :: stepPieces target source step, p.isInner := by
  simp [stepPieces, Identifier.piece, Piece.isInner]

/-- No two semicolons of a loop stand together: after each there is a space and a clause, and no
clause starts with a semicolon. -/
theorem twinSemicolons?_clauses :
    twinSemicolons? 0 (textOf (clausePieces x start c target source step)) = none := by
  have hstep : ∃ d ds, textOf (stepPieces target source step) = d :: ds ∧ isBlank d = false := by
    obtain ⟨d, ds, htext, hd⟩ := Text.exists_head_of_isTrimmed target.isTrimmed
    exact ⟨d, _, by rw [stepPieces, textOf_cons, text_identifier, htext]; rfl, hd⟩
  obtain ⟨d, ds, hsecond, hd⟩ := Text.exists_head_of_isTrimmed c.isTrimmed
  obtain ⟨e, es, hthird, he⟩ := hstep
  have hcondition := isInert_textOf fun p hp => isInner_condition c p (List.mem_cons_of_mem _ hp)
  have hlast := isInert_textOf fun p hp =>
    isInner_step target source step p (List.mem_cons_of_mem _ hp)
  have hne {f : Char} {t : Text} (ht : ∀ g ∈ t, isInert g) (hf : f ∈ t) : f ≠ ';' := by
    rintro rfl
    exact absurd (ht _ hf) (by decide)
  -- clause by clause: over the clause, then over the semicolon before the next one
  obtain ⟨n₁, h₁⟩ := twinSemicolons?_clause (isInert_textOf (isInner_start x start)) 0
    (';' :: ' ' :: (textOf c.pieces ++ ';' :: ' ' :: textOf (stepPieces target source step)))
  obtain ⟨n₂, h₂⟩ := twinSemicolons?_semicolon hd (hne hcondition (by rw [hsecond]; simp)) n₁
    (ds ++ ';' :: ' ' :: textOf (stepPieces target source step))
  obtain ⟨n₃, h₃⟩ := twinSemicolons?_clause hcondition n₂
    (';' :: ' ' :: textOf (stepPieces target source step))
  obtain ⟨n₄, h₄⟩ := twinSemicolons?_semicolon he (hne hlast (by rw [hthird]; simp)) n₃ es
  obtain ⟨n₅, h₅⟩ := twinSemicolons?_clause hlast n₄ []
  rw [← List.cons_append, ← hsecond] at h₂
  rw [← hthird] at h₄
  rw [List.append_nil] at h₅
  rw [textOf_clauses]
  exact h₁.trans (h₂.trans (h₃.trans (h₄.trans h₅)))

/-- The first clause is a declaration, of which it was shown that nothing is found in it. -/
theorem firstClauseFindings_eq_nil (view : RuleView) (header : LoopHeader) :
    firstClauseFindings view header 0 (textOf (startPieces x start)) = [] := by
  have hvar : Text.opensWithWord "var".toList (textOf (startPieces x start)) = true := rfl
  have htrimmed : Text.isTrimmed (textOf (startPieces x start)) := by
    have htext : textOf (startPieces x start) =
        "var".toList ++ ([' '] ++ x.text ++ [' ', '=', ' ']) ++ start.text := by
      simp [startPieces, declarationPieces, Sign.text]
    have hkeyword : Text.isTrimmed "var".toList := by decide
    rw [htext]
    exact Text.isTrimmed_append hkeyword start.isTrimmed _
  have hstatement := varStatementFindings_eq_nil x (.number start) (.inl rfl) view
  rw [List.append_nil] at hstatement
  simp only [firstClauseFindings, Text.coreSpan_of_isTrimmed htrimmed, Text.dropBytes_zero, hvar,
    if_true, Text.between_whole]
  exact hstatement _

/-- The second clause is a condition behind a space. -/
theorem secondClauseFindings_eq_nil (header : LoopHeader) (offset : Nat)
    (rest : List (Nat × Text)) :
    secondClauseFindings header ((offset, textOf (.space :: c.pieces)) :: rest) = [] := by
  have hspace : Text.isAllBlank [' '] := by decide
  rw [secondClauseFindings]
  split
  · rfl
  · exact conditionTextFindings_eq_nil c hspace _ _

/-- **Nothing is found in a loop with clauses.** There are three of them, and each is of the kind
that is asked for. -/
theorem clauseFindings_eq_nil (view : RuleView) (indent : Text) :
    let inner := clausePieces x start c target source step
    (topLevelParts ';' (textOf inner)).length ≠ 1 ∧
      clauseFindings view (loopHeaderOf indent inner) (topLevelParts ';' (textOf inner)) = [] := by
  intro inner
  obtain ⟨offset, offset', hparts⟩ := topLevelParts_clauses
    (isInert_textOf (isInner_start x start)) (isInert_textOf (isInner_condition c))
    (isInert_textOf (isInner_step target source step))
  rw [← textOf_clauses] at hparts
  have htwin : twinSemicolons? 0 (loopHeaderOf indent inner).inner = none :=
    twinSemicolons?_clauses x start c target source step
  refine ⟨by rw [hparts]; simp, ?_⟩
  rw [hparts, clauseFindings, clauseCountFindings, htwin]
  simp only [firstClauseFindings_eq_nil, secondClauseFindings_eq_nil, List.append_nil]
  rfl

end Clauses

/-! ## 5. Loops over items -/

/-- A word other than the two is no separator, and the search goes on behind it. -/
theorem separatorFrom_word {word : Text} (hof : word ≠ "of".toList) (hin : word ≠ "in".toList)
    (offset : Nat) (rest : List Token) :
    separatorFrom 0 (⟨.name, word, offset⟩ :: rest) = separatorFrom 0 rest := by
  have hstep : Token.depthStep ⟨.name, word, offset⟩ = 0 := rfl
  have hnotOf : Token.isWord ⟨.name, word, offset⟩ "of" = false := by
    simp only [Token.isWord, hof]
    rfl
  have hnotIn : Token.isWord ⟨.name, word, offset⟩ "in" = false := by
    simp only [Token.isWord, hin]
    rfl
  simp [separatorFrom, hstep, hnotOf, hnotIn]

/-- The separator that is found is the colon. The words before it are identifiers or `var`, and so
neither of the two. -/
theorem separatorFrom_items (x items : Identifier) (offset : Nat) :
    ∃ separator, separatorFrom 0 (tokensOf offset (itemPieces x items)) = some separator ∧
      separator.kind = .colon := by
  have hkeyword (n : Nat) (rest : List Token) :
      separatorFrom 0 (⟨.name, "var".toList, n⟩ :: rest) = separatorFrom 0 rest :=
    separatorFrom_word (by decide) (by decide) n rest
  have hname (n : Nat) (rest : List Token) :=
    separatorFrom_word (x.ne_of_mem (by decide)) (x.ne_of_mem (by decide)) n rest
  exact ⟨_, (hkeyword _ _).trans ((hname _ _).trans rfl), rfl⟩

/-- **Nothing is found in a loop over items.** It has no semicolon, so it is not read as clauses;
its separator is a colon, and a `var` stands before its variable. -/
theorem itemLoopFindings_eq_nil (x items : Identifier) (indent : Text) (offset : Nat) :
    (topLevelParts ';' (textOf (itemPieces x items))).length = 1 ∧
      itemLoopFindings (loopHeaderOf indent (itemPieces x items))
        (tokensOf offset (itemPieces x items)) = [] := by
  have hinner : ∀ p ∈ itemPieces x items, p.isInner := by
    simp [itemPieces, Identifier.piece, Piece.keyword, Piece.isInner]
  constructor
  · rw [topLevelParts, splitFrom_last (isInert_textOf hinner)]
    rfl
  · have htrimmed : Text.isTrimmed (textOf (itemPieces x items)) := by
      have htext : textOf (itemPieces x items) =
          "var".toList ++ ([' '] ++ x.text ++ [' ', ':', ' ']) ++ items.text := by
        simp [itemPieces, Mark.char]
      have hkeyword : Text.isTrimmed "var".toList := by decide
      rw [htext]
      exact Text.isTrimmed_append hkeyword items.isTrimmed _
    have hvar : Text.opensWithWord "var".toList (textOf (itemPieces x items)) = true := rfl
    obtain ⟨separator, hseparator, hcolon⟩ := separatorFrom_items x items offset
    simp only [itemLoopFindings, hseparator, hcolon, loopHeaderOf,
      Text.coreSpan_of_isTrimmed htrimmed, Text.dropBytes_zero, hvar, if_true]
    rfl

/-! ## 6. The rule about loops -/

/-- **The rule about loops is silent.** The two forms of loops are brought to their headers; all
other lines start with another word. -/
theorem loopFindings_eq_nil {view : RuleView} {l : ProgramLine} (hcode : view.code = l.code) :
    loopFindings view = [] := by
  have htokens := tokens_programLine hcode
  cases hform : l.form with
  | countLoop x start c target source step =>
    have h : Bracketed view l.indent forPieces
        (clausePieces x start c target source step) [.space, .mark (.opener .curly)] :=
      bracketed_programLine hcode
        (by rw [hform]; simp [Form.pieces, headerPieces, blockPieces, clausePieces, startPieces,
          stepPieces])
        (by simp [clausePieces, startPieces, stepPieces, declarationPieces, Condition.pieces,
          Identifier.piece, Piece.keyword, Piece.isRound])
    obtain ⟨hcount, hnil⟩ := clauseFindings_eq_nil x start c target source step view l.indent
    rw [loopFindings_header h, if_neg hcount, hnil]
  | itemLoop x items =>
    have h : Bracketed view l.indent forPieces (itemPieces x items)
        [.space, .mark (.opener .curly)] :=
      bracketed_programLine hcode (by rw [hform]; rfl)
        (by simp [itemPieces, Identifier.piece, Piece.keyword, Piece.isRound])
    obtain ⟨hcount, hnil⟩ := itemLoopFindings_eq_nil x items l.indent
      (openerOf l.indent forPieces).stop
    rw [loopFindings_header h, if_pos hcount, hnil]
  | assign x v =>
    rw [hform] at htokens
    -- an identifier is no keyword
    have hword : Token.isWord ⟨.name, x.text, Text.byteSize l.indent⟩ "for" = false :=
      x.isWord_eq_false (by decide) _
    rw [loopFindings, htokens]
    exact if_neg (Bool.eq_false_iff.mp hword)
  | declare | branch | otherwise | whileLoop | doLoop | doEnd | function | close =>
    rw [hform] at htokens
    rw [loopFindings, htokens]
    rfl

end MacroScript
