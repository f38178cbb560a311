import MacroScript.Diagnostic.Condition
import MacroScript.Diagnostic.Declaration
import MacroScript.Token.Group
import MacroScript.Token.Split

/-!
# Loop headers

A `for` header has three clauses, `for (var i = 0; condition; step)`, or goes over items, `for (var
x : items)`. A header whose brackets hold no top-level semicolon is read as the second form.
-/
namespace MacroScript

/-- A `for` header taken apart: the keyword, the byte span of its brackets, and what stands between
them with the byte offset of its start. A header that is not closed goes to the end of the code. -/
structure LoopHeader where
  keyword : Token
  start : Nat
  stop : Nat
  base : Nat
  inner : Text
deriving DecidableEq, Repr

/-! ## Loops over items -/

/-- Check a loop over items. The tokens are those between its brackets. -/
def itemLoopFindings (header : LoopHeader) (tokens : List Token) : List Finding :=
  match separatorFrom 0 tokens with
  | none => [⟨header.start, header.stop, .missingClauses⟩]
  | some separator =>
    let (start, stop) := Text.coreSpan header.inner
    let wrong :=
      if separator.kind = .colon then []
      else [⟨separator.offset, separator.stop, .wrongSeparator separator.text⟩]
    let undeclared :=
      if Text.opensWithWord "var".toList (Text.dropBytes start header.inner) then []
      else [⟨header.base + start, header.base + stop, .undeclaredLoopVariable⟩]
    wrong ++ undeclared

/-! ## Loops with clauses -/

/-- The byte span of the first two semicolons with nothing but white space between them. -/
def twinSemicolons? (offset : Nat) : Text → Option (Nat × Nat)
  | [] => none
  | c :: cs =>
    let blanks := cs.takeWhile isBlank
    if c = ';' && (cs.drop blanks.length).head? = some ';' then
      some (offset, offset + c.utf8Size + Text.byteSize blanks + 1)
    else twinSemicolons? (offset + c.utf8Size) cs

/-- Report a number of semicolons other than two. -/
def clauseCountFindings (header : LoopHeader) (clauses : List (Nat × Text)) : List Finding :=
  let doubled := twinSemicolons? 0 header.inner
  let whole (issue : Issue) : List Finding := [⟨header.start, header.stop, issue⟩]
  let count :=
    if clauses.length < 3 then whole .missingClauses
    else if clauses.length > 3 && doubled.isNone then
      match clauses.getLast? with
      | some (offset, last) =>
        if Text.isAllBlank last then
          [⟨header.base + offset - 1, header.base + offset, .trailingSemicolon⟩]
        else whole .tooManyClauses
      | none => whole .tooManyClauses
    else []
  match doubled with
  | some (start, stop) => ⟨header.base + start, header.base + stop, .doubledSemicolon⟩ :: count
  | none => count

/-- Check the first clause, which declares the loop variable. -/
def firstClauseFindings (view : RuleView) (header : LoopHeader) (offset : Nat) (clause : Text) :
    List Finding :=
  let (start, stop) := Text.coreSpan clause
  let base := header.base + offset
  if Text.opensWithWord "var".toList (Text.dropBytes start clause) then
    varStatementFindings view (Text.between start stop clause) (base + start)
  else if start < stop then [⟨base + start, base + stop, .skippedDeclaration⟩]
  else [⟨header.keyword.offset, header.keyword.stop, .skippedDeclaration⟩]

/-- Check the second clause, which is a condition unless it is empty. -/
def secondClauseFindings (header : LoopHeader) : List (Nat × Text) → List Finding
  | (offset, condition) :: _ =>
    if Text.isAllBlank condition then []
    else conditionTextFindings .forClause (header.base + offset) condition
  | [] => []

/-- Check a loop with clauses. -/
def clauseFindings (view : RuleView) (header : LoopHeader) (clauses : List (Nat × Text)) :
    List Finding :=
  clauseCountFindings header clauses ++
    match clauses with
    | [] => []
    | (offset, first) :: rest =>
      firstClauseFindings view header offset first ++ secondClauseFindings header rest

/-! ## Headers -/

/-- Check a header from its keyword, its opening bracket and the tokens after that. -/
def loopHeaderFindings (view : RuleView) (keyword opener : Token) (rest : List Token) :
    List Finding :=
  let close := Token.partner? (opener :: rest) 0
  let closer := close.bind ((opener :: rest)[·]?)
  let inside := match close with
    | some i => rest.take (i - 1)
    | none => rest
  let innerStop := match closer with
    | some t => t.offset
    | none => view.codeEnd
  let header : LoopHeader :=
    { keyword, start := opener.offset
      stop := match closer with
        | some t => t.stop
        | none => view.codeEnd
      base := opener.stop
      inner := Text.between opener.stop innerStop view.code }
  let clauses := topLevelParts ';' header.inner
  let body :=
    if clauses.length = 1 then itemLoopFindings header inside
    else clauseFindings view header clauses
  body ++ view.blockFindings closer

/-- Check the loop header of a line. -/
def loopFindings (view : RuleView) : List Finding :=
  match view.tokens with
  | [] => []
  | keyword :: rest =>
    if keyword.isWord "for" then
      match rest with
      | opener :: rest =>
        if opener.kind = .opener .round then loopHeaderFindings view keyword opener rest
        else [⟨keyword.offset, keyword.stop, .loneFor⟩]
      | [] => [⟨keyword.offset, keyword.stop, .loneFor⟩]
    else []

end MacroScript
