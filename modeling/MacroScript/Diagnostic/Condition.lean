import MacroScript.Diagnostic.Basic
import MacroScript.Diagnostic.Comparison
import MacroScript.Token.Group

/-!
# Conditions

The text between the brackets of `if`, `else if` and `while`, and the second clause of a `for`
header. A condition can be constant, can compare with an operator that is spelled wrongly, can lack
an operand or can compare a value with itself. A condition is followed by a block, or by nothing on
its line.
-/
namespace MacroScript

/-! ## Constant conditions -/

/-- The text without a minus sign at its start. -/
def dropMinus (t : Text) : Text :=
  if t.head? = some '-' then t.drop 1 else t

/-- A condition that always holds: `true`, or a whole number other than zero without leading zeros.
-/
def isAlwaysTrue (t : Text) : Bool :=
  t = "true".toList ||
    match dropMinus t with
    | [] => false
    | c :: cs => c.isDigit && c != '0' && cs.all Char.isDigit

/-- A condition that never holds: `false`, `null`, the empty string, or zero. -/
def isAlwaysFalse (t : Text) : Bool :=
  t = "false".toList || t = "null".toList || t = "\"\"".toList ||
    (!(dropMinus t).isEmpty && (dropMinus t).all (· == '0'))

/-- Report a constant condition. -/
def constantFindings (site : ConditionSite) (base : Nat) (condition : Text) : List Finding :=
  let stop := base + Text.byteSize condition
  if isAlwaysTrue condition then [⟨base, stop, .alwaysTrue site⟩]
  else if isAlwaysFalse condition then [⟨base, stop, .alwaysFalse site⟩]
  else []

/-! ## Operators -/

/-- The operators that are spelled wrongly, with the issue of each. -/
def misspelledOperators (site : ConditionSite) : List (List Text × Issue) :=
  [(["=".toList], .singleEquals site),
   (["!>".toList], .bangGreater),
   (["!<".toList], .bangLess),
   (["=!".toList], .equalsBang),
   (["<=!".toList, ">=!".toList, "<!".toList, ">!".toList], .trailingBang)]

/-- Report an operator that is spelled wrongly, at its first occurrence in the condition. -/
def spellingFindings (site : ConditionSite) (base : Nat) (condition : Text) : List Finding :=
  match Comparison.ofText? condition with
  | none => []
  | some comparison =>
    (misspelledOperators site).filterMap fun (spellings, issue) =>
      if spellings.contains comparison.operator then
        let (start, size) := (firstOf? spellings 0 condition).getD (0, Text.byteSize condition)
        some ⟨base + start, base + start + size, issue⟩
      else none

/-- Report an operator that lacks an operand. -/
def operandFindings (base : Nat) (condition : Text) : List Finding :=
  match danglingOperator? condition with
  | some (start, operator) =>
    [⟨base + start, base + start + Text.byteSize operator, .missingOperand operator⟩]
  | none => []

/-- Report a comparison of a value with itself. Two string literals are not compared this way. -/
def selfComparisonFindings (base : Nat) (condition : Text) : List Finding :=
  match Comparison.ofText? condition with
  | none => []
  | some comparison =>
    if comparisonOperators.contains comparison.operator && comparison.left == comparison.right &&
        comparison.left.head? != some '"' then
      [⟨base, base + Text.byteSize condition, .selfComparison⟩]
    else []

/-- Check a condition. Its text starts at byte `base` of the line and may have white space around
it. -/
def conditionTextFindings (site : ConditionSite) (base : Nat) (t : Text) : List Finding :=
  let (start, stop) := Text.coreSpan t
  let condition := Text.between start stop t
  let base := base + start
  constantFindings site base condition ++ spellingFindings site base condition ++
    operandFindings base condition ++ selfComparisonFindings base condition

/-! ## Headers with a condition -/

/-- The tokens without a closing brace and an `else` at their start. -/
def skipElse (tokens : List Token) : List Token :=
  let tokens := if tokens.head?.any fun t => t.kind = .closer .curly then tokens.drop 1 else tokens
  if tokens.head?.any fun t => t.isWord "else" then tokens.drop 1 else tokens

/-- The `while` of the line belongs to a `do` block that is closed on this line, or on the code line
above if that holds nothing but its brace. -/
def endsDoWhile (view : RuleView) : Bool :=
  view.table.endsDoBlockOn view.line.index ||
    view.previous.any fun l => Text.trim l.code = ['}'] && view.table.endsDoBlockOn l.index

/-- Something other than a block follows byte `offset` of the code. -/
def strayFollows (view : RuleView) (offset : Nat) : Bool :=
  let rest := view.rest offset
  !rest.isEmpty && !(['{'].isPrefixOf rest)

/-- Check a header: its keyword, the brackets of its condition, and the condition between them. -/
def conditionHeaderFindings (view : RuleView) (site : ConditionSite)
    (keyword opener closer : Token) : List Finding :=
  let condition := Text.between opener.stop closer.offset view.code
  let stray := strayFollows view closer.stop && !(site = .whileLoop && endsDoWhile view)
  let braces := if stray then [⟨keyword.offset, view.codeEnd, .missingBraces⟩] else []
  if Text.isAllBlank condition then ⟨keyword.offset, closer.stop, .emptyCondition⟩ :: braces
  else braces ++ conditionTextFindings site opener.stop condition

/-- Check a line that starts with `do`, `if` or `while`, after an `else` if there is one. -/
def conditionFindings (view : RuleView) : List Finding :=
  match skipElse view.tokens with
  | [] => []
  | keyword :: rest =>
    if keyword.isWord "do" then
      if strayFollows view keyword.stop then [⟨keyword.offset, view.codeEnd, .missingBraces⟩]
      else []
    else if keyword.isWord "if" || keyword.isWord "while" then
      let site : ConditionSite := if keyword.isWord "if" then .branch else .whileLoop
      match rest.head?, (Token.partner? rest 0).bind (rest[·]?) with
      | some opener, some closer =>
        if opener.kind = .opener .round then conditionHeaderFindings view site keyword opener closer
        else []
      | _, _ => []
    else []

end MacroScript
