import MacroScript.Text.Basic

/-!
# Issues

Everything that the analysis can find fault with, as a closed list of causes. What an issue says to
the reader, and how severe it is, is decided here and nowhere else.
-/
namespace MacroScript

/-- How much a diagnostic matters. -/
inductive Severity where
  | warning
  | error
deriving DecidableEq, Repr

/-- Where a condition stands. Loops are stricter about constant conditions. -/
inductive ConditionSite where
  | branch
  | whileLoop
  | forClause
deriving DecidableEq, Repr

/-- What a header declares. -/
inductive HeaderKind where
  | function
  | classDefinition
deriving DecidableEq, Repr

/-- An operator that the language does not have. -/
inductive ForeignOperator where
  | doubleAnd
  | doubleOr
  | tripleEquals
  | notDoubleEquals
  | plusEquals
  | minusEquals
  | powerEquals
  | timesEquals
  | overEquals
  | increment
  | decrement
deriving DecidableEq, Repr

namespace ForeignOperator

/-- The foreign operators. A longer one stands before the shorter ones that it contains. -/
def all : List ForeignOperator :=
  [doubleAnd, doubleOr, tripleEquals, notDoubleEquals, plusEquals, minusEquals, powerEquals,
    timesEquals, overEquals, increment, decrement]

/-- How the operator is written. -/
def spelling : ForeignOperator → String
  | doubleAnd => "&&"
  | doubleOr => "||"
  | tripleEquals => "==="
  | notDoubleEquals => "!=="
  | plusEquals => "+="
  | minusEquals => "-="
  | powerEquals => "**="
  | timesEquals => "*="
  | overEquals => "/="
  | increment => "++"
  | decrement => "--"

/-- What to write instead. -/
def advice : ForeignOperator → String
  | doubleAnd => "Use 'and' instead"
  | doubleOr => "Use 'or' instead"
  | tripleEquals =>
    "Three equal signes are not supported. Use '==' instead with type checking or compiling"
  | notDoubleEquals =>
    "Three equal signes are not supported. Use '!=' instead with type checking or compiling"
  | plusEquals =>
    "Such increment is not supported. Declare the variable and increase it then.\n" ++
      "For example: i = i + 1"
  | minusEquals =>
    "Such decrement is not supported. Declare the variable and decrease it then.\n" ++
      "For example: i = i - 1"
  | powerEquals =>
    "You can't raise a value by this way. Write it in standard way:\n" ++ "i = i * i * i... * n"
  | timesEquals =>
    "Such multiplication is not supported. Declare the variable and multiply it then.\n" ++
      "For example: i = i * 2"
  | overEquals =>
    "Such division is not supported. Declare the variable and divide it then.\n" ++
      "For example: i = i / 2"
  | increment => "This increment is not supported."
  | decrement => "This decrement is not supported."

end ForeignOperator

/-- What a header declares, in the words of a message. -/
def HeaderKind.noun : HeaderKind → String
  | function => "function"
  | classDefinition => "class"

/-- A fault that the analysis can find. -/
inductive Issue where
  | missingSemicolon
  | loneVar
  | letKeyword
  | constKeyword
  | variableName
  | missingValue
  | objectValue
  | functionValue
  | undefinedValue
  | singleQuotedValue
  | unknownValue
  | selfDeclaration
  | selfAssignment
  | undeclaredAssignment
  | foreignOperator (operator : ForeignOperator)
  | foreignQuotes
  | missingBraces
  | emptyCondition
  | alwaysTrue (site : ConditionSite)
  | alwaysFalse (site : ConditionSite)
  | singleEquals (site : ConditionSite)
  | bangGreater
  | bangLess
  | equalsBang
  | trailingBang
  | missingOperand (operator : Text)
  | selfComparison
  | functionKeyword
  | loneHeader
  | skippedName (header : HeaderKind)
  | headerName (header : HeaderKind)
  | missingBlock
  | loneFor
  | missingClauses
  | wrongSeparator (word : Text)
  | undeclaredLoopVariable
  | doubledSemicolon
  | trailingSemicolon
  | tooManyClauses
  | skippedDeclaration
deriving DecidableEq, Repr

namespace Issue

/-- How severe the issue is. -/
def severity : Issue → Severity
  | missingSemicolon => .warning
  | selfAssignment => .warning
  | alwaysTrue .branch => .warning
  | alwaysFalse _ => .warning
  | skippedDeclaration => .warning
  | _ => .error

/-- The rule for names, as it ends a message about one. -/
def nameRule : String :=
  "It can include only text characters, numbers or '_' and must starts with text character"

/-- What the issue says to the reader. -/
def message : Issue → String
  | missingSemicolon => "It's better to end strings with semicolon"
  | loneVar => "Single declaration keyword"
  | letKeyword =>
    "'let' declaration isn't supported. Use 'var' instead - it has the same properties."
  | constKeyword => "'const' declaration isn't supported. Use 'var' instead"
  | variableName => "Incorrect variable name. " ++ nameRule
  | missingValue => "You must assign a value"
  | objectValue => "Macrorify syntax doesn't support objects in this format. Use Map instead."
  | functionValue => "Variable can't contain function as value"
  | undefinedValue => "Macrorify syntax doesn't support undefined"
  | singleQuotedValue => "Macrorify syntax supports double quotes only"
  | unknownValue =>
    "Incorrect data type assigned. " ++
      "It's not variable, keyword, boolean, string, number, array or null."
  | selfDeclaration => "Incorrect value assigned on declaration"
  | selfAssignment => "Changing variable value to the same value"
  | undeclaredAssignment => "Variable is not declared"
  | foreignOperator operator => operator.advice
  | foreignQuotes => "Unsupported quotes"
  | missingBraces => "Statement requires braces after condition"
  | emptyCondition => "Empty condition"
  | alwaysTrue .branch => "Condition is always true and doesn't have any sense"
  | alwaysTrue .whileLoop => "Condition is always true and will cause infinity loop"
  | alwaysTrue .forClause => "Condition is always true. It will cause infinity loop"
  | alwaysFalse .forClause => "Condition is always false and the loop will never be executed"
  | alwaysFalse _ => "Condition is always false and will never be executed"
  | singleEquals .forClause => "'=' or '!' expected"
  | singleEquals _ => "'=' or '!' excepted."
  | bangGreater => "Use <= instead"
  | bangLess => "Use >= instead"
  | equalsBang => "Move '!' before '='"
  | trailingBang => "Operators are fully incorrect"
  | missingOperand operator => "Comparison '" ++ String.ofList operator ++ "' is missing an operand"
  | selfComparison => "Comparing a value with itself"
  | functionKeyword => "You must declare the function by 'fun' keyword instead"
  | loneHeader => "Single keyword"
  | skippedName header => "Skipped " ++ header.noun ++ " name"
  | headerName header => "Incorrect " ++ header.noun ++ " name. " ++ nameRule
  | missingBlock => "Block declaration expected"
  | loneFor => "Single 'for' keyword"
  | missingClauses => "First two clauses must end with semicolon"
  | wrongSeparator word => "Use ':' instead of '" ++ String.ofList word ++ "'"
  | undeclaredLoopVariable => "Loop variable must be declared by 'var' keyword"
  | doubledSemicolon => "Clauses must end with only one semicolon"
  | trailingSemicolon => "Last clause mustn't end with semicolon"
  | tooManyClauses => "A loop header takes exactly three clauses"
  | skippedDeclaration => "Seems skipped variable declaration"

end Issue

end MacroScript
