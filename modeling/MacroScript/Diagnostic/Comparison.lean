import MacroScript.Text.Basic

/-!
# Comparisons

The conditions that the analysis understands have two operands with an operator between them. An
operand is a string literal or a dotted or indexed name, and none of its characters is an operator
character, so a text is a comparison in at most one way.
-/
namespace MacroScript

/-- A character of a name or number used as an operand. -/
def isOperandChar (c : Char) : Bool :=
  isAsciiNameChar c || c == '.' || c == '[' || c == ']'

/-- A character of a comparison operator, well spelled or not. -/
def isComparisonChar (c : Char) : Bool :=
  c == '=' || c == '!' || c == '<' || c == '>'

/-- The operand at the start of a text, and what follows it. -/
def readOperand? (t : Text) : Option (Text × Text) :=
  match t with
  | '"' :: cs =>
    let inner := cs.takeWhile (· != '"')
    match cs.drop inner.length with
    | [] => none
    | quote :: rest => some ('"' :: inner ++ [quote], rest)
  | _ =>
    let name := t.takeWhile isOperandChar
    if name.isEmpty then none else some (name, t.drop name.length)

/-- Two operands and what stands between them, white space aside. -/
structure Comparison where
  left : Text
  operator : Text
  right : Text
deriving DecidableEq, Repr

/-- The text as a comparison. -/
def Comparison.ofText? (t : Text) : Option Comparison := do
  let (left, rest) ← readOperand? t
  let rest := Text.trimStart rest
  let operator := rest.takeWhile isComparisonChar
  let (right, rest) ← readOperand? (Text.trimStart (rest.drop operator.length))
  if rest.isEmpty && !operator.isEmpty then some ⟨left, operator, right⟩ else none

/-- The comparison operators of the language. A longer one stands before the shorter one that starts
it. -/
def comparisonOperators : List Text :=
  ["==".toList, "!=".toList, "<=".toList, ">=".toList, "<".toList, ">".toList]

/-- The byte offset and the size of the first place where one of the words stands. -/
def firstOf? (words : List Text) (offset : Nat) : Text → Option (Nat × Nat)
  | [] => none
  | c :: cs =>
    match words.find? fun word => word.isPrefixOf (c :: cs) with
    | some word => some (offset, Text.byteSize word)
    | none => firstOf? words (offset + c.utf8Size) cs

/-- The operator with which the text ends, and its byte offset: the longest end that is an operator.
-/
def trailingOperator? (offset : Nat) : Text → Option (Nat × Text)
  | [] => none
  | c :: cs =>
    if comparisonOperators.contains (c :: cs) then some (offset, c :: cs)
    else trailingOperator? (offset + c.utf8Size) cs

/-- The operator that lacks an operand, and its byte offset: the one the text starts with, else the
one it ends with. -/
def danglingOperator? (t : Text) : Option (Nat × Text) :=
  match comparisonOperators.find? fun operator => operator.isPrefixOf t with
  | some operator => some (0, operator)
  | none => trailingOperator? 0 t

end MacroScript
