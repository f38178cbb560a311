import MacroScript.Text.Quoting

/-!
# Top-level parts

A text is cut at a separator wherever it stands outside string literals and with no bracket open. A
closing bracket that was never opened lowers the depth below zero and does not protect what follows.
When the separator is the point, the point inside a number is not a cut.
-/
namespace MacroScript

/-- What a character adds to the bracket depth. All kinds of brackets count alike. -/
def bracketStep (c : Char) : Int :=
  if c = '(' || c = '[' || c = '{' then 1
  else if c = ')' || c = ']' || c = '}' then -1
  else 0

/-- The point between `before`, given from right to left, and `after` is part of a number: digits
stand on both sides, and the word before it is all digits. -/
def isPointOfNumber (before after : Text) : Bool :=
  before.head?.any Char.isDigit && after.head?.any Char.isDigit &&
    (before.takeWhile isAsciiNameChar).all Char.isDigit

/-- The character `c` is a separator to cut at, at the given depth outside literals, with `before`
to its left, from right to left, and `after` to its right. -/
def isCut (sep : Char) (depth : Int) (before : Text) (c : Char) (after : Text) : Bool :=
  !isQuote c && bracketStep c = 0 && c = sep && depth ≤ 0 &&
    !(sep = '.' && isPointOfNumber before after)

/-- The parts of the rest of a text, from a place with the given depth and quoting and with `before`
to its left, from right to left. -/
def splitFrom (sep : Char) : Int → Quoting → Text → Text → List Text
  | _, _, _, [] => [[]]
  | depth, .outside, before, c :: cs =>
    let parts :=
      splitFrom sep (depth + bracketStep c) (Quoting.outside.next isQuote c) (c :: before) cs
    if isCut sep depth before c cs then [] :: parts else parts.modifyHead (List.cons c)
  | depth, .inside q e, before, c :: cs =>
    (splitFrom sep depth ((Quoting.inside q e).next isQuote c) (c :: before) cs).modifyHead
      (List.cons c)

/-- Give each part its byte offset, the first one standing at `offset`. -/
def locateParts (sep : Char) (offset : Nat) : List Text → List (Nat × Text)
  | [] => []
  | part :: parts =>
    (offset, part) :: locateParts sep (offset + Text.byteSize part + sep.utf8Size) parts

/-- The top-level parts of a text, each with its byte offset. -/
def topLevelParts (sep : Char) (t : Text) : List (Nat × Text) :=
  locateParts sep 0 (splitFrom sep 0 .outside [] t)

end MacroScript
