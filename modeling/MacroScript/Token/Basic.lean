import MacroScript.Text.Numeral
import MacroScript.Text.Quoting

/-!
# Tokens

The smallest pieces of a line of code that carry meaning: names, numbers, string literals, brackets,
punctuation and runs of operator characters. A token keeps its own characters and the byte offset at
which it starts in its line.
-/
namespace MacroScript

/-- The three pairs of brackets. -/
inductive Bracket where
  | round
  | curly
  | square
deriving DecidableEq, Repr

/-- What a token is. -/
inductive Token.Kind where
  | name
  | number
  | string
  | opener (bracket : Bracket)
  | closer (bracket : Bracket)
  | dot
  | comma
  | semicolon
  | colon
  | operator
  | other
deriving DecidableEq, Repr

/-- A token of a line: its kind, its characters, and the byte offset of its start. -/
structure Token where
  kind : Token.Kind
  text : Text
  offset : Nat
deriving DecidableEq, Repr

namespace Token

/-- The byte offset of the token's end. -/
def stop (t : Token) : Nat :=
  t.offset + Text.byteSize t.text

/-- The token is the name or keyword `word`. -/
def isWord (t : Token) (word : String) : Bool :=
  t.kind = .name && t.text = word.toList

/-- The token is an opening bracket of any kind. -/
def isOpener (t : Token) : Bool :=
  match t.kind with
  | .opener _ => true
  | _ => false

/-- The token is a closing bracket of any kind. -/
def isCloser (t : Token) : Bool :=
  match t.kind with
  | .closer _ => true
  | _ => false

/-- A plain `=`, possibly run together with a unary operator after it, as in `=-1` and `=!flag`. The
assigned value starts one byte after the token does. -/
def assigns (t : Token) : Bool :=
  t.kind = .operator && ['='].isPrefixOf t.text && !(['=', '='].isPrefixOf t.text)

/-- The byte offset at which the value after an assignment starts. -/
def valueOffset (t : Token) : Nat :=
  t.offset + 1

end Token

/-! ## Character classes -/

/-- A character of an operator. -/
def isOperatorSign (c : Char) : Bool :=
  ['=', '!', '<', '>', '+', '-', '*', '/', '%', '&', '|', '^', '~', '?'].contains c

/-- A character that starts a name. -/
def isNameStart (c : Char) : Bool :=
  isLetter c || c == '_' || c == '$'

/-- A character that continues a name. -/
def isNameChar (c : Char) : Bool :=
  isLetterOrNumeral c || c == '_' || c == '$'

/-- The kind of a token that is a single character of punctuation. -/
def Token.punctuation (c : Char) : Token.Kind :=
  match c with
  | '(' => .opener .round
  | ')' => .closer .round
  | '{' => .opener .curly
  | '}' => .closer .curly
  | '[' => .opener .square
  | ']' => .closer .square
  | '.' => .dot
  | ',' => .comma
  | ';' => .semicolon
  | ':' => .colon
  | _ => .other

/-- The kind of the token that starts with `c`. Its first character decides it. -/
def Token.kindOf (c : Char) : Token.Kind :=
  if isQuote c then .string
  else if isAsciiDigit c then .number
  else if isNameStart c then .name
  else if isOperatorSign c then .operator
  else Token.punctuation c

end MacroScript
