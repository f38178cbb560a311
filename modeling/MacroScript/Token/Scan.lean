import MacroScript.Token.Basic

/-!
# Reading tokens

A line is read from left to right. White space separates tokens; the first character of a token
decides its kind, and the kind decides how far it goes. Nothing is refused: a character that fits no
class is a token by itself, and a string literal without its closing quote goes to the end of the
line.
-/
namespace MacroScript

namespace Token

/-- The rest of a string literal opened by `quote`, up to and including its closing quote. -/
def stringTail (quote : Char) : Bool → Text → Text
  | _, [] => []
  | true, c :: cs => c :: stringTail quote false cs
  | false, c :: cs =>
    if c = '\\' then c :: stringTail quote true cs
    else if c = quote then [c]
    else c :: stringTail quote false cs

/-- The rest of a number: digits, and points with a digit right after them. -/
def numberTail : Text → Text
  | [] => []
  | c :: cs =>
    if isAsciiDigit c || (c = '.' && cs.head?.any isAsciiDigit) then c :: numberTail cs else []

/-- The characters of `cs` that belong to a token of the given kind starting with `c`. -/
def tail (kind : Kind) (c : Char) (cs : Text) : Text :=
  match kind with
  | .string => stringTail c false cs
  | .number => numberTail cs
  | .name => cs.takeWhile isNameChar
  | .operator => cs.takeWhile isOperatorSign
  | _ => []

/-- The tokens of a text whose first character stands at byte `offset` of its line. -/
def scanFrom (offset : Nat) : Text → List Token
  | [] => []
  | c :: cs =>
    if isBlank c then scanFrom (offset + c.utf8Size) cs
    else
      let kind := kindOf c
      let rest := tail kind c cs
      ⟨kind, c :: rest, offset⟩ ::
        scanFrom (offset + c.utf8Size + Text.byteSize rest) (cs.drop rest.length)
termination_by t => t.length
decreasing_by
  all_goals simp only [List.length_cons, List.length_drop]; omega

/-- The tokens of a line of code. -/
def scan (code : Text) : List Token :=
  scanFrom 0 code

end Token

end MacroScript
