import MacroScript.Text.Basic

/-!
# String literals in a text

A scan that has to know whether it stands inside a string literal carries this one piece of state. A
literal ends at the quote that opened it, unless a backslash stands right before it. Which
characters open a literal depends on the reader, so that set is a parameter of the step.
-/
namespace MacroScript

/-- Where a scan stands: outside every string literal, or inside one opened by `quote`, with
`escaped` set right after a backslash. -/
inductive Quoting where
  | outside
  | inside (quote : Char) (escaped : Bool)
deriving DecidableEq, Repr

/-- Any of the three quotes that open a string literal. -/
def isQuote (c : Char) : Bool :=
  c == '"' || c == '\'' || c == '`'

/-- The quote of the strings that the language has. -/
def isDoubleQuote (c : Char) : Bool :=
  c == '"'

namespace Quoting

/-- The state after one more character. -/
def next (opens : Char → Bool) : Quoting → Char → Quoting
  | outside, c => if opens c then inside c false else outside
  | inside q true, _ => inside q false
  | inside q false, c =>
    if c = '\\' then inside q true else if c = q then outside else inside q false

/-- The state past a text. -/
def past (opens : Char → Bool) (q : Quoting) (t : Text) : Quoting :=
  t.foldl (next opens) q

/-- The scan stands inside a literal. -/
def isInside : Quoting → Bool
  | outside => false
  | inside _ _ => true

end Quoting

/-- The text ends inside a string literal that is still open. -/
def Text.endsInString (t : Text) : Bool :=
  (Quoting.outside.past isQuote t).isInside

end MacroScript
