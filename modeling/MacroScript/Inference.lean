import MacroScript.Shape
import MacroScript.Token.Split

/-!
# The tag of an expression

An expression is read in two steps. First every segment between its top-level points that is a known
name is replaced by the canonical expression of the name's tag, so that `r.find("x")` with a region
`r` becomes `Region().find("x")`. Then the first shape that fits decides.
-/
namespace MacroScript

/-- What is known about names. A name with no tag is left as it stands. -/
abbrev Names := Text → Option Tag

/-- The expression itself: without white space around it and without semicolons at its end. -/
def Text.expression (t : Text) : Text :=
  Text.trimEnd (Text.dropEndWhile (· == ';') (Text.trim t))

/-- The tag of the first shape that fits, with the rows of `table`. -/
def Tag.ofShape (table : List Shape) (t : Text) : Tag :=
  match table.find? fun shape => shape.accepts t with
  | some shape => shape.tag
  | none => .any

/-- The tag of an expression in which no name is left to look up. -/
def Tag.classify (t : Text) : Tag :=
  Tag.ofShape Shape.table (Text.expression t)

namespace Names

/-- One segment of a chain, replaced by the canonical expression of its tag if that is known. -/
def segment (names : Names) (t : Text) : Text :=
  match names (Text.trim t) with
  | some .any => Text.trim t
  | some tag => tag.canonical.toList
  | none => Text.trim t

/-- The expression with its known names replaced. -/
def substitute (names : Names) (t : Text) : Text :=
  List.intercalate ['.']
    ((topLevelParts '.' (Text.expression t)).map fun part => names.segment part.2)

/-- The tag of an expression under what is known about names. -/
def infer (names : Names) (t : Text) : Tag :=
  Tag.classify (names.substitute t)

end Names

end MacroScript
