import MacroScript.Text.Basic

/-!
# Columns, positions and ranges

A place in a document as editors give it: a line and a column, both from zero and both 32-bit words.
People read them from one.

Editors count columns in UTF-16 units: one for a character of the basic plane, two for any other.
The two conversions between columns and byte offsets are total. A byte offset inside a character
counts as the character's start; a column inside a character counts as the character's end, and one
past the text as its end.
-/
namespace MacroScript

/-! ## Columns -/

/-- The number of UTF-16 units of a character. -/
def utf16Size (c : Char) : Nat :=
  if c.toNat < 0x10000 then 1 else 2

namespace Text

/-- The number of UTF-16 units of a text. -/
def utf16Length : Text → Nat
  | [] => 0
  | c :: cs => utf16Size c + utf16Length cs

/-- The shortest part from the start that takes at least `n` units, or all of the text. -/
def takeUnits : Nat → Text → Text
  | 0, _ => []
  | _ + 1, [] => []
  | n + 1, c :: cs => c :: takeUnits (n + 1 - utf16Size c) cs

/-- The column at byte `offset` of a line, as a 32-bit word. -/
def columnOf (line : Text) (offset : Nat) : UInt32 :=
  (utf16Length (takeBytes offset line)).toUInt32

/-- The byte offset of `column` in a line. -/
def offsetOf (line : Text) (column : UInt32) : Nat :=
  byteSize (takeUnits column.toNat line)

end Text

/-! ## Positions -/

/-- A line and a column in it, in UTF-16 units. -/
structure Position where
  line : UInt32
  character : UInt32
deriving DecidableEq, Repr

namespace Position

/-- Document order: by line, then by column. -/
def compare (p q : Position) : Ordering :=
  (Ord.compare p.line q.line).then (Ord.compare p.character q.character)

/-- The position as people read it, `line:column` from one. -/
def display (p : Position) : String :=
  toString (p.line.toNat + 1) ++ ":" ++ toString (p.character.toNat + 1)

end Position

/-- The stretch from `start` up to `stop`. -/
structure Range where
  start : Position
  stop : Position
deriving DecidableEq, Repr

/-- The range as people read it. A range within one line names the line once. -/
def Range.display (r : Range) : String :=
  if r.start.line = r.stop.line then
    r.start.display ++ "-" ++ toString (r.stop.character.toNat + 1)
  else
    r.start.display ++ "-" ++ r.stop.display

end MacroScript
