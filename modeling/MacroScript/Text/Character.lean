/-!
# Characters

Classes of characters that do not depend on the language. A Unicode property is a set of code
points, written down as closed intervals. The tables of intervals hold only what lies beyond ASCII:
the ASCII part of every class is written out by itself, so that a fact about ASCII text never has to
look into a table.
-/
namespace MacroScript

/-! ## Code point ranges -/

/-- Some interval of `table` holds the code point of `c`. -/
def inRanges (table : List (Nat × Nat)) (c : Char) : Bool :=
  table.any fun range => range.1 ≤ c.toNat && c.toNat ≤ range.2

/-- The character is one of the 128 of ASCII. -/
def isAscii (c : Char) : Bool :=
  c.toNat < 0x80

/-- A character of a name in ASCII: a letter, a digit or the underscore. -/
def isAsciiNameChar (c : Char) : Bool :=
  c.isAlphanum || c == '_'

/-! ## White space

The property `White_Space`: tab, line feed, vertical tab, form feed, carriage return and space in
ASCII, and the separators beyond it. Trimming, indentation and the gaps between tokens all mean this
one class. -/

/-- The white space beyond ASCII. -/
def blankRanges : List (Nat × Nat) :=
  [(0x85, 0x85), (0xA0, 0xA0), (0x1680, 0x1680), (0x2000, 0x200A), (0x2028, 0x2029),
   (0x202F, 0x202F), (0x205F, 0x205F), (0x3000, 0x3000)]

/-- White space. -/
def isBlank (c : Char) : Bool :=
  if isAscii c then c == ' ' || (0x09 ≤ c.toNat && c.toNat ≤ 0x0D) else inRanges blankRanges c

/-! ## Hexadecimal digits

The digits of base sixteen, written in either case and read in both. -/

/-- A hexadecimal digit, in lower case. -/
def hexDigit (n : Nat) : Char :=
  if n < 10 then Char.ofNat ('0'.toNat + n) else Char.ofNat ('a'.toNat + (n - 10))

/-- A hexadecimal digit, in upper case. -/
def upperHexDigit (n : Nat) : Char :=
  (hexDigit n).toUpper

/-- The value of a hexadecimal digit. -/
def hexValue? (c : Char) : Option Nat :=
  if c.isDigit then some (c.toNat - '0'.toNat)
  else if 'a' ≤ c && c ≤ 'f' then some (c.toNat - 'a'.toNat + 10)
  else if 'A' ≤ c && c ≤ 'F' then some (c.toNat - 'A'.toNat + 10)
  else none

end MacroScript
