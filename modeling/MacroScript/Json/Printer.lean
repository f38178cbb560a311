import MacroScript.Json.Basic
import MacroScript.Text.Character

/-!
# Writing JSON

Two forms. The compact one has no white space and fits on one line whatever its reader takes for a
line break; the indented one is for people. Both keep the order of fields, so a writer that promises
sorted keys lists them sorted.
-/
namespace MacroScript

namespace Json

/-- The escape of a character of the basic plane by its number. -/
def unicodeEscape (c : Char) : List Char :=
  let n := c.toNat
  ['\\', 'u', hexDigit (n / 4096 % 16), hexDigit (n / 256 % 16), hexDigit (n / 16 % 16),
    hexDigit (n % 16)]

/-- A character as it stands in a JSON string. Quotes, backslashes and control characters are always
escaped, other characters only if `alsoEscape` says so. -/
def escapeChar (alsoEscape : Char → Bool) (c : Char) : List Char :=
  if c = '"' then ['\\', '"']
  else if c = '\\' then ['\\', '\\']
  else if c = '\n' then ['\\', 'n']
  else if c = '\r' then ['\\', 'r']
  else if c = '\t' then ['\\', 't']
  else if c.toNat = 0x08 then ['\\', 'b']
  else if c.toNat = 0x0C then ['\\', 'f']
  else if c.toNat < 0x20 || alsoEscape c then unicodeEscape c
  else [c]

/-- A string with its quotes. -/
def quoted (alsoEscape : Char → Bool) (s : String) : String :=
  String.ofList ('"' :: s.toList.flatMap (escapeChar alsoEscape) ++ ['"'])

/-- A character that some readers take for a line break though it is no control character of ASCII.
-/
def isWideBreak (c : Char) : Bool :=
  c.toNat = 0x85 || c.toNat = 0x2028 || c.toNat = 0x2029

mutual

/-- The value on one line, without white space. -/
def compact : Json → String
  | .null => "null"
  | .bool b => if b then "true" else "false"
  | .integer n => toString n
  | .decimal literal => literal
  | .string s => quoted isWideBreak s
  | .array items => "[" ++ String.intercalate "," (compactItems items) ++ "]"
  | .object fields => "\x7b" ++ String.intercalate "," (compactFields fields) ++ "\x7d"

/-- The items of an array, each on one line. -/
def compactItems : List Json → List String
  | [] => []
  | item :: items => compact item :: compactItems items

/-- The fields of an object, each on one line. -/
def compactFields : List (String × Json) → List String
  | [] => []
  | (key, value) :: fields =>
    (quoted isWideBreak key ++ ":" ++ compact value) :: compactFields fields

end

/-- The start of a line at the given depth of nesting, two spaces for each level. -/
def margin (depth : Nat) : String :=
  String.ofList ('\n' :: List.replicate (2 * depth) ' ')

/-- Put rows between brackets, each row on a line of its own; no rows leave the brackets together.
-/
def indentedRows (open_ close_ : String) (depth : Nat) (rows : List String) : String :=
  if rows.isEmpty then open_ ++ close_
  else
    open_ ++ margin (depth + 1) ++ String.intercalate ("," ++ margin (depth + 1)) rows ++
      margin depth ++ close_

mutual

/-- The value with each item and field on a line of its own, at the given depth of nesting. -/
def indentedAt (depth : Nat) : Json → String
  | .null => "null"
  | .bool b => if b then "true" else "false"
  | .integer n => toString n
  | .decimal literal => literal
  | .string s => quoted (fun _ => false) s
  | .array items => indentedRows "[" "]" depth (indentedItems (depth + 1) items)
  | .object fields => indentedRows "\x7b" "\x7d" depth (indentedFields (depth + 1) fields)

/-- The items of an array at the given depth of nesting. -/
def indentedItems (depth : Nat) : List Json → List String
  | [] => []
  | item :: items => indentedAt depth item :: indentedItems depth items

/-- The fields of an object at the given depth of nesting. -/
def indentedFields (depth : Nat) : List (String × Json) → List String
  | [] => []
  | (key, value) :: fields =>
    (quoted (fun _ => false) key ++ ": " ++ indentedAt depth value) :: indentedFields depth fields

end

/-- The value with each item and field on a line of its own. -/
def indented (value : Json) : String :=
  indentedAt 0 value

end Json

end MacroScript
