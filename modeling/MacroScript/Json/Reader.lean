import MacroScript.Json.Basic
import MacroScript.Text.Basic
import MacroScript.Text.Character

/-!
# Reading JSON

A reader from the grammar, on characters. Every function takes a bound on its steps; the bound that
`Json.parse?` gives is twice the length of the text, and each character read spends at most two.
-/
namespace MacroScript

namespace Json

/-- The text after the white space that JSON allows between its tokens. -/
def skipSpace (t : Text) : Text :=
  t.dropWhile fun c => c = ' ' || c = '\t' || c = '\n' || c = '\r'

/-- Four hexadecimal digits. -/
def readHex? : Text → Option (Nat × Text)
  | a :: b :: c :: d :: rest => do
    let high := (← hexValue? a) * 16 + (← hexValue? b)
    let low := (← hexValue? c) * 16 + (← hexValue? d)
    return (high * 256 + low, rest)
  | _ => none

/-- The character after `\u`: one number, or two that make a surrogate pair. -/
def readUnicode? (t : Text) : Option (Char × Text) := do
  let (high, rest) ← readHex? t
  if 0xD800 ≤ high && high < 0xDC00 then
    match rest with
    | '\\' :: 'u' :: rest =>
      let (low, rest) ← readHex? rest
      if 0xDC00 ≤ low && low < 0xE000 then
        return (Char.ofNat (0x10000 + (high - 0xD800) * 0x400 + (low - 0xDC00)), rest)
      else none
    | _ => none
  else if 0xDC00 ≤ high && high < 0xE000 then none
  else return (Char.ofNat high, rest)

/-- The character after a backslash. -/
def readEscape? : Text → Option (Char × Text)
  | '"' :: rest => some ('"', rest)
  | '\\' :: rest => some ('\\', rest)
  | '/' :: rest => some ('/', rest)
  | 'b' :: rest => some (Char.ofNat 0x08, rest)
  | 'f' :: rest => some (Char.ofNat 0x0C, rest)
  | 'n' :: rest => some ('\n', rest)
  | 'r' :: rest => some ('\r', rest)
  | 't' :: rest => some ('\t', rest)
  | 'u' :: rest => readUnicode? rest
  | _ => none

/-- The rest of a string after its opening quote; `read` holds what was read so far, from right to
left. -/
def readString? : Nat → Text → Text → Option (String × Text)
  | 0, _, _ => none
  | _ + 1, _, [] => none
  | steps + 1, read, c :: cs =>
    if c = '"' then some (String.ofList read.reverse, cs)
    else if c = '\\' then
      match readEscape? cs with
      | some (escaped, rest) => readString? steps (escaped :: read) rest
      | none => none
    else if c.toNat < 0x20 then none
    else readString? steps (c :: read) cs

/-- The value of a run of digits. -/
def digitsValue (digits : Text) : Nat :=
  digits.foldl (fun n c => n * 10 + (c.toNat - '0'.toNat)) 0

/-- The characters of a number, and what follows it. -/
def readNumber? (t : Text) : Option (Json × Text) := do
  let literal := t.takeWhile fun c =>
    c.isDigit || c = '-' || c = '+' || c = '.' || c = 'e' || c = 'E'
  let rest := t.drop literal.length
  let negative := literal.head? = some '-'
  let digits := if negative then literal.drop 1 else literal
  if digits.isEmpty then none
  else if digits.all Char.isDigit then
    let n := digitsValue digits
    if negative then
      if n = 0 || 0x8000000000000000 < n then return (.decimal (String.ofList literal), rest)
      else return (.integer (-(n : Int)), rest)
    else if n ≤ 0xFFFFFFFFFFFFFFFF then return (.integer n, rest)
    else return (.decimal (String.ofList literal), rest)
  else if digits.head?.any Char.isDigit then return (.decimal (String.ofList literal), rest)
  else none

mutual

/-- A value and what follows it. -/
def readValue? : Nat → Text → Option (Json × Text)
  | 0, _ => none
  | steps + 1, t =>
    match skipSpace t with
    | 'n' :: 'u' :: 'l' :: 'l' :: rest => some (.null, rest)
    | 't' :: 'r' :: 'u' :: 'e' :: rest => some (.bool true, rest)
    | 'f' :: 'a' :: 'l' :: 's' :: 'e' :: rest => some (.bool false, rest)
    | '"' :: rest => (readString? (rest.length + 1) [] rest).map fun (s, rest) => (.string s, rest)
    | '[' :: rest =>
      match skipSpace rest with
      | ']' :: rest => some (.array [], rest)
      | rest => (readItems? steps rest).map fun (items, rest) => (.array items, rest)
    | '{' :: rest =>
      match skipSpace rest with
      | '}' :: rest => some (.object [], rest)
      | rest => (readFields? steps rest).map fun (fields, rest) => (.object fields, rest)
    | rest => readNumber? rest

/-- The items of an array up to its closing bracket. -/
def readItems? : Nat → Text → Option (List Json × Text)
  | 0, _ => none
  | steps + 1, t =>
    match readValue? steps t with
    | none => none
    | some (item, rest) =>
      match skipSpace rest with
      | ',' :: rest => (readItems? steps rest).map fun (items, rest) => (item :: items, rest)
      | ']' :: rest => some ([item], rest)
      | _ => none

/-- The fields of an object up to its closing bracket. -/
def readFields? : Nat → Text → Option (List (String × Json) × Text)
  | 0, _ => none
  | steps + 1, t =>
    match skipSpace t with
    | '"' :: rest =>
      match readString? (rest.length + 1) [] rest with
      | none => none
      | some (key, rest) =>
        match skipSpace rest with
        | ':' :: rest =>
          match readValue? steps rest with
          | none => none
          | some (value, rest) =>
            match skipSpace rest with
            | ',' :: rest =>
              (readFields? steps rest).map fun (fields, rest) => ((key, value) :: fields, rest)
            | '}' :: rest => some ([(key, value)], rest)
            | _ => none
        | _ => none
    | _ => none

end

/-- The value written in a text, if it is one value with nothing but white space around it. -/
def parse? (t : Text) : Option Json :=
  match readValue? (2 * t.length + 1) t with
  | some (value, rest) => if (skipSpace rest).isEmpty then some value else none
  | none => none

end Json

end MacroScript
