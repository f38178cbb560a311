import MacroScript.Url.Percent
import MacroScript.Url.Punycode

/-!
# Hosts

The host of a URL is a domain name, an address of four or sixteen bytes, or, for schemes that are
not of the web, any name. A domain name is in lower case and in ASCII. Addresses of four bytes may
be given in fewer parts and in base eight or sixteen, and are written as four decimal numbers.
Addresses of sixteen bytes stand in brackets, as eight numbers in base sixteen with the longest run
of zeros left out.
-/
namespace MacroScript

namespace Url

/-- The host of a URL. -/
inductive Host where
  | absent
  | domain (name : Text)
  | fourBytes (address : Nat)
  | sixteenBytes (pieces : List Nat)
  | plain (name : Text)
deriving DecidableEq, Repr

namespace Host

/-! ## Numbers -/

/-- The number with the given digits. -/
def number? (base : Nat) (digits : Text) : Option Nat :=
  digits.foldlM (fun n c =>
    (hexValue? c).bind fun d => if d < base then some (n * base + d) else none) 0

/-- A part of an address of four bytes: in base sixteen after `0x`, in base eight after any other
leading zero, and in base ten otherwise. -/
def part? : Text → Option Nat
  | [] => none
  | '0' :: c :: digits =>
    if c = 'x' || c = 'X' then number? 16 digits else number? 8 (c :: digits)
  | digits => number? 10 digits

/-! ## Addresses of four bytes -/

/-- The parts between the points of a name; a point at the end does not start a further part. -/
def partsOf (name : Text) : List Text :=
  let parts := List.splitOn '.' name
  if 1 < parts.length && parts.getLast? = some [] then parts.dropLast else parts

/-- The last part is a number, so the name can only be an address. -/
def endsInNumber (parts : List Text) : Bool :=
  parts.getLast?.any fun last =>
    (!last.isEmpty && last.all Char.isDigit) || (part? last).isSome

/-- How many addresses there are with `n` bytes. -/
def bytesRange : Nat → Nat
  | 0 => 1
  | n + 1 => 256 * bytesRange n

/-- The address with the given parts. All but the last are single bytes, and the last fills the
rest. -/
def fourBytes? (parts : List Text) : Option Host := do
  let numbers ← parts.mapM part?
  let last ← numbers.getLast?
  let first := numbers.dropLast
  let room := bytesRange (4 - first.length)
  if numbers.length ≤ 4 && first.all (· < 256) && last < room then
    some (fourBytes (first.foldl (fun n byte => n * 256 + byte) 0 * room + last))
  else none

/-- The bytes of an address, in decimal with points between them. -/
def fourBytesText (address : Nat) : Text :=
  List.intercalate ['.']
    ([address / 0x1000000, address / 0x10000, address / 0x100, address].map fun n =>
      Nat.toDigits 10 (n % 256))

/-! ## Addresses of sixteen bytes -/

/-- A piece of an address: one to four digits in base sixteen. -/
def piece? (t : Text) : Option Nat :=
  if t.isEmpty || 4 < t.length then none else number? 16 t

/-- A byte in decimal without leading zeros. -/
def decimalByte? (t : Text) : Option Nat :=
  if t.isEmpty || 3 < t.length || (1 < t.length && t.head? = some '0') then none
  else (number? 10 t).filter (· < 256)

/-- The last piece of an address, or the last two of them written as four decimal bytes. -/
def lastPieces? (t : Text) : Option (List Nat) :=
  if t.contains '.' then
    match (List.splitOn '.' t).mapM decimalByte? with
    | some [a, b, c, d] => some [a * 256 + b, c * 256 + d]
    | _ => none
  else (piece? t).map ([·])

/-- The pieces between the colons of a text. Only the last of them may be decimal, and only if
`decimal` says so. -/
def pieces? (decimal : Bool) (t : Text) : Option (List Nat) :=
  if t.isEmpty then some []
  else do
    let groups := List.splitOn ':' t
    let first ← groups.dropLast.mapM piece?
    let last ← groups.getLast?
    return first ++ (← if decimal then lastPieces? last else (piece? last).map ([·]))

/-- The text before and after the first two colons that stand together. -/
def splitGap : Text → Text × Option Text
  | ':' :: ':' :: rest => ([], some rest)
  | c :: cs =>
    let (before, after) := splitGap cs
    (c :: before, after)
  | [] => ([], none)

/-- The address that stands between the brackets. -/
def sixteenBytes? (t : Text) : Option Host := do
  match splitGap t with
  | (whole, none) =>
    let pieces ← pieces? true whole
    if pieces.length = 8 then some (sixteenBytes pieces) else none
  | (before, some after) =>
    let first ← pieces? false before
    let last ← pieces? true after
    let count := first.length + last.length
    if count < 8 then some (sixteenBytes (first ++ List.replicate (8 - count) 0 ++ last))
    else none

/-- How many zeros the list starts with. -/
def zeros (pieces : List Nat) : Nat :=
  (pieces.takeWhile (· == 0)).length

/-- The length of the longest run of zeros. -/
def longestZeros : List Nat → Nat
  | [] => 0
  | piece :: pieces => max (zeros (piece :: pieces)) (longestZeros pieces)

/-- The index at which the first run of `n` zeros starts. -/
def zerosStart (n : Nat) : List Nat → Nat
  | [] => 0
  | piece :: pieces => if n ≤ zeros (piece :: pieces) then 0 else zerosStart n pieces + 1

/-- Pieces in base sixteen, with colons between them. -/
def piecesText (pieces : List Nat) : Text :=
  List.intercalate [':'] (pieces.map (Nat.toDigits 16))

/-- An address with its brackets. The first of the longest runs of zeros is left out, unless it is a
single zero. -/
def sixteenBytesText (pieces : List Nat) : Text :=
  let run := longestZeros pieces
  let inner :=
    if run < 2 then piecesText pieces
    else
      let start := zerosStart run pieces
      piecesText (pieces.take start) ++ [':', ':'] ++ piecesText (pieces.drop (start + run))
  ['['] ++ inner ++ [']']

/-! ## Names -/

/-- A character that no host holds. -/
def isForbidden (c : Char) : Bool :=
  c.toNat = 0 ||
    ['\t', '\n', '\r', ' ', '#', '/', ':', '<', '>', '?', '@', '[', '\\', ']', '^', '|'].contains c

/-- A character that no domain name holds. -/
def isForbiddenInDomain (c : Char) : Bool :=
  isForbidden c || c.toNat < 0x20 || c = '%' || c.toNat = 0x7F

/-- A label of a domain name in ASCII. -/
def asciiLabel (label : Text) : Text :=
  let lower := label.map Char.toLower
  if lower.all fun c => c.toNat < 0x80 then lower else "xn--".toList ++ Punycode.encode lower

/-- The host that a domain name stands for, which may be an address. -/
def ofDomain? (t : Text) : Option Host := do
  let decoded ← percentDecode? t
  let name := List.intercalate ['.'] ((List.splitOn '.' decoded).map asciiLabel)
  if name.isEmpty || name.any isForbiddenInDomain then none
  else if endsInNumber (partsOf name) then fourBytes? (partsOf name)
  else some (domain name)

/-- The host that a text stands for. Schemes of the web and files have domain names, and others any
names. -/
def ofText? (onWeb : Bool) (t : Text) : Option Host :=
  if t.head? = some '[' then
    if t.getLast? = some ']' then sixteenBytes? (t.drop 1).dropLast else none
  else if onWeb then ofDomain? t
  else if t.any isForbidden then none
  else some (plain (percentEncode isUnprintable t))

/-- The host as it is written. -/
def toText : Host → Text
  | absent => []
  | domain name => name
  | fourBytes address => fourBytesText address
  | sixteenBytes pieces => sixteenBytesText pieces
  | plain name => name

end Host

end Url

end MacroScript
