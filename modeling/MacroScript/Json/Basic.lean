/-!
# JSON values

What settings, completion data and reports are made of. A whole number that fits a 64-bit word is an
`integer`; every other number keeps the characters it was written with, because nothing here
computes with it. The fields of an object stay in the order in which they were written.
-/
namespace MacroScript

/-- A JSON value. -/
inductive Json where
  | null
  | bool (value : Bool)
  | integer (value : Int)
  | decimal (literal : String)
  | string (value : String)
  | array (items : List Json)
  | object (fields : List (String × Json))
deriving Repr

namespace Json

/-- The JSON of a natural number. -/
def nat (n : Nat) : Json :=
  .integer n

/-- The JSON of a value that may be missing. -/
def ofOption {α : Type} (encode : α → Json) : Option α → Json
  | none => .null
  | some a => encode a

/-- The field of an object under a key. When a key is repeated its last value counts. -/
def field? (value : Json) (key : String) : Option Json :=
  match value with
  | .object fields => (fields.reverse.find? fun field => field.1 == key).map (·.2)
  | _ => none

/-- The value as a natural number below `2 ^ 64`. -/
def toWord? : Json → Option Nat
  | .integer n => if 0 ≤ n then some n.toNat else none
  | _ => none

/-- The value as a string. -/
def toString? : Json → Option String
  | .string s => some s
  | _ => none

end Json

end MacroScript
