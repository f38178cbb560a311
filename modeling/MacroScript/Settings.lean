import MacroScript.Json.Basic

/-!
# Settings

How many diagnostics are published for a document, and how long the server waits before it publishes
them. The client gives them as a JSON section, by name in an object or by place in a list. What a
section leaves out keeps its value, and a section that makes no sense changes nothing.
-/
namespace MacroScript

/-- The settings of the server. -/
structure Settings where
  /-- The most diagnostics published for one document. -/
  limit : Nat := 1000
  /-- The delay before publishing, in milliseconds. -/
  delay : Nat := 200
deriving DecidableEq, Repr

namespace Settings

/-- Why a section is refused. -/
inductive Error where
  | undecodable
deriving DecidableEq, Repr

/-- What the error says to the reader. -/
def Error.message : Error → String
  | undecodable => "Failed to decode the macrorify configuration section"

/-- What a section says: each setting may be left out. -/
structure Section where
  limit : Option Nat
  delay : Option Nat
deriving DecidableEq, Repr

/-- A setting that may be left out: null stands for nothing, and anything but a natural number is an
error. -/
def optionalWord : Option Json → Except Error (Option Nat)
  | none => .ok none
  | some .null => .ok none
  | some value =>
    match value.toWord? with
    | some n => .ok (some n)
    | none => .error .undecodable

/-- The section from its two values. -/
def sectionOf (limit delay : Option Json) : Except Error Section := do
  return ⟨← optionalWord limit, ← optionalWord delay⟩

/-- What a JSON value says as a section: an object with named settings, or a list of at most two. -/
def Section.ofJson : Json → Except Error Section
  | .array [] => sectionOf none none
  | .array [limit] => sectionOf (some limit) none
  | .array [limit, delay] => sectionOf (some limit) (some delay)
  | .object fields =>
    sectionOf ((Json.object fields).field? "checkErrors") ((Json.object fields).field? "debounceMs")
  | _ => .error .undecodable

/-- The settings after a section. A limit of zero is passed over. -/
def overlay (settings : Settings) (given : Section) : Settings :=
  { limit := (given.limit.filter (0 < ·)).getD settings.limit
    delay := given.delay.getD settings.delay }

/-- The settings after a section given as JSON. Null is no section. -/
def apply (settings : Settings) : Json → Except Error Settings
  | .null => .ok settings
  | value => (Section.ofJson value).map settings.overlay

end Settings

end MacroScript
