import MacroScript.Completion.Description
import MacroScript.Completion.Offer

/-!
# Completion items

A candidate as the editor holds it. The key of the candidate travels in `data`, and comes back when
the editor asks for the item's description.
-/
namespace MacroScript

namespace Server

/-- A completion item. All but the label may be missing. -/
structure Item where
  label : String
  kind : Option Int := none
  detail : Option String := none
  documentation : Option String := none
  insertText : Option String := none
  data : Option Json := none
deriving Repr

/-- The number of a kind in the editor's protocol. -/
def kindNumber : Candidate.Kind → Int
  | .method => 2
  | .function => 3
  | .variable => 6
  | .classDefinition => 7
  | .keyword => 14
  | .constant => 21

namespace Item

/-- The item for a candidate. -/
def ofCandidate (candidate : Candidate) : Item :=
  { label := candidate.label
    kind := some (kindNumber candidate.kind)
    insertText := candidate.insertText
    data := some candidate.key.toJson }

/-- The key that came back with the item. -/
def key? (item : Item) : Option Candidate.Key :=
  item.data.bind Candidate.Key.ofJson?

/-- The item with a description. An empty documentation leaves the item's own. -/
def describe (item : Item) (description : Description) : Item :=
  { item with
    detail := some description.detail
    documentation :=
      if description.documentation.isEmpty then item.documentation
      else some description.documentation }

/-- The item with what its key leads to, given what is declared. An item without a key is returned
as it came. -/
def resolve (item : Item) (table : Symbol.Table) : Item :=
  match item.key? with
  | some key => item.describe (Description.ofKey key table)
  | none => item

/-- An item; what is missing is left out. -/
def toJson (item : Item) : Json :=
  let field (name : String) (value : Option Json) : List (String × Json) :=
    (value.map fun value => (name, value)).toList
  .object <|
    field "data" item.data ++ field "detail" (item.detail.map .string) ++
    field "documentation" (item.documentation.map .string) ++
    field "insertText" (item.insertText.map .string) ++ field "kind" (item.kind.map .integer) ++
    [("label", .string item.label)]

/-- The item that a value stands for. A field that is null is missing. -/
def ofJson? (value : Json) : Option Item := do
  let given (name : String) : Option Json := (value.field? name).filter fun
    | .null => false
    | _ => true
  let label ← (given "label").bind Json.toString?
  let kind := (given "kind").bind fun
    | .integer n => some n
    | _ => none
  return { label, kind
           detail := (given "detail").bind Json.toString?
           documentation := (given "documentation").bind Json.toString?
           insertText := (given "insertText").bind Json.toString?
           data := given "data" }

end Item

end Server

end MacroScript
