import MacroScript.Catalogue.Members
import MacroScript.Json.Basic

/-!
# Candidates

What completion offers. A candidate carries a key that says where its explanation is to be found: in
the catalogue, or with a symbol of the analysed document.
-/
namespace MacroScript

/-- Where the explanation of a candidate is found. -/
inductive Candidate.Key where
  /-- In the catalogue. -/
  | catalogue (key : String)
  /-- With the symbol of this id; in the catalogue under `hint` if there is no such symbol. -/
  | symbol (hint : String) (id : Nat)
deriving DecidableEq, Repr

/-- Something that can be typed at a place: its label, what it is, where it is explained, and the
text to insert if that is not the label. -/
structure Candidate where
  label : String
  kind : Candidate.Kind
  key : Candidate.Key
  insertText : Option String := none
deriving DecidableEq, Repr

namespace Candidate

/-- A candidate that the catalogue explains. -/
def ofCatalogue (label : String) (kind : Kind) (key : String) : Candidate :=
  { label, kind, key := .catalogue key }

/-- The key as it travels with a candidate: a string, or a pair of a string and a number. -/
def Key.toJson : Key → Json
  | .catalogue key => .string key
  | .symbol hint id => .array [.string hint, .nat id]

/-- The key that a value stands for. -/
def Key.ofJson? : Json → Option Key
  | .string key => some (.catalogue key)
  | .array [.string hint, id] => id.toWord?.map (.symbol hint)
  | _ => none

/-- The name of a kind. -/
def Kind.name : Kind → String
  | .method => "method"
  | .constant => "constant"
  | .variable => "variable"
  | .function => "function"
  | .classDefinition => "class"
  | .keyword => "keyword"

/-- The fields for the text to insert: none if it is the label. -/
def insertFields (candidate : Candidate) : List (String × Json) :=
  match candidate.insertText with
  | some t => [("insertText", .string t)]
  | none => []

/-- A candidate. -/
def toJson (candidate : Candidate) : Json :=
  .object <|
    candidate.insertFields ++
    [("kind", .string candidate.kind.name), ("label", .string candidate.label),
      ("resolutionKey", candidate.key.toJson)]

end Candidate

/-- The items whose image under `f` is not among `seen` and was not there before, in order. -/
def distinctBy {α β : Type} [BEq β] (f : α → β) (seen : List β) : List α → List α
  | [] => []
  | a :: as =>
    if seen.contains (f a) then distinctBy f seen as else a :: distinctBy f (f a :: seen) as

end MacroScript
