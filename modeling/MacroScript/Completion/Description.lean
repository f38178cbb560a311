import MacroScript.Catalogue.Hints
import MacroScript.Completion.Candidate
import MacroScript.Symbol.Table

/-!
# Descriptions

What is shown about a candidate once it is looked at: the history of a symbol, or the hint of the
catalogue.
-/
namespace MacroScript

/-- A line that names the thing, and an explanation that may be empty. -/
structure Description where
  detail : String
  documentation : String
deriving DecidableEq, Repr

namespace Description

/-- The hint under a key of the catalogue. -/
def ofHint (key : String) : Description :=
  match Catalogue.hint? key with
  | some hint => ⟨hint.detail, hint.documentation⟩
  | none => ⟨"no info", ""⟩

/-- A line number as people read it. -/
def lineNumber (line : Nat) : String :=
  toString (line + 1)

/-- The lines of a scope. -/
def scopeText : Scope → String
  | .global => "global"
  | .block start (some stop) => "lines " ++ lineNumber start ++ "-" ++ lineNumber stop
  | .block start none => "from line " ++ lineNumber start

/-- The line about the declared value. -/
def valueText (value : Text) : String :=
  if value.isEmpty then "Declared without a value\n"
  else "Declared value: " ++ String.ofList value ++ "\n"

/-- The line about a reassignment. -/
def reassignmentText (r : Reassignment) : String :=
  "  line " ++ lineNumber r.line ++ ": " ++ String.ofList r.value ++ " (" ++ r.tag.label ++ ")\n"

/-- The lines about the reassignments, under a heading if there are any. -/
def reassignmentsText (rs : List Reassignment) : String :=
  if rs.isEmpty then "" else "Reassignments:\n" ++ String.join (rs.map reassignmentText)

/-- The history of a symbol. -/
def ofSymbol (s : Symbol) : Description :=
  { detail := "var " ++ String.ofList s.name ++ ": " ++ s.tag.label
    documentation :=
      "Type: " ++ s.tag.label ++ "\n" ++ "Scope: " ++ scopeText s.scope ++ "\n" ++
        valueText s.declaredValue ++ reassignmentsText s.reassignments }

/-- What the key leads to, given what is declared. -/
def ofKey (key : Candidate.Key) (table : Symbol.Table) : Description :=
  match key with
  | .catalogue key => ofHint key
  | .symbol hint id =>
    match table.get? id with
    | some s => ofSymbol s
    | none => ofHint hint

/-- A description. -/
def toJson (description : Description) : Json :=
  .object [("detail", .string description.detail),
    ("documentation", .string description.documentation)]

end Description

end MacroScript
