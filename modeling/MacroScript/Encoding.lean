import MacroScript.Analysis
import MacroScript.Json.Printer

/-!
# JSON forms and reports

How the parts of an analysis are written in JSON. The keys of every object are listed in
alphabetical order, which is the order that readers of a report see.

A report is an analysis as it is printed: all of it in JSON, or the errors alone, one line for each.
-/
namespace MacroScript

/-! ## JSON forms -/

/-- A text as a JSON string. -/
def Text.toJson (t : Text) : Json :=
  .string (String.ofList t)

/-- A position, with its line and its column from zero. -/
def Position.toJson (p : Position) : Json :=
  .object [("character", .nat p.character.toNat), ("line", .nat p.line.toNat)]

/-- A range. -/
def Range.toJson (r : Range) : Json :=
  .object [("end", r.stop.toJson), ("start", r.start.toJson)]

/-- The name of a severity. -/
def Severity.name : Severity → String
  | warning => "warning"
  | error => "error"

/-- A diagnostic. -/
def Diagnostic.toJson (d : Diagnostic) : Json :=
  .object [("message", .string d.message), ("range", d.range.toJson),
    ("severity", .string d.severity.name)]

/-- A tag, by its label. -/
def Tag.toJson (tag : Tag) : Json :=
  .string tag.label

/-- A scope. The end of an open one is null. -/
def Scope.toJson : Scope → Json
  | global => .object [("kind", .string "global")]
  | block start stop =>
    .object [("end", .ofOption .nat stop), ("kind", .string "local"), ("start", .nat start)]

/-- The name of an origin. -/
def Origin.name : Origin → String
  | .variable => "variable"
  | .parameter => "parameter"
  | .loopVariable => "loopvariable"

/-- A reassignment. -/
def Reassignment.toJson (r : Reassignment) : Json :=
  .object [("line", .nat r.line), ("tag", r.tag.toJson), ("value", Text.toJson r.value)]

/-- A symbol. The line of a re-declaration is left out if there was none. -/
def Symbol.toJson (s : Symbol) : Json :=
  let redeclared := match s.redeclaredLine with
    | some line => [("redeclared_line", Json.nat line)]
    | none => []
  .object <|
    [("declared_line", .nat s.declaredLine), ("declared_value", Text.toJson s.declaredValue),
      ("id", .nat s.id), ("name", Text.toJson s.name), ("origin", .string s.origin.name),
      ("reassignments", .array (s.reassignments.map Reassignment.toJson))] ++
    redeclared ++ [("scope", s.scope.toJson), ("tag", s.tag.toJson)]

/-! ## Reports -/

namespace Report

/-- The line for an error. -/
def errorLine (d : Diagnostic) : String :=
  "Line " ++ d.range.start.display ++ ": " ++ d.message

/-- The errors of an analysis, one line for each. -/
def errors (analysis : Analysis) : String :=
  let lines := (analysis.diagnostics.filter fun d => d.severity = .error).map errorLine
  if lines.isEmpty then "No errors found" else String.intercalate "\n" lines

/-- All of an analysis. -/
def toJson (analysis : Analysis) : Json :=
  .object
    [("classes", .array (analysis.table.classes.map Text.toJson)),
      ("diagnostics", .array (analysis.diagnostics.map Diagnostic.toJson)),
      ("functions", .array (analysis.table.functions.map Text.toJson)),
      ("symbols", .array (analysis.table.symbols.map Symbol.toJson))]

/-- The report on an analysis. -/
def render (analysis : Analysis) (errorsOnly : Bool) : String :=
  if errorsOnly then errors analysis else (toJson analysis).indented

end Report

end MacroScript
