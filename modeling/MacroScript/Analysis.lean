import MacroScript.Diagnostic.Condition
import MacroScript.Diagnostic.Declaration
import MacroScript.Diagnostic.Header
import MacroScript.Diagnostic.Loop
import MacroScript.Diagnostic.Statement
import MacroScript.Symbol.Collector

/-!
# The analysis of a document

The rules are independent of each other: each sees every code line and returns its own findings. The
diagnostics of a document are sorted by line, and within a line by rule.

An analysis is everything derived from one text, made in one go, so that a reader of the table and
of the diagnostics always has two things that belong together.
-/
namespace MacroScript

/-! ## Rules -/

/-- A rule of the analysis. -/
inductive Rule where
  | termination
  | declaration
  | operators
  | condition
  | header
  | loop
deriving DecidableEq, Repr

namespace Rule

/-- The rules in the order of their findings. -/
def all : List Rule :=
  [termination, declaration, operators, condition, header, loop]

/-- The name of the rule. -/
def name : Rule → String
  | termination => "termination"
  | declaration => "declaration"
  | operators => "operators"
  | condition => "condition"
  | header => "header"
  | loop => "loop"

/-- What the rule finds in a line. -/
def findings : Rule → RuleView → List Finding
  | termination => terminatorFindings
  | declaration => declarationFindings
  | operators => operatorFindings
  | condition => conditionFindings
  | header => headerFindings
  | loop => loopFindings

end Rule

/-- What the rules find in a line. -/
def RuleView.findings (view : RuleView) : List Finding :=
  Rule.all.flatMap fun rule => rule.findings view

/-- The views of code lines, given the line above the first. -/
def RuleView.ofLines (table : Symbol.Table) (previous : Option Line) : List Line → List RuleView
  | [] => []
  | l :: ls => ⟨l, previous, ls.head?, table⟩ :: ofLines table (some l) ls

namespace Diagnostic

/-- The diagnostics of a list of lines, given what is declared. -/
def ofLines (lines : List Line) (table : Symbol.Table) : List Diagnostic :=
  (RuleView.ofLines table none (lines.filter Line.isCode)).flatMap fun view =>
    view.findings.map fun finding => finding.inLine view.line

/-- The diagnostics of a document, given what is declared. -/
def ofText (t : Text) (table : Symbol.Table) : List Diagnostic :=
  ofLines (Line.ofText t) table

end Diagnostic

/-! ## Analyses -/

/-- A text with its symbol table and its diagnostics. -/
structure Analysis where
  text : Text
  table : Symbol.Table
  diagnostics : List Diagnostic
deriving DecidableEq, Repr

/-- Analyse a document. -/
def Analysis.ofText (t : Text) : Analysis :=
  let lines := Line.ofText t
  let table := Symbol.Table.ofLines lines
  { text := t, table, diagnostics := Diagnostic.ofLines lines table }

/-- The diagnostics of a document. -/
def diagnose (t : Text) : List Diagnostic :=
  (Analysis.ofText t).diagnostics

end MacroScript
