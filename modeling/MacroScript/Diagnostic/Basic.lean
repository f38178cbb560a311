import MacroScript.Diagnostic.Issue
import MacroScript.Line
import MacroScript.Symbol.Table
import MacroScript.Token.Scan

/-!
# Findings and diagnostics

A rule looks at one code line at a time and returns findings: an issue and the bytes of the line
that it is about. A diagnostic is a finding as it is shown, with its place in the document.
-/
namespace MacroScript

/-- An issue and the byte span of the line that it is about. -/
structure Finding where
  start : Nat
  stop : Nat
  issue : Issue
deriving DecidableEq, Repr

/-- A finding as it is shown. -/
structure Diagnostic where
  range : Range
  severity : Severity
  message : String
deriving DecidableEq, Repr

/-- The finding in its line. -/
def Finding.inLine (l : Line) (finding : Finding) : Diagnostic :=
  { range := l.range finding.start finding.stop
    severity := finding.issue.severity
    message := finding.issue.message }

/-- What a rule sees: a code line, the nearest code lines above and below it, and what the document
declares. -/
structure RuleView where
  line : Line
  previous : Option Line
  next : Option Line
  table : Symbol.Table

namespace RuleView

/-- The code of the line. -/
def code (view : RuleView) : Text :=
  view.line.code

/-- The tokens of the line. -/
def tokens (view : RuleView) : List Token :=
  Token.scan view.line.code

/-- The byte offset at which the code ends, white space aside. -/
def codeEnd (view : RuleView) : Nat :=
  (Text.coreSpan view.line.code).2

/-- What follows byte `offset` of the code, without white space at both ends. -/
def rest (view : RuleView) (offset : Nat) : Text :=
  Text.trim (Text.dropBytes offset view.line.code)

/-- A block follows byte `offset` of the code: its brace comes next on the line, or starts the next
code line if nothing else comes on this one. -/
def blockFollows (view : RuleView) (offset : Nat) : Bool :=
  let rest := view.rest offset
  if rest.isEmpty then view.next.any fun next => ['{'].isPrefixOf (Text.trimStart next.code)
  else ['{'].isPrefixOf rest

/-- Report a header whose brackets end with `closer` and are not followed by a block. A header that
is not closed is not reported. -/
def blockFindings (view : RuleView) : Option Token → List Finding
  | some closer =>
    if view.blockFollows closer.stop then [] else [⟨closer.offset, view.codeEnd, .missingBlock⟩]
  | none => []

end RuleView

/-- The first character that keeps `name` from being a name of the language, as a byte offset and
the character: a name starts with an ASCII letter, or with an underscore if that is allowed, and
goes on with ASCII letters, digits and underscores. The empty name has no such character. -/
def badNameChar? (underscoreStart : Bool) (name : Text) : Option (Nat × Char) :=
  match name with
  | [] => none
  | c :: cs =>
    if !(c.isAlpha || (underscoreStart && c == '_')) then some (0, c)
    else
      let good := cs.takeWhile isAsciiNameChar
      match cs.drop good.length with
      | [] => none
      | bad :: _ => some (Text.byteSize (c :: good), bad)

end MacroScript
