import MacroScript.Diagnostic.Basic

/-!
# Statements of every form

Two rules do not ask what a line is. The one looks at its end: a statement ends with a semicolon,
and a line that ends with a brace opens or closes a block and needs none.

The other looks for what other languages have. The foreign operators are looked for in the order of
their list, inside operator tokens only. Each is reported at most once in a line, at its first
occurrence that does not overlap an earlier report. The first string literal in quotes that the
language does not have is reported as well.
-/
namespace MacroScript

/-! ## Ends of statements -/

/-- The line ends with a semicolon or a brace. -/
def isTerminated (code : Text) : Bool :=
  (Text.trim code).getLast?.all fun c => c == ';' || c == '}' || c == '{'

/-- Report a line that ends without a semicolon. -/
def terminatorFindings (view : RuleView) : List Finding :=
  if isTerminated view.code then []
  else
    let (start, stop) := Text.coreSpan view.code
    [⟨start, stop, .missingSemicolon⟩]

/-! ## Operators and quotes of other languages -/

/-- The byte offsets at which the operator occurs in the operator tokens of a line. -/
def foreignOccurrences (tokens : List Token) (operator : ForeignOperator) : List Nat :=
  (tokens.filter fun t => t.kind = .operator).flatMap fun t =>
    (Text.occurrences operator.spelling.toList t.text).map (t.offset + ·)

/-- The two spans have a byte in common. -/
def overlaps (start stop : Nat) (finding : Finding) : Bool :=
  start < finding.stop && finding.start < stop

/-- The first occurrence of the operator that does not overlap what was reported. -/
def foreignFinding? (tokens : List Token) (reported : List Finding) (operator : ForeignOperator) :
    Option Finding :=
  let size := Text.byteSize operator.spelling.toList
  let free := (foreignOccurrences tokens operator).find? fun start =>
    !reported.any (overlaps start (start + size))
  free.map fun start => ⟨start, start + size, .foreignOperator operator⟩

/-- The findings for the operators in order, after those already reported. -/
def foreignFindings (tokens : List Token) (reported : List Finding) :
    List ForeignOperator → List Finding
  | [] => reported
  | operator :: operators =>
    foreignFindings tokens (reported ++ (foreignFinding? tokens reported operator).toList) operators

/-- The string literal is in quotes that the language does not have. -/
def hasForeignQuotes (t : Token) : Bool :=
  t.kind = .string && t.text.head?.any fun c => c == '\'' || c == '`'

/-- Report foreign operators and foreign quotes. -/
def operatorFindings (view : RuleView) : List Finding :=
  let quotes := match view.tokens.find? hasForeignQuotes with
    | some t => [⟨t.offset, t.stop, .foreignQuotes⟩]
    | none => []
  foreignFindings view.tokens [] ForeignOperator.all ++ quotes

end MacroScript
