import MacroScript.Catalogue.Members
import MacroScript.Diagnostic.Basic
import MacroScript.Diagnostic.Copy

/-!
# Declarations

A declaration is `var name = value`. Its name has to be a name of the language and its value has to
be something that the analysis recognises. The keywords `let` and `const` of other languages are
reported, and so is a name that is assigned to itself.
-/
namespace MacroScript

/-! ## Keywords -/

/-- What follows a lone `var`: nothing but semicolons and white space around them. -/
def isLoneTail (t : Text) : Bool :=
  (Text.trimStart ((Text.trimStart t).dropWhile (· == ';'))).isEmpty

/-- Report a `var` at the end of the line with no name after it. -/
def loneVarFindings (code : Text) : List Finding :=
  match (Text.wholeWords "var".toList code).find? fun word => isLoneTail word.after with
  | some word => [⟨word.offset, Text.byteSize code, .loneVar⟩]
  | none => []

/-- The word is the name in a declaration: one white space and `var` stand right before it. -/
def isDeclaredName (word : WordOccurrence) : Bool :=
  match word.before with
  | [] => false
  | c :: before => isBlank c && "var".toList.reverse.isPrefixOf before

/-- Report the first use of a keyword that the language does not have. -/
def keywordFindings (keyword : Text) (issue : Issue) (code : Text) : List Finding :=
  match (Text.wholeWords keyword code).find? fun word => !isDeclaredName word with
  | some word => [⟨word.offset, word.offset + Text.byteSize keyword, issue⟩]
  | none => []

/-! ## Values -/

/-- The names at the start of each chain of a value: those that do not stand right after a point. -/
def chainRoots (afterDot : Bool) : List Token → List Text
  | [] => []
  | t :: ts =>
    let later := chainRoots (t.kind = .dot) ts
    if t.kind = .name && !afterDot then t.text :: later else later

/-- The value has a known tag, or holds no names, or one of its names is known on the line. -/
def isRecognised (view : RuleView) (value : Text) : Bool :=
  let line := view.line.index
  if (view.table.namesOn line).infer value ≠ .any then true
  else
    let roots := chainRoots false (Token.scan value)
    roots.isEmpty ||
      roots.any fun name => Catalogue.isBuiltIn name || view.table.declaresBy name line

/-- A `var` statement taken apart. All offsets are bytes from the `var` on. -/
structure VarStatement where
  /-- The span of the name, white space around it aside. -/
  nameStart : Nat
  nameStop : Nat
  /-- The offset of the assignment, if there is one. -/
  assignment : Option Nat
  /-- The span of the value, white space around it aside. -/
  valueStart : Nat
  valueStop : Nat
  /-- The offset at which the text ends, white space aside. -/
  stop : Nat
deriving DecidableEq, Repr

/-- The span of the trimmed part of the bytes from `start` to `stop` of a text. -/
def spanBetween (start stop : Nat) (t : Text) : Nat × Nat :=
  let (first, last) := Text.coreSpan (Text.between start stop t)
  (start + first, start + last)

/-- Take apart a text that starts with `var`. The name goes up to the assignment, or else to the
first semicolon; the value goes from after the assignment to the first semicolon. -/
def VarStatement.ofText (t : Text) : VarStatement :=
  let tokens := Token.scan t
  let keyword := Text.byteSize "var".toList
  let statementStop := match tokens.find? fun token => token.kind = .semicolon with
    | some semicolon => semicolon.offset
    | none => Text.byteSize t
  let assignment := tokens.find? Token.assigns
  let nameStop := match assignment with
    | some assign => assign.offset
    | none => statementStop
  let name := spanBetween keyword (max keyword nameStop) t
  let valueFrom := match assignment with
    | some assign => assign.valueOffset
    | none => statementStop
  let value := spanBetween valueFrom (max valueFrom statementStop) t
  { nameStart := name.1, nameStop := name.2
    assignment := assignment.map fun assign => assign.offset
    valueStart := value.1, valueStop := value.2
    stop := (Text.coreSpan t).2 }

/-- Report the first character that does not belong in the declared name. -/
def variableNameFindings (t : Text) (base : Nat) (statement : VarStatement) : List Finding :=
  match badNameChar? false (Text.between statement.nameStart statement.nameStop t) with
  | some (offset, c) =>
    let start := base + statement.nameStart + offset
    [⟨start, start + c.utf8Size, .variableName⟩]
  | none => []

/-- Report an assigned value that the language does not have. -/
def valueFindings (view : RuleView) (t : Text) (base : Nat) (statement : VarStatement)
    (assignment : Nat) : List Finding :=
  let value := Text.between statement.valueStart statement.valueStop t
  let valueStart := base + statement.valueStart
  let stop := base + statement.stop
  if value.isEmpty then [⟨base, stop, .missingValue⟩]
  else if ['{'].isPrefixOf value then [⟨valueStart, stop, .objectValue⟩]
  else if Text.opensWithWord "fun".toList value then [⟨valueStart, stop, .functionValue⟩]
  else if Text.opensWithWord "undefined".toList value then
    [⟨base + assignment, valueStart + Text.byteSize "undefined".toList, .undefinedValue⟩]
  else if value.head?.any fun c => c == '\'' || c == '`' then [⟨base, stop, .singleQuotedValue⟩]
  else if !isRecognised view value then [⟨base, stop, .unknownValue⟩]
  else []

/-- Check a `var` statement. Its text starts with `var`, at byte `base` of the line. -/
def varStatementFindings (view : RuleView) (t : Text) (base : Nat) : List Finding :=
  let statement := VarStatement.ofText t
  variableNameFindings t base statement ++
    match statement.assignment with
    | some assignment => valueFindings view t base statement assignment
    | none => []

/-! ## Names assigned to themselves -/

/-- The issue of a copy whose two names are the same. -/
def selfCopyIssue (view : RuleView) (copy : Copy) : Issue :=
  if copy.declares then .selfDeclaration
  else if view.table.declaresBy copy.target view.line.index then .selfAssignment
  else .undeclaredAssignment

/-- Report the first name of the line that is assigned to itself. -/
def selfCopyFindings (view : RuleView) : List Finding :=
  match (Copy.all view.code).find? fun copy => copy.target == copy.value with
  | some copy =>
    [⟨copy.valueOffset, copy.valueOffset + Text.byteSize copy.value, selfCopyIssue view copy⟩]
  | none => []

/-- Check the declarations of a line. -/
def declarationFindings (view : RuleView) : List Finding :=
  let code := view.code
  let statement := match view.tokens.head? with
    | some first =>
      if first.isWord "var" then
        varStatementFindings view (Text.dropBytes first.offset code) first.offset
      else []
    | none => []
  loneVarFindings code ++ keywordFindings "let".toList .letKeyword code ++
    keywordFindings "const".toList .constKeyword code ++ statement ++ selfCopyFindings view

end MacroScript
