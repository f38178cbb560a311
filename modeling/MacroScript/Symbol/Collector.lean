import MacroScript.Line
import MacroScript.Symbol.Table
import MacroScript.Token.Group
import MacroScript.Token.Scan

/-!
# Collecting symbols

The code lines of a document are read once, from top to bottom. The reader holds the table so far
and a stack of frames, one for each scope that is open. A brace opens a frame and its partner closes
it; a header (`fun`, `class` or `do`) opens its frame at the keyword, and the next brace on its own
line or on the following code line then belongs to it. A symbol is put into the innermost frame,
which holds its id until the frame is closed and the symbol's scope ends.
-/
namespace MacroScript

/-- What opened a frame. -/
inductive Frame.Kind where
  | functionBody
  | classBody
  | block
  | doBlock
deriving DecidableEq, Repr

/-- An open scope: the line that opened it, the symbols whose scope ends with it, and whether it is
a header still waiting for its brace. -/
structure Frame where
  kind : Frame.Kind
  openedAt : Nat
  pending : List Nat
  awaitsBrace : Bool
deriving DecidableEq, Repr

/-- The state of the reader: the table so far and the open frames, the innermost first. -/
structure Collector where
  table : Symbol.Table := {}
  frames : List Frame := []
deriving DecidableEq, Repr

namespace Collector

/-! ## Frames -/

/-- Open a frame. -/
def openFrame (c : Collector) (kind : Frame.Kind) (line : Nat) (awaitsBrace : Bool) : Collector :=
  { c with frames := ⟨kind, line, [], awaitsBrace⟩ :: c.frames }

/-- End the scopes of the symbols with the given ids. -/
def endScopes (line : Nat) (ids : List Nat) (table : Symbol.Table) : Symbol.Table :=
  ids.foldl
    (fun table id => table.modifySymbol id fun s => { s with scope := s.scope.closeAt line }) table

/-- Close the innermost frame on the line. With no frame open there is nothing to close. -/
def closeFrame (c : Collector) (line : Nat) : Collector :=
  match c.frames with
  | [] => c
  | frame :: frames =>
    let table := endScopes line frame.pending c.table
    let closes := table.doBlockEnds ++ if frame.kind = .doBlock then [line] else []
    { table := { table with doBlockEnds := closes }, frames := frames }

/-- Read an opening brace: it belongs to a header that waits for it, and opens a block otherwise. -/
def readBrace (c : Collector) (line : Nat) : Collector :=
  match c.frames with
  | frame :: frames =>
    if frame.awaitsBrace then { c with frames := { frame with awaitsBrace := false } :: frames }
    else c.openFrame .block line false
  | [] => c.openFrame .block line false

/-- At the end of a line, close the innermost frame if it is a header of an earlier line that still
waits for its brace. Its scope is then the header's own line. -/
def expireHeader (c : Collector) (line : Nat) : Collector :=
  match c.frames with
  | frame :: _ =>
    if frame.awaitsBrace && frame.openedAt != line then c.closeFrame frame.openedAt else c
  | [] => c

/-! ## Symbols -/

/-- Add a symbol, in the innermost frame if there is one. -/
def insert (c : Collector) (name : Text) (value : Text) (tag : Tag) (origin : Origin) (line : Nat) :
    Collector :=
  let id := c.table.symbols.length
  let symbol (scope : Scope) : Symbol :=
    { id, name, tag, origin, declaredLine := line, declaredValue := value, reassignments := []
      redeclaredLine := none, scope }
  match c.frames with
  | [] => { c with table := { c.table with symbols := c.table.symbols ++ [symbol .global] } }
  | frame :: frames =>
    { table := { c.table with symbols := c.table.symbols ++ [symbol (.block line none)] }
      frames := { frame with pending := frame.pending ++ [id] } :: frames }

/-- Declare a name. If a symbol of that name is still open the declaration only gives it a new tag.
-/
def declare (c : Collector) (name : Text) (value : Text) (tag : Tag) (origin : Origin)
    (line : Nat) : Collector :=
  match c.table.latestOpen name with
  | some s =>
    { c with
      table := c.table.modifySymbol s.id fun s =>
        { s with tag := tag, redeclaredLine := some line } }
  | none => c.insert name value tag origin line

/-- The tag of a value written on the line. A function is no value, so nothing is known about it. -/
def inferOn (c : Collector) (value : Text) (line : Nat) : Tag :=
  if "fun".toList.isPrefixOf (Text.trimStart value) then .any
  else (c.table.namesOn line).infer value

/-! ## Values -/

/-- The byte offset of the first semicolon outside brackets, in a text that starts at byte `offset`.
-/
def semicolonFrom (depth : Int) (offset : Nat) : Text → Option Nat
  | [] => none
  | c :: cs =>
    if c = ';' && depth ≤ 0 then some offset
    else semicolonFrom (depth + bracketStep c) (offset + c.utf8Size) cs

/-- The byte offset at which a statement ends whose value starts at byte `start` of the code. -/
def valueStop (code : Text) (start : Nat) : Nat :=
  (semicolonFrom 0 start (Text.dropBytes start code)).getD (Text.byteSize code)

/-- The value that starts at byte `start` of a line, as it was typed. -/
def initializer (l : Line) (start : Nat) : Text :=
  Text.trim ((Text.slice? start (valueStop l.code start) l.raw).getD [])

/-! ## Lines -/

/-- Register the name in a header of the given kind; a header without a name registers nothing. -/
def registerHeader (c : Collector) (kind : Frame.Kind) (name : Text) : Collector :=
  if name.isEmpty then c
  else if kind = .classBody then
    { c with table := { c.table with classes := c.table.classes ++ [name] } }
  else { c with table := { c.table with functions := c.table.functions ++ [name] } }

/-- The names between the commas of a parameter list. -/
def parameterNames (t : Text) : List Text :=
  ((List.splitOn ',' t).map Text.trim).filter fun name => !name.isEmpty

/-- Read a `fun` or `class` header: open its frame, register its name and declare its parameters.
The tokens are those of the line, starting with the keyword. -/
def readHeader (c : Collector) (l : Line) (keyword : Token) (tokens : List Token) : Collector :=
  let kind : Frame.Kind := if keyword.isWord "fun" then .functionBody else .classBody
  let c := c.openFrame kind l.index true
  match tokens.findIdx? fun t => t.kind = .opener .round with
  | none => c
  | some i =>
    match tokens[i]? with
    | none => c
    | some opener =>
      let c := c.registerHeader kind (Text.trim (Text.between keyword.stop opener.offset l.code))
      let stop := match (Token.partner? tokens i).bind (tokens[·]?) with
        | some closer => closer.offset
        | none => Text.byteSize l.code
      (parameterNames (Text.between opener.stop stop l.code)).foldl
        (fun c name => c.insert name [] .any .parameter l.index) c

/-- Read a token that is not a header at the start of its line. -/
def readToken (line : Nat) (c : Collector) (t : Token) : Collector :=
  match t.kind with
  | .closer .curly => c.closeFrame line
  | .opener .curly => c.readBrace line
  | .name => if t.isWord "do" then c.openFrame .doBlock line true else c
  | _ => c

/-- Read the first token of a line. -/
def readFirst (c : Collector) (l : Line) (first : Token) (tokens : List Token) : Collector :=
  if first.isWord "fun" || first.isWord "class" then c.readHeader l first tokens
  else c.readToken l.index first

/-- The byte offset at which the name of a `var` statement ends: at its assignment, else at the
first semicolon, else with the code. -/
def nameEnd (code : Text) (tokens : List Token) : Nat :=
  match tokens.find? Token.assigns with
  | some assign => assign.offset
  | none =>
    match tokens.find? fun t => t.kind = .semicolon with
    | some semicolon => semicolon.offset
    | none => Text.byteSize code

/-- The name that a `var` statement declares. -/
def declaredName (code : Text) (keyword : Token) (tokens : List Token) : Text :=
  Text.trim (Text.between keyword.stop (nameEnd code tokens) code)

/-- A name that a statement declares, with its value, the tag of that and what the symbol is to
be. -/
structure Declared where
  name : Text
  value : Text
  tag : Tag
  origin : Origin
deriving DecidableEq, Repr

/-- What a `var` statement declares, unless it has no name. -/
def declaredVariable? (c : Collector) (l : Line) (keyword : Token) (tokens : List Token) :
    Option Declared :=
  let name := declaredName l.code keyword tokens
  if name.isEmpty then none
  else
    match tokens.find? Token.assigns with
    | some assign =>
      let value := initializer l assign.valueOffset
      some ⟨name, value, c.inferOn value l.index, .variable⟩
    | none => some ⟨name, [], .null, .variable⟩

/-- The items that a loop over items goes through: what stands between the separator and the last
closing bracket of the line. -/
def loopItems (l : Line) (separator : Token) (tokens : List Token) : Text :=
  let stop := match tokens.reverse.find? fun t => t.kind = .closer .round with
    | some closer => closer.offset
    | none => Text.byteSize l.code
  Text.trim ((Text.slice? separator.stop stop l.raw).getD [])

/-- The value and the tag that a loop variable starts with, from the token after its name. -/
def loopValue (c : Collector) (l : Line) (tokens : List Token) : Option Token → Text × Tag
  | none => ([], .null)
  | some t =>
    if t.assigns then
      let value := initializer l t.valueOffset
      (value, c.inferOn value l.index)
    else if t.kind = .colon || t.isWord "in" || t.isWord "of" then (loopItems l t tokens, .any)
    else ([], .null)

/-- What a `for` header declares: the variable after its `var`, if there is one. -/
def declaredLoopVariable? (c : Collector) (l : Line) (tokens : List Token) : Option Declared :=
  match tokens with
  | _ :: opener :: keyword :: name :: rest =>
    if opener.kind = .opener .round && keyword.isWord "var" && name.kind = .name then
      let (value, tag) := c.loopValue l tokens rest.head?
      some ⟨name.text, value, tag, .loopVariable⟩
    else none
  | _ => none

/-- Declare what was found in a statement on the line, if anything was. -/
def declareFound (c : Collector) (line : Nat) : Option Declared → Collector
  | some d => c.declare d.name d.value d.tag d.origin line
  | none => c

/-- Read an assignment to a name that can be seen on the line. -/
def recordAssignment (c : Collector) (l : Line) (tokens : List Token) : Collector :=
  match tokens with
  | target :: assign :: _ =>
    if target.kind = .name && assign.assigns then
      match c.table.meaningOn target.text l.index with
      | none => c
      | some s =>
        let value := initializer l assign.valueOffset
        let entry : Reassignment := ⟨l.index, value, c.inferOn value l.index⟩
        { c with
          table := c.table.modifySymbol s.id fun s =>
            { s with reassignments := s.reassignments ++ [entry] } }
    else c
  | _ => c

/-- What a line declares or assigns, once its frames are settled. -/
def readStatement (c : Collector) (l : Line) (first : Token) (tokens : List Token) : Collector :=
  if first.isWord "var" then c.declareFound l.index (c.declaredVariable? l first tokens)
  else if first.isWord "for" then c.declareFound l.index (c.declaredLoopVariable? l tokens)
  else c.recordAssignment l tokens

/-- Read one code line: its braces and headers from left to right, then its statement. -/
def readLine (c : Collector) (l : Line) : Collector :=
  match Token.scan l.code with
  | [] => c
  | first :: rest =>
    let c := rest.foldl (readToken l.index) (c.readFirst l first (first :: rest))
    (c.expireHeader l.index).readStatement l first (first :: rest)

/-- The state after the code lines among `lines`. -/
def readLines (lines : List Line) : Collector :=
  (lines.filter Line.isCode).foldl readLine {}

end Collector

namespace Symbol.Table

/-- The table of a list of lines. -/
def ofLines (lines : List Line) : Table :=
  (Collector.readLines lines).table

/-- The table of a document. -/
def ofText (t : Text) : Table :=
  ofLines (Line.ofText t)

end Symbol.Table

end MacroScript
