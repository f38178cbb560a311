import MacroScript.Encoding
import MacroScript.Path

/-!
# The command line

With `--analyze` the program reads one file and prints a report on it; without, it is the server
that is wanted. The file is the first argument that is no option.
-/
namespace MacroScript

/-- What the arguments ask for. -/
inductive Command where
  /-- The server. -/
  | serve
  /-- A report on a file. -/
  | analyze (path : String) (errorsOnly : Bool)
deriving DecidableEq, Repr

namespace Command

/-- Why there is no report. -/
inductive Error where
  | usage
  | unsafePath (path : String)
  | unreadable (path : String)
deriving DecidableEq, Repr

/-- What the error says to the reader. -/
def Error.message : Error → String
  | usage =>
    "Usage: macrorify-lsp --analyze [--errors-only] <relative-file-path>\n" ++
      "  --analyze <file>     : Full analysis with JSON output\n" ++
      "  --errors-only        : Show only errors in simple format"
  | unsafePath path => "Unsafe file path: " ++ path
  | unreadable path => "Failed to read file '" ++ path ++ "'"

/-- The argument is an option. -/
def isOption (argument : String) : Bool :=
  ['-', '-'].isPrefixOf argument.toList

/-- What the arguments ask for. Options may stand anywhere, and unknown ones are passed over. -/
def ofArguments (arguments : List String) : Except Error Command :=
  if !arguments.contains "--analyze" then .ok .serve
  else
    match arguments.find? fun argument => !isOption argument with
    | none => .error .usage
    | some path =>
      if Path.isSafe path.toList then .ok (.analyze path (arguments.contains "--errors-only"))
      else .error (.unsafePath path)

/-- What the command prints, if it prints anything; `read` gives the text of a file. -/
def output (read : String → Option Text) : Command → Except Error (Option String)
  | serve => .ok none
  | analyze path errorsOnly =>
    match read path with
    | some t => .ok (some (Report.render (Analysis.ofText t) errorsOnly))
    | none => .error (.unreadable path)

/-- What the program prints for the arguments, if it prints anything. -/
def run (read : String → Option Text) (arguments : List String) :
    Except Error (Option String) := do
  (← ofArguments arguments).output read

end Command

end MacroScript
