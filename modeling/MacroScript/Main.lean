import MacroScript.Command

/-!
# The program

Reads the file that the arguments ask for and prints the report on it. An error goes to standard
error, and the exit code tells.
-/
open MacroScript

/-- The text of a file, if it can be read and is UTF-8. -/
def readText? (path : String) : IO (Option Text) := do
  try
    let content ← IO.FS.readFile path
    return some content.toList
  catch _ => return none

/-- Print an error and give the exit code for it. -/
def reportError (error : Command.Error) : IO UInt32 := do
  IO.eprintln ("macrorify-lsp analyze error: " ++ error.message)
  return 2

/-- Print what a command comes to. A server is embedded through `Server.World`, so without a file to
analyse there is only the usage to print. -/
def runCommand (command : Command) (content : Option Text) : IO UInt32 := do
  match command.output fun _ => content with
  | .ok (some output) =>
    IO.println output
    return 0
  | .ok none => reportError .usage
  | .error error => reportError error

def main (arguments : List String) : IO UInt32 := do
  match Command.ofArguments arguments with
  | .error error => reportError error
  | .ok .serve => runCommand .serve none
  | .ok (.analyze path errorsOnly) =>
    runCommand (.analyze path errorsOnly) (← readText? path)
