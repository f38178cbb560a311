import MacroScript.Encoding

/-!
# Messages to the client

What the server sends of its own accord. The diagnostics of a document are published with the
version they belong to; a document that was closed gets an empty list without a version.
-/
namespace MacroScript

namespace Server

/-- A message to the client. -/
inductive Message where
  | log (text : String)
  | askSettings
  | publish (uri : String) (version : Option Int) (diagnostics : List Diagnostic)
deriving DecidableEq, Repr

/-- The settings section that the server asks for, and the source that it gives for diagnostics. -/
def sourceName : String :=
  "macrorify"

/-- The number of a severity in the editor's protocol. -/
def severityNumber : Severity → Nat
  | .error => 1
  | .warning => 2

/-- A diagnostic as it is published. -/
def publishedJson (d : Diagnostic) : Json :=
  .object [("message", .string d.message), ("range", d.range.toJson),
    ("severity", .nat (severityNumber d.severity)), ("source", .string sourceName)]

namespace Message

/-- The document that the message is about. -/
def uri? : Message → Option String
  | publish uri _ _ => some uri
  | _ => none

/-- The method of the message in the editor's protocol. -/
def method : Message → String
  | log _ => "window/logMessage"
  | askSettings => "workspace/configuration"
  | publish _ _ _ => "textDocument/publishDiagnostics"

/-- What the message says. -/
def params : Message → Json
  | log text => .object [("message", .string text), ("type", .nat 3)]
  | askSettings => .object [("items", .array [.object [("section", .string sourceName)]])]
  | publish uri version diagnostics =>
    .object <|
      [("diagnostics", .array (diagnostics.map publishedJson)), ("uri", .string uri)] ++
      (version.map fun version => ("version", Json.integer version)).toList

/-- A message. -/
def toJson (message : Message) : Json :=
  .object [("method", .string message.method), ("params", message.params)]

end Message

end Server

end MacroScript
