import MacroScript.Server.Item
import MacroScript.Server.Message
import MacroScript.Server.Validation
import MacroScript.Settings

/-!
# The server and its clock

The server with everything around it that decides what it does next: the clock, the validations that
are scheduled, and how the client answers when it is asked for settings. An event changes this
state; after it every validation that is due is run, in the order in which they are due. Time moves
only when an event says so.
-/
namespace MacroScript

namespace Server

/-- The state of the server and its surroundings. -/
structure World where
  documents : Store := {}
  settings : Settings := {}
  /-- The analysis behind the latest completion list. -/
  lastCompleted : Option Analysis := none
  /-- The time, in milliseconds. -/
  now : Nat := 0
  /-- The validations that have not run, in the order in which they were scheduled. -/
  pending : List Validation := []
  /-- The client is ready: it receives messages and can be asked. -/
  isConnected : Bool := false
  /-- The values that the client answers with when it is asked for settings, if it answers. -/
  answer : Option (List Json) := some [.null]

/-- Something that happens to the server. -/
inductive Event where
  | connect
  | openDocument (uri : String) (version : Int) (text : Text)
  | changeDocument (uri : String) (version : Int) (changes : List Change)
  | closeDocument (uri : String)
  | complete (uri : String) (position : Position)
  | resolve (item : Item)
  | answerWith (values : Option (List Json))
  | reloadSettings
  | wait (milliseconds : Nat)
  | shutdown

/-- What the server answers to an event. -/
inductive Reply where
  | nothing
  | capabilities
  | candidates (found : Option (List Candidate))
  | item (item : Item)

/-- The state after an event or a part of it, what is answered, and what was sent. -/
structure Outcome where
  world : World
  reply : Reply := .nothing
  sent : List Message := []

namespace World

/-! ## Parts of events -/

/-- What the client receives of the messages sent to it: nothing before it is ready. -/
def receives (w : World) (messages : List Message) : List Message :=
  if w.isConnected then messages else []

/-- Schedule a validation with the settings as they are. -/
def schedule (w : World) (uri : String) (version : Int) : World :=
  { w with
    pending := w.pending ++ [⟨uri, version, w.settings.limit, w.now + w.settings.delay⟩] }

/-- The settings after the client was asked for them. They stay as they are if it gives no answer,
an empty one, or one that makes no sense. -/
def askedSettings (w : World) : Settings :=
  match w.isConnected, w.answer with
  | true, some (value :: _) =>
    match w.settings.apply value with
    | .ok settings => settings
    | .error _ => w.settings
  | _, _ => w.settings

/-- Ask the client for its settings. -/
def loadSettings (w : World) : Outcome :=
  { world := { w with settings := w.askedSettings }, sent := w.receives [.askSettings] }

/-- Schedule every document again, as if nothing had been published. -/
def revalidate (w : World) : World :=
  let w := { w with documents := w.documents.map fun d => { d with published := none } }
  w.documents.entries.foldl (fun w entry => w.schedule entry.1 entry.2.version) w

/-! ## Events -/

/-- The client is ready: greet it and ask for its settings. -/
def connect (w : World) : Outcome :=
  let w := { w with isConnected := true }
  let loaded := w.loadSettings
  { loaded with
    reply := .capabilities
    sent := w.receives [.log "Macrorify Language Server started"] ++ loaded.sent }

/-- A document is opened, in the place of any other of its name. -/
def openDocument (w : World) (uri : String) (version : Int) (text : Text) : World :=
  let d : Document := { text, version }
  { w with documents := w.documents.put uri d }.schedule uri version

/-- A document is changed. One that is not open starts empty. -/
def changeDocument (w : World) (uri : String) (version : Int) (changes : List Change) : World :=
  let d := (w.documents.get? uri).getD {}
  { w with documents := w.documents.put uri (d.change version changes) }.schedule uri version

/-- A document is closed: its diagnostics are taken back. -/
def closeDocument (w : World) (uri : String) : Outcome :=
  { world := { w with documents := w.documents.erase uri }
    sent := w.receives [.publish uri none []] }

/-- The installed analysis of a document, which may lag behind its text; one is built and installed
if there is none. -/
def analysisFor (w : World) (uri : String) : World × Option (Analysis × Text) :=
  match w.documents.get? uri with
  | none => (w, none)
  | some d =>
    match d.analysis with
    | some analysis => (w, some (analysis, d.text))
    | none =>
      let (documents, analysis) := refresh w.documents uri
      ({ w with documents }, analysis.map fun analysis => (analysis, d.text))

/-- Completion at a position of a document. The analysis that it used is kept for later questions
about its items. -/
def completeAt (w : World) (uri : String) (position : Position) : Outcome :=
  match w.analysisFor uri with
  | (w, none) => { world := w, reply := .candidates none }
  | (w, some (analysis, text)) =>
    { world := { w with lastCompleted := some analysis }
      reply := .candidates (some (MacroScript.complete text position analysis.table)) }

/-- The table in which the items of the latest completion list are looked up. -/
def completedTable (w : World) : Symbol.Table :=
  match w.lastCompleted with
  | some analysis => analysis.table
  | none => {}

/-- What an event does at once. -/
def handle (w : World) : Event → Outcome
  | .connect => w.connect
  | .openDocument uri version text => { world := w.openDocument uri version text }
  | .changeDocument uri version changes => { world := w.changeDocument uri version changes }
  | .closeDocument uri => w.closeDocument uri
  | .complete uri position => w.completeAt uri position
  | .resolve item => { world := w, reply := .item (item.resolve w.completedTable) }
  | .answerWith values => { world := { w with answer := values } }
  | .reloadSettings =>
    let loaded := w.loadSettings
    { loaded with world := loaded.world.revalidate }
  | .wait milliseconds => { world := { w with now := w.now + milliseconds } }
  | .shutdown => { world := w }

/-! ## The clock -/

/-- Run one validation: publish what it comes to. -/
def validate (w : World) (v : Validation) : World × List Message :=
  let (documents, analysis) := v.run w.documents
  let messages := match analysis with
    | some analysis => [.publish v.uri (some v.version) (analysis.diagnostics.take v.limit)]
    | none => []
  ({ w with documents }, w.receives messages)

/-- Run validations in order. -/
def runAll (w : World) : List Validation → World × List Message
  | [] => (w, [])
  | v :: vs =>
    let (w, sent) := w.validate v
    let (w, later) := w.runAll vs
    (w, sent ++ later)

/-- Run every validation that is due, in the order in which they are due. -/
def settle (w : World) : World × List Message :=
  let due := (w.pending.filter fun v => v.due ≤ w.now).mergeSort fun v u => v.due ≤ u.due
  { w with pending := w.pending.filter fun v => w.now < v.due }.runAll due

/-- What an event does, and all that is due after it. -/
def step (w : World) (event : Event) : Outcome :=
  let outcome := w.handle event
  let (world, published) := outcome.world.settle
  { outcome with world, sent := outcome.sent ++ published }

/-- What a list of events does, one after the other. -/
def run (w : World) : List Event → List Outcome
  | [] => []
  | event :: events =>
    let outcome := w.step event
    outcome :: run outcome.world events

end World

/-! ## JSON forms -/

/-- What the server tells the client about itself. -/
def capabilitiesJson : Json :=
  .object
    [("capabilities", .object
      [("completionProvider", .object
        [("resolveProvider", .bool true), ("triggerCharacters", .array [.string "."])]),
       ("textDocumentSync", .nat 2)]),
     ("serverInfo", .object
      [("name", .string "Macrorify Language Server"), ("version", .string "0.1.0")])]

/-- A reply. -/
def Reply.toJson : Reply → Json
  | nothing => .null
  | capabilities => capabilitiesJson
  | candidates none => .null
  | candidates (some found) =>
    .array (found.map fun candidate => (Item.ofCandidate candidate).toJson)
  | item found => found.toJson

end Server

end MacroScript
