import MacroScript.Server.Document

/-!
# Validation

A validation is scheduled whenever a document may need its diagnostics published, and runs after the
delay. It is made of segments, and nothing else touches the documents during one of them:

* the first look: give up if the document is gone, has another version or is published already, and
  otherwise take the installed analysis if it is of the current text;
* reading the text and the version, analysing the text, and installing the analysis if the document
  is still the one that was read;
* the last look: give up if the document is gone, has another version or has no analysis of its
  current text, and otherwise note it as published.

A completion request that finds no analysis goes through the middle segments alone.
-/
namespace MacroScript

namespace Server

/-! ## Building an analysis -/

/-- What is read of a document before its analysis is built. -/
structure Snapshot where
  text : Text
  version : Int
deriving DecidableEq, Repr

namespace Snapshot

/-- Read a document. -/
def read? (store : Store) (uri : String) : Option Snapshot :=
  (store.get? uri).map fun d => ⟨d.text, d.version⟩

/-- Analyse what was read. -/
def build (snapshot : Snapshot) : Analysis :=
  Analysis.ofText snapshot.text

/-- The document still has the version and the text that were read. -/
def isCurrent (snapshot : Snapshot) (d : Document) : Bool :=
  d.version = snapshot.version && d.fingerprint = snapshot.text.fingerprint

/-- Install an analysis, if the document is still the one that was read. -/
def install (snapshot : Snapshot) (analysis : Analysis) (store : Store) (uri : String) : Store :=
  match store.get? uri with
  | some d =>
    if snapshot.isCurrent d then store.put uri { d with analysis := some analysis } else store
  | none => store

end Snapshot

/-- Read, analyse and install with nothing in between. The analysis is returned also if it was not
installed; there is none if the document is gone. -/
def refresh (store : Store) (uri : String) : Store × Option Analysis :=
  match Snapshot.read? store uri with
  | none => (store, none)
  | some snapshot =>
    let analysis := snapshot.build
    (snapshot.install analysis store uri, some analysis)

/-! ## Validations -/

/-- A scheduled validation: the document and its version, how many diagnostics to publish, and when
it is due. -/
structure Validation where
  uri : String
  version : Int
  limit : Nat
  due : Nat
deriving DecidableEq, Repr

namespace Validation

/-- What the first look decides. -/
inductive FirstLook where
  | giveUp
  | reuse (analysis : Analysis)
  | refresh
deriving DecidableEq, Repr

/-- The first look, once the delay is over. -/
def firstLook (v : Validation) (store : Store) : FirstLook :=
  match store.get? v.uri with
  | none => .giveUp
  | some d =>
    if d.version ≠ v.version || d.isPublished then .giveUp
    else
      match d.analysis with
      | some analysis => if d.isAnalysed then .reuse analysis else .refresh
      | none => .refresh

/-- The last look: the store with the document noted as published, or nothing if the validation
gives up. -/
def lastLook (v : Validation) (store : Store) : Option Store :=
  match store.get? v.uri with
  | none => none
  | some d =>
    if d.version ≠ v.version || !d.isAnalysed then none
    else some (store.put v.uri { d with published := d.analysed })

/-- The end of a validation that goes on to publish an analysis. -/
def finish (v : Validation) (store : Store) (analysis : Analysis) : Store × Option Analysis :=
  match v.lastLook store with
  | some store => (store, some analysis)
  | none => (store, none)

/-- Run a validation to its end with nothing in between: the store after it, and the analysis whose
diagnostics are to be published if it does not give up. -/
def run (v : Validation) (store : Store) : Store × Option Analysis :=
  match v.firstLook store with
  | .giveUp => (store, none)
  | .reuse analysis => v.finish store analysis
  | .refresh =>
    match Server.refresh store v.uri with
    | (store, some analysis) => v.finish store analysis
    | (store, none) => (store, none)

end Validation

end Server

end MacroScript
