import MacroScript.Analysis
import MacroScript.Document.Edit
import MacroScript.Document.Fingerprint

/-!
# Open documents

A document that the editor has open, with the latest analysis installed for it. The analysis may lag
behind the text: its own text tells, and the server compares the two by their fingerprints.
-/
namespace MacroScript

namespace Server

/-- An open document. -/
structure Document where
  text : Text := []
  version : Int := 0
  /-- The latest analysis that was installed. -/
  analysis : Option Analysis := none
  /-- The fingerprint of the text whose diagnostics were published last. -/
  published : Option UInt64 := none
deriving DecidableEq, Repr

namespace Document

/-- The fingerprint of the text. -/
def fingerprint (d : Document) : UInt64 :=
  d.text.fingerprint

/-- The fingerprint of the text that the installed analysis is of. -/
def analysed (d : Document) : Option UInt64 :=
  d.analysis.map fun analysis => analysis.text.fingerprint

/-- The installed analysis is of the current text, as far as fingerprints tell. -/
def isAnalysed (d : Document) : Bool :=
  d.analysed == some d.fingerprint

/-- The diagnostics of the current text were published, as far as fingerprints tell. -/
def isPublished (d : Document) : Bool :=
  d.published == some d.fingerprint

/-- The document after changes, applied in order. -/
def change (d : Document) (version : Int) (changes : List Change) : Document :=
  { d with version, text := changes.foldl (fun t change => change.applyTo t) d.text }

end Document

/-! ## The open documents together -/

/-- The open documents by their names, which are the normal forms of their URLs. -/
structure Store where
  entries : List (String × Document) := []
deriving DecidableEq, Repr

namespace Store

/-- The document of that name. -/
def get? (store : Store) (uri : String) : Option Document :=
  (store.entries.find? fun entry => entry.1 == uri).map (·.2)

/-- The store without the document of that name. -/
def erase (store : Store) (uri : String) : Store :=
  ⟨store.entries.filter fun entry => entry.1 != uri⟩

/-- The store with a document put in, in the place of any other of its name. -/
def put (store : Store) (uri : String) (d : Document) : Store :=
  ⟨(store.erase uri).entries ++ [(uri, d)]⟩

/-- Nothing is left of a name that was erased. -/
@[simp] theorem get?_erase_self (store : Store) (uri : String) :
    (store.erase uri).get? uri = none := by
  simp [get?, erase, List.find?_eq_none]

/-- Erasing a name leaves the others as they are. -/
theorem get?_erase_of_ne (store : Store) {uri other : String} (h : other ≠ uri) :
    (store.erase uri).get? other = store.get? other := by
  have hfind : ∀ entries : List (String × Document),
      (entries.filter fun entry => entry.1 != uri).find? (fun entry => entry.1 == other) =
        entries.find? fun entry => entry.1 == other := by
    intro entries
    rw [List.find?_filter]
    congr 1
    funext entry
    by_cases ho : entry.1 = other
    · simp [ho, h]
    · simp [ho]
  simp only [get?, erase, hfind]

/-- A document that was put in is found. -/
@[simp] theorem get?_put_self (store : Store) (uri : String) (d : Document) :
    (store.put uri d).get? uri = some d := by
  have hnone : (store.erase uri).entries.find? (fun entry => entry.1 == uri) = none := by
    simpa [get?] using get?_erase_self store uri
  simp [get?, put, List.find?_append, hnone]

/-- Putting a document in leaves the others as they are. -/
theorem get?_put_of_ne (store : Store) {uri other : String} (d : Document) (h : other ≠ uri) :
    (store.put uri d).get? other = store.get? other := by
  have hsame := get?_erase_of_ne store h
  have hlast : ((uri, d).1 == other) = false := by simpa using Ne.symm h
  simp only [get?, put, List.find?_append, List.find?_cons, hlast, List.find?_nil, Option.or_none]
  exact hsame

/-- The store with each document changed. -/
def map (store : Store) (change : Document → Document) : Store :=
  ⟨store.entries.map fun (uri, d) => (uri, change d)⟩

end Store

end Server

end MacroScript
