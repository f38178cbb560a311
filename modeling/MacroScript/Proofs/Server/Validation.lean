import MacroScript.Server.Validation

/-!
# What a validation comes to

A validation that runs with nothing in between either gives up and changes nothing, or it publishes:
the document was there, had the version that the validation was scheduled for and was not published,
and it ends up with an analysis whose text has the fingerprint of its own text.
`Validation.run_cases` says this once, so that no later proof has to open the segments of a
validation again.
-/
namespace MacroScript

namespace Server

/-! ## 1. The open documents -/

namespace Store

/-- Of two documents put in under one name the second stays. -/
theorem put_put (store : Store) (uri : String) (d₁ d₂ : Document) :
    (store.put uri d₁).put uri d₂ = store.put uri d₂ := by
  simp only [put, erase, List.filter_append, List.filter_filter, Bool.and_self]
  simp

/-- Changing every document changes the one of each name, and opens or closes none. -/
theorem get?_map (store : Store) (change : Document → Document) (uri : String) :
    (store.map change).get? uri = (store.get? uri).map change := by
  simp only [get?, map, List.find?_map, Option.map_map]
  rfl

/-- What is found under a name after a document was put in. -/
theorem get?_put (store : Store) (uri other : String) (d : Document) :
    (store.put uri d).get? other = if other = uri then some d else store.get? other := by
  split
  · next h => rw [h, get?_put_self]
  · next h => exact get?_put_of_ne store d h

/-- A document that is found is one of the entries. -/
theorem mem_entries_of_get? {store : Store} {uri : String} {d : Document}
    (h : store.get? uri = some d) : (uri, d) ∈ store.entries := by
  obtain ⟨⟨name, d'⟩, hfind, rfl⟩ := Option.map_eq_some_iff.mp h
  have hname : name = uri := by simpa using List.find?_some hfind
  exact hname ▸ List.mem_of_find?_eq_some hfind

/-- The texts that the documents hold. -/
def texts (store : Store) : List Text :=
  store.entries.map fun entry => entry.2.text

/-- The text of a document that is found is one of them. -/
theorem text_mem_texts {store : Store} {uri : String} {d : Document}
    (h : store.get? uri = some d) : d.text ∈ store.texts :=
  List.mem_map.mpr ⟨(uri, d), mem_entries_of_get? h, rfl⟩

end Store

/-! ## 2. Building an analysis with nothing in between -/

/-- The document with an analysis installed. -/
def Document.install (d : Document) (analysis : Analysis) : Document :=
  { d with analysis := some analysis }

/-- The document once its diagnostics were published from an analysis. What is remembered is the
fingerprint of its text, not of the analysed one. -/
def Document.publish (d : Document) (analysis : Analysis) : Document :=
  { d with analysis := some analysis, published := some d.fingerprint }

/-- A document is analysed if the analysis that it has is of a text with its fingerprint. -/
theorem Document.isAnalysed_iff {d : Document} :
    d.isAnalysed ↔ ∃ a, d.analysis = some a ∧ a.text.fingerprint = d.fingerprint := by
  simp only [isAnalysed, analysed, beq_iff_eq, Option.map_eq_some_iff]

/-- A document that is read and installed at once takes the analysis of its text: nothing moved in
between. -/
theorem refresh_of_get? {store : Store} {uri : String} {d : Document}
    (h : store.get? uri = some d) :
    refresh store uri =
      (store.put uri (d.install (Analysis.ofText d.text)), some (Analysis.ofText d.text)) := by
  simp [refresh, Snapshot.read?, Snapshot.build, Snapshot.install, Snapshot.isCurrent, h,
    Document.fingerprint, Document.install]

/-! ## 3. One validation -/

namespace Validation

/-- The end of a validation whose document has an analysis of its text. The last look finds nothing
amiss and publishes. -/
theorem finish_of_isAnalysed {v : Validation} {store : Store} {d : Document} {a : Analysis}
    (h : store.get? v.uri = some d) (hversion : d.version = v.version)
    (ha : d.analysis = some a) (hfp : a.text.fingerprint = d.fingerprint) :
    v.finish store a = (store.put v.uri (d.publish a), some a) := by
  have hd : d.isAnalysed := Document.isAnalysed_iff.mpr ⟨a, ha, hfp⟩
  have hlook : v.lastLook store = some (store.put v.uri (d.publish a)) := by
    simp [lastLook, h, hversion, hd, Document.publish, Document.analysed, ha, hfp]
  rw [finish, hlook]

/-- **What a validation does.** It gives up on a document that is gone, has moved on or is
published; otherwise it publishes an analysis that was installed before or that it makes itself, and
in either case the analysed text has the fingerprint of the document's text. -/
theorem run_cases (v : Validation) (store : Store) :
    (v.run store = (store, none) ∧
      ∀ d, store.get? v.uri = some d → d.version = v.version → d.isPublished) ∨
    ∃ d a, store.get? v.uri = some d ∧ d.version = v.version ∧ d.isPublished = false ∧
      (d.analysis = some a ∨ a = Analysis.ofText d.text) ∧
      a.text.fingerprint = d.fingerprint ∧
      v.run store = (store.put v.uri (d.publish a), some a) := by
  cases hget : store.get? v.uri with
  | none => exact .inl ⟨by simp [run, firstLook, hget], by simp⟩
  | some d =>
    by_cases hmoved : d.version ≠ v.version
    · refine .inl ⟨by simp [run, firstLook, hget, hmoved], ?_⟩
      rintro d' ⟨⟩ hd'
      exact absurd hd' hmoved
    have hversion : d.version = v.version := by simpa using hmoved
    by_cases hpub : d.isPublished
    · refine .inl ⟨by simp [run, firstLook, hget, hpub], ?_⟩
      rintro d' ⟨⟩ -
      exact hpub
    right
    have hpub' : d.isPublished = false := by simpa using hpub
    by_cases hd : d.isAnalysed
    · obtain ⟨a, ha, hfp⟩ := Document.isAnalysed_iff.mp hd
      have hlook : v.firstLook store = .reuse a := by
        simp [firstLook, hget, hversion, hpub', ha, hd]
      refine ⟨d, a, rfl, hversion, hpub', .inl ha, hfp, ?_⟩
      rw [run, hlook]
      exact finish_of_isAnalysed hget hversion ha hfp
    · have hlook : v.firstLook store = .refresh := by
        cases ha : d.analysis <;> simp [firstLook, hget, hversion, hpub', ha, hd]
      refine ⟨d, Analysis.ofText d.text, rfl, hversion, hpub', .inr rfl, rfl, ?_⟩
      rw [run, hlook]
      simp only [refresh_of_get? hget]
      -- the last look sees the document as the refresh left it
      rw [finish_of_isAnalysed (d := d.install (Analysis.ofText d.text)) (by simp)
        hversion rfl rfl, Store.put_put]
      rfl

end Validation

end Server

end MacroScript
