import MacroScript.Proofs.Completion.Names
import MacroScript.Proofs.Server.Publication

/-!
# What a completion item is described by

A completion list is described item by item, and later: between the list and the question about one
of its items the document may be edited, analysed anew or closed. The item carries a key, and the
key of a variable is nothing but the place of a symbol in a table, so it only means something in the
table that the list was made from.

Two facts carry it. The key comes back from the item as it was (`Candidate.Key.ofJson?_toJson`), and
**the analysis behind the latest list is kept by everything but another list**
(`World.after_lastCompleted`). The place then holds the symbol that the label means on the completed
line, because an id is a place in every table that was read from a document.
-/
namespace MacroScript

/-! ## 1. Keys and items come back -/

/-- **A key comes back as it was sent.** The number of a symbol is written as a word and read as
one. -/
theorem Candidate.Key.ofJson?_toJson (key : Candidate.Key) :
    Candidate.Key.ofJson? key.toJson = some key := by
  cases key with
  | catalogue key => rfl
  | symbol hint id => simp [toJson, ofJson?, Json.nat, Json.toWord?]

namespace Server

/-- The item for a candidate comes back from the client as it was sent, with or without a text to
insert. -/
theorem Item.ofJson?_toJson_ofCandidate (candidate : Candidate) :
    Item.ofJson? (Item.ofCandidate candidate).toJson = some (Item.ofCandidate candidate) := by
  obtain ⟨label, kind, key, insertText⟩ := candidate
  cases insertText <;> cases key <;> rfl

/-- **The item for a candidate, described.** It shows the line of the description, and the
explanation unless that is empty; the label, the kind, the text to insert and the key stay those of
the candidate, so that the item can be asked about again. -/
theorem Item.describe_ofCandidate (candidate : Candidate) (description : Description) :
    (Item.ofCandidate candidate).describe description =
      { label := candidate.label
        kind := some (kindNumber candidate.kind)
        detail := some description.detail
        documentation :=
          if description.documentation = "" then none else some description.documentation
        insertText := candidate.insertText
        data := some candidate.key.toJson } := by
  simp only [describe, ofCandidate, String.isEmpty_iff]

/-- The explanation of a symbol starts with its type, so it is never left out. -/
theorem documentation_ofSymbol_ne_empty (s : Symbol) :
    (Description.ofSymbol s).documentation ≠ "" := by
  simp [Description.ofSymbol]

/-- An item is described by what its key leads to, as the key is read from the item again. -/
theorem Item.resolve_ofCandidate (candidate : Candidate) (table : Symbol.Table) :
    (Item.ofCandidate candidate).resolve table =
      (Item.ofCandidate candidate).describe (Description.ofKey candidate.key table) := by
  have hkey : (Item.ofCandidate candidate).key? = some candidate.key :=
    Candidate.Key.ofJson?_toJson candidate.key
  rw [Item.resolve, hkey]

/-! ## 2. The analysis behind the latest list -/

/-- The analysis that completion in a document goes by: the one that is installed, or else one of
its text. An installed one may be of an earlier text. -/
def Document.analysisInUse (d : Document) : Analysis :=
  d.analysis.getD (Analysis.ofText d.text)

/-- The answer is a completion list. -/
def Reply.isList : Reply → Bool
  | .candidates (some _) => true
  | _ => false

namespace World

/-- A completion request that is answered with a list keeps the analysis that the list is from,
whether it was installed or is made for the request. -/
theorem completeAt_of_get? {w : World} {uri : String} {d : Document} (position : Position)
    (h : w.documents.get? uri = some d) :
    (w.completeAt uri position).world.lastCompleted = some d.analysisInUse ∧
      (w.completeAt uri position).reply =
        .candidates (some (complete d.text position d.analysisInUse.table)) := by
  cases ha : d.analysis with
  | some a => simp [completeAt, analysisFor, h, ha, Document.analysisInUse]
  | none =>
    simp [completeAt, analysisFor, h, ha, refresh_of_get? h, Document.analysisInUse]

/-- For a document that is not open there is no list, and nothing changes. -/
theorem completeAt_of_get?_eq_none {w : World} {uri : String} (position : Position)
    (h : w.documents.get? uri = none) :
    w.completeAt uri position = { world := w, reply := .candidates none } := by
  simp [completeAt, analysisFor, h]

/-- Only an answer with a list changes the analysis that is kept. Closing the document does not. -/
theorem handle_lastCompleted {w : World} {event : Event}
    (h : (w.handle event).reply.isList = false) :
    (w.handle event).world.lastCompleted = w.lastCompleted := by
  cases event with
  | complete uri position =>
    cases hget : w.documents.get? uri with
    | none => simp only [handle, completeAt_of_get?_eq_none position hget]
    | some d =>
      rw [handle, (completeAt_of_get? position hget).2] at h
      simp [Reply.isList] at h
  | reloadSettings => simp only [handle, loadSettings, revalidate, foldl_schedule]
  | _ => rfl

theorem runAll_lastCompleted (w : World) (queue : List Validation) :
    (w.runAll queue).1.lastCompleted = w.lastCompleted := by
  induction queue generalizing w with
  | nil => rfl
  | cons v queue ih => exact ih (w.validate v).1

/-- Validations that fall due after an event leave it alone, too. -/
theorem step_lastCompleted (w : World) (event : Event) :
    (w.step event).world.lastCompleted = (w.handle event).world.lastCompleted :=
  runAll_lastCompleted _ _

/-- **Everything but another list keeps the analysis behind the latest one**, by induction on the
events. -/
theorem after_lastCompleted {w : World} {events : List Event}
    (h : ∀ outcome ∈ w.run events, outcome.reply.isList = false) :
    (w.after events).lastCompleted = w.lastCompleted := by
  induction events generalizing w with
  | nil => rfl
  | cons event events ih =>
    have hevent : (w.handle event).reply.isList = false := h (w.step event) List.mem_cons_self
    calc ((w.step event).world.after events).lastCompleted
        = (w.step event).world.lastCompleted :=
          ih fun outcome hmem => h outcome (List.mem_cons_of_mem _ hmem)
      _ = (w.handle event).world.lastCompleted := w.step_lastCompleted event
      _ = w.lastCompleted := handle_lastCompleted hevent

end World

/-- At the end of a run the analysis that completion goes by is the one of some text. So its table
is one that was read from a document, in which ids are places. -/
theorem exists_text_of_analysisInUse {events : List Event} {uri : String} {d : Document}
    (h : (World.after {} events).documents.get? uri = some d) :
    ∃ t, d.analysisInUse.table = Symbol.Table.ofText t := by
  unfold Document.analysisInUse
  cases ha : d.analysis with
  | none => exact ⟨d.text, rfl⟩
  | some a =>
    have hground := ((grounded_after events).analysis uri d a h ha).2
    exact ⟨a.text, congrArg Analysis.table hground⟩

/-! ## 3. Descriptions of items -/

/-- **An item is described by the analysis that its list is from.** After any run of the server, let
a completion request be answered with a list, and let no other list follow. Then each item of the
list comes back from its JSON form, and the answer about it is the item of the candidate with what
its key leads to in the analysis that the list was made from, whatever happened to the document
meanwhile: the line of that description is the item's detail, its explanation is the item's
documentation, and nothing else of the item changes. The detail of a variable names the tag of the
symbol that its label means, in that analysis, on the completed line, and the documentation is the
history of that symbol. -/
theorem items_described_by_their_list (earlier later : List Event) (uri : String)
    (position : Position) (found : List Candidate)
    (hfound : ((World.after {} earlier).step (.complete uri position)).reply =
      .candidates (some found))
    (hlater : ∀ outcome ∈ (World.after {} (earlier ++ [.complete uri position])).run later,
      outcome.reply.isList = false) :
    ∃ d, (World.after {} earlier).documents.get? uri = some d ∧
      found = complete d.text position d.analysisInUse.table ∧
      ∀ candidate ∈ found,
        Item.ofJson? (Item.ofCandidate candidate).toJson = some (Item.ofCandidate candidate) ∧
        ∃ item description,
          ((World.after {} (earlier ++ .complete uri position :: later)).step
            (.resolve (Item.ofCandidate candidate))).reply = .item item ∧
          description = Description.ofKey candidate.key d.analysisInUse.table ∧
          item =
            { label := candidate.label
              kind := some (kindNumber candidate.kind)
              detail := some description.detail
              documentation :=
                if description.documentation = "" then none else some description.documentation
              insertText := candidate.insertText
              data := some candidate.key.toJson } ∧
          (candidate.kind = .variable →
            ∃ s, d.analysisInUse.table.meaningOn candidate.label.toList position.line.toNat =
                some s ∧
              item.detail = some ("var " ++ candidate.label ++ ": " ++ s.tag.label) ∧
              item.documentation = some (Description.ofSymbol s).documentation) := by
  have hhandle : ((World.after {} earlier).completeAt uri position).reply =
      .candidates (some found) := hfound
  cases hget : (World.after {} earlier).documents.get? uri with
  | none =>
    rw [World.completeAt_of_get?_eq_none position hget] at hhandle
    simp at hhandle
  | some d =>
    obtain ⟨hlast, hreply⟩ := World.completeAt_of_get? position hget
    rw [hreply, Reply.candidates.injEq, Option.some.injEq] at hhandle
    subst hhandle
    -- the analysis is kept until the item is asked about
    have hkept : (World.after {} (earlier ++ .complete uri position :: later)).lastCompleted =
        some d.analysisInUse := by
      rw [List.append_cons, World.after_append, World.after_lastCompleted hlater,
        World.after_append]
      exact ((World.after {} earlier).step_lastCompleted (.complete uri position)).trans hlast
    obtain ⟨t, ht⟩ := exists_text_of_analysisInUse hget
    have htable : (World.after {} (earlier ++ .complete uri position :: later)).completedTable =
        d.analysisInUse.table := by
      rw [World.completedTable, hkept]
    refine ⟨d, rfl, rfl, fun candidate hmem => ⟨Item.ofJson?_toJson_ofCandidate candidate, _, _,
      ?_, rfl, rfl, fun hkind => ?_⟩⟩
    · rw [World.step, World.handle, htable, Item.resolve_ofCandidate, Item.describe_ofCandidate]
    · rw [ht] at hmem ⊢
      obtain ⟨s, hs, hname, hdescription⟩ := description_of_mem_complete hmem hkind
      refine ⟨s, hs, ?_, ?_⟩
      · rw [hdescription, Description.ofSymbol, hname, String.ofList_toList]
      · rw [hdescription, if_neg (documentation_ofSymbol_ne_empty s)]

/-- A document in which a number is declared. -/
def numberText : Text :=
  "var n = 1;\n".toList

/-- After the list was made the number becomes a string, the new text is analysed and the document
is closed. -/
def retypedThenClosed : List Event :=
  [.changeDocument "doc" 2 [⟨none, "\n\nvar m = 2;\nvar n = \"s\";".toList⟩], .wait 200,
    .closeDocument "doc"]

/-- The variable is still described as a number with its first value, and the answer is the item
that was offered, with this description. -/
theorem number_described_after_retypedThenClosed :
    ∃ candidate ∈ complete numberText ⟨1, 0⟩ (Symbol.Table.ofText numberText),
      candidate.label = "n" ∧ candidate.kind = .variable ∧
      ∃ item,
        ((World.after {} ([.connect, .openDocument "doc" 1 numberText] ++
          .complete "doc" ⟨1, 0⟩ :: retypedThenClosed)).step
            (.resolve (Item.ofCandidate candidate))).reply = .item item ∧
        item.label = "n" ∧ item.data = some candidate.key.toJson ∧
        item.detail = some "var n: number" ∧
        item.documentation = some "Type: number\nScope: global\nDeclared value: 1\n" := by
  have hget : (World.after {} [.connect, .openDocument "doc" 1 numberText]).documents.get? "doc" =
      some { text := numberText, version := 1 } := by
    decide +kernel
  have hlist := (World.completeAt_of_get? ⟨1, 0⟩ hget).2
  have hrest : ∀ outcome ∈ (World.after {} ([.connect, .openDocument "doc" 1 numberText] ++
      [.complete "doc" ⟨1, 0⟩])).run retypedThenClosed, outcome.reply.isList = false := by
    decide +kernel
  have hoffered : ∃ candidate ∈ complete numberText ⟨1, 0⟩ (Symbol.Table.ofText numberText),
      candidate.label = "n" ∧ candidate.kind = .variable ∧
      Description.ofKey candidate.key (Symbol.Table.ofText numberText) =
        ⟨"var n: number", "Type: number\nScope: global\nDeclared value: 1\n"⟩ := by
    decide +kernel
  obtain ⟨candidate, hmem, hlabel, hkind, hdescription⟩ := hoffered
  obtain ⟨d, hd, -, hall⟩ := items_described_by_their_list _ _ _ _ _ hlist hrest
  obtain rfl := Option.some.inj (hget.symm.trans hd)
  obtain ⟨-, item, description, hreply, rfl, rfl, -⟩ := hall candidate hmem
  refine ⟨candidate, hmem, hlabel, hkind, _, hreply, hlabel, rfl, ?_, ?_⟩
  · exact congrArg (fun description => some description.detail) hdescription
  · exact congrArg (fun description : Description =>
      if description.documentation = "" then none else some description.documentation) hdescription

end Server

end MacroScript
