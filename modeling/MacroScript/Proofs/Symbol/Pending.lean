import MacroScript.Proofs.Symbol.Action
import Mathlib.Data.List.Range

/-!
# What the open frames hold

Each frame holds the ids of the symbols that were put in while it was the innermost one. Read from
the outermost frame to the innermost, these lists are **the symbols whose scope has no end yet, in
the order of their ids and each once** (`WellFormed`). Every single action keeps this, so it holds
after each of them, whatever the lines are.

It is what makes the end of a scope final: a frame that is closed holds only symbols whose scope is
still open, so no end is written over (`WellFormed.scope_perform_of_settled`).
-/
namespace MacroScript

/-- The scope belongs to a block that is still open. -/
def Scope.isPending : Scope → Bool
  | .block _ none => true
  | _ => false

/-- A scope that belongs to an open block is a block without an end. -/
theorem Scope.isPending_iff {scope : Scope} :
    scope.isPending ↔ ∃ start, scope = .block start none := by
  cases scope with
  | global => simp [isPending]
  | block start stop => cases stop <;> simp [isPending]

@[simp] theorem Scope.isPending_closeAt (line : Nat) (scope : Scope) :
    (scope.closeAt line).isPending = false := by
  cases scope <;> rfl

namespace Collector

/-! ## 1. The invariant -/

/-- The ids that the open frames hold, from the outermost frame to the innermost. The stack is
turned round for this, so that the list goes with the order of insertion. -/
def pendingIds (c : Collector) : List Nat :=
  c.frames.reverse.flatMap Frame.pending

/-- The ids of the symbols whose scope has no end yet. -/
def openIds (symbols : List Symbol) : List Nat :=
  (symbols.filter fun s => s.scope.isPending).map Symbol.id

theorem openIds_append (symbols more : List Symbol) :
    openIds (symbols ++ more) = openIds symbols ++ openIds more := by
  rw [openIds, List.filter_append, List.map_append]
  rfl

/-- A symbol's id is its place, and the frames hold the symbols whose scope has no end yet. The
second is an equation of lists: it says that the order agrees and that nothing is held twice. -/
structure WellFormed (c : Collector) : Prop where
  id_eq : ∀ (i : Nat) (s : Symbol), c.table.symbols[i]? = some s → s.id = i
  pendingIds_eq : c.pendingIds = openIds c.table.symbols

/-- The innermost frame comes last in the list, and so holds the largest ids. -/
theorem pendingIds_cons {c : Collector} {frame : Frame} {frames : List Frame}
    (h : c.frames = frame :: frames) :
    c.pendingIds = frames.reverse.flatMap Frame.pending ++ frame.pending := by
  rw [pendingIds, h, List.reverse_cons, List.flatMap_append]
  simp

/-- An id is pending if one of the frames holds it. -/
theorem mem_pendingIds {c : Collector} {i : Nat} :
    i ∈ c.pendingIds ↔ ∃ frame ∈ c.frames, i ∈ frame.pending := by
  simp [pendingIds]

namespace WellFormed

variable {c : Collector}

/-- A symbol stands in the place that its id names, so that a change by id is a change of that
symbol. -/
theorem getElem?_id (h : c.WellFormed) {s : Symbol} (hs : s ∈ c.table.symbols) :
    c.table.symbols[s.id]? = some s := by
  obtain ⟨i, hi⟩ := List.mem_iff_getElem?.mp hs
  rwa [h.id_eq i s hi]

/-- The ids are the places, from zero on. Order and uniqueness of the ids come from this. -/
theorem map_id (h : c.WellFormed) :
    c.table.symbols.map Symbol.id = List.range c.table.symbols.length := by
  apply List.ext_getElem?
  intro i
  rw [List.getElem?_map]
  cases hs : c.table.symbols[i]? with
  | none =>
    have hle := List.getElem?_eq_none_iff.mp hs
    rw [List.getElem?_eq_none (by rw [List.length_range]; exact hle)]
    rfl
  | some s =>
    have hlt := (List.getElem?_eq_some_iff.mp hs).1
    rw [List.getElem?_range hlt, Option.map_some, h.id_eq i s hs]

/-- Symbols are listed in the order of their ids. -/
theorem pairwise_id (h : c.WellFormed) : c.table.symbols.Pairwise fun s s' => s.id < s'.id := by
  rw [← List.pairwise_map (f := Symbol.id) (R := (· < ·)), h.map_id]
  exact List.pairwise_lt_range

/-- **A search from the end finds the largest id.** The reader looks names up in this way, and so
comes to the latest symbol that qualifies. -/
theorem id_le_of_find? (h : c.WellFormed) {p : Symbol → Bool} {s : Symbol}
    (hfind : c.table.symbols.reverse.find? p = some s) :
    ∀ s' ∈ c.table.symbols, p s' → s'.id ≤ s.id := by
  intro s' hs' hp
  obtain ⟨-, later, earlier, hsplit, hlater⟩ := List.find?_eq_some_iff_append.mp hfind
  have hsymbols : c.table.symbols = earlier.reverse ++ s :: later.reverse := by
    rw [← List.reverse_reverse c.table.symbols, hsplit]
    simp
  have hpair := h.pairwise_id
  rw [hsymbols] at hpair hs'
  rcases List.mem_append.mp hs' with hmem | hmem
  · exact Nat.le_of_lt ((List.pairwise_append.mp hpair).2.2 s' hmem s List.mem_cons_self)
  · rcases List.mem_cons.mp hmem with rfl | hmem
    · exact Nat.le_refl _
    · -- what comes after the symbol was passed over by the search
      have hnot := hlater s' (List.mem_reverse.mp hmem)
      rw [hp] at hnot
      contradiction

/-- **The pending ids go upwards**, so none of them comes twice: they are some of the ids in the
order of the symbols. -/
theorem pairwise_pendingIds (h : c.WellFormed) : c.pendingIds.Pairwise (· < ·) := by
  have hsub : (openIds c.table.symbols).Sublist (c.table.symbols.map Symbol.id) :=
    List.filter_sublist.map Symbol.id
  rw [h.map_id] at hsub
  rw [h.pendingIds_eq]
  exact List.pairwise_lt_range.sublist hsub

/-- A pending id is that of a symbol whose scope has no end yet. -/
theorem exists_of_mem_pendingIds (h : c.WellFormed) {i : Nat} (hi : i ∈ c.pendingIds) :
    ∃ s, c.table.symbols[i]? = some s ∧ s.scope.isPending = true := by
  rw [h.pendingIds_eq, openIds, List.mem_map] at hi
  obtain ⟨s, hs, rfl⟩ := hi
  obtain ⟨hmem, hpending⟩ := List.mem_filter.mp hs
  obtain ⟨j, hj⟩ := List.getElem?_of_mem hmem
  rw [h.id_eq j s hj]
  exact ⟨s, hj, hpending⟩

/-- A symbol held by the innermost frame has a scope with no end. Closing that frame therefore never
moves an end that was set before. -/
theorem isPending_of_mem_innermost (h : c.WellFormed) {frame : Frame} {frames : List Frame}
    (hframes : c.frames = frame :: frames) {i : Nat} (hi : i ∈ frame.pending) {s : Symbol}
    (hs : c.table.symbols[i]? = some s) : s.scope.isPending = true := by
  have hpending : i ∈ c.pendingIds :=
    mem_pendingIds.mpr ⟨frame, by rw [hframes]; exact List.mem_cons_self, hi⟩
  obtain ⟨t, ht, hopen⟩ := h.exists_of_mem_pendingIds hpending
  rw [hs, Option.some.injEq] at ht
  rw [ht]
  exact hopen

/-- An id is held by one frame only, since the pending ids go strictly upwards from frame to frame.
-/
theorem not_mem_below (h : c.WellFormed) {frame : Frame} {frames : List Frame}
    (hframes : c.frames = frame :: frames) {i : Nat} (hi : i ∈ frame.pending) :
    ∀ f ∈ frames, i ∉ f.pending := by
  intro f hf hmem
  have hpair := h.pairwise_pendingIds
  rw [pendingIds_cons hframes, List.pairwise_append] at hpair
  have hbelow : i ∈ frames.reverse.flatMap Frame.pending :=
    List.mem_flatMap.mpr ⟨f, List.mem_reverse.mpr hf, hmem⟩
  exact Nat.lt_irrefl i (hpair.2.2 i hbelow i hi)

end WellFormed

/-! ## 2. Every action keeps it -/

/-- No action changes an id, so that symbols stay in the places that their ids name. -/
theorem Action.change_id (a : Action) (frames : List Frame) (i : Nat) (s : Symbol) :
    (a.change frames i s).id = s.id := by
  cases a <;> simp only [Action.change] <;> split <;> rfl

/-- Changing neither the id nor the scope of a symbol leaves the open ids alone. Re-declarations and
assignments are such changes. -/
theorem openIds_modify (symbols : List Symbol) (i : Nat) (change : Symbol → Symbol)
    (hid : ∀ s, (change s).id = s.id) (hscope : ∀ s, (change s).scope = s.scope) :
    openIds (symbols.modify i change) = openIds symbols := by
  induction symbols generalizing i with
  | nil => cases i <;> rfl
  | cons s symbols ih =>
    cases i with
    | zero => simp [openIds, List.filter_cons, hid, hscope, apply_ite (List.map Symbol.id)]
    | succ i =>
      have htail := ih i
      unfold openIds at htail ⊢
      rw [List.modify_succ_cons, List.filter_cons, List.filter_cons]
      split
      · rw [List.map_cons, List.map_cons, htail]
      · exact htail

/-- Ending the scopes of some ids takes these out of the open ids, and leaves the others in their
order. -/
theorem openIds_endScopes {c : Collector} (h : c.WellFormed) (line : Nat) (ids : List Nat) :
    openIds (endScopes line ids c.table).symbols =
      (openIds c.table.symbols).filter fun id => !ids.contains id := by
  -- with ids for places, ending scopes is a map over the symbols
  have hmap : (endScopes line ids c.table).symbols =
      c.table.symbols.map fun s =>
        if s.id ∈ ids then { s with scope := s.scope.closeAt line } else s := by
    apply List.ext_getElem?
    intro i
    rw [endScopes_getElem?, List.getElem?_map]
    cases hs : c.table.symbols[i]? with
    | none => rfl
    | some s => rw [Option.map_some, Option.map_some, h.id_eq i s hs]
  rw [hmap]
  generalize c.table.symbols = symbols
  induction symbols with
  | nil => rfl
  | cons s symbols ih =>
    unfold openIds at ih ⊢
    by_cases hmem : s.id ∈ ids <;> by_cases hs : s.scope.isPending <;>
      simp [hmem, hs, ih]

/-- **Every action keeps the invariant.** Opening, taking a brace and registering leave both lists
as they are, an insertion adds to the end of both, and a closing takes the same ids out of both. -/
theorem WellFormed.perform {c : Collector} (h : c.WellFormed) (a : Action) :
    (c.perform a).WellFormed := by
  constructor
  · intro i s hs
    by_cases hlt : i < c.table.symbols.length
    · obtain ⟨old, hold⟩ : ∃ old, c.table.symbols[i]? = some old :=
        ⟨_, List.getElem?_eq_getElem hlt⟩
      rw [perform_symbol c a hold, Option.some.injEq] at hs
      rw [← hs, Action.change_id, h.id_eq i old hold]
    · obtain ⟨_, _, _, _, _, -, hi, rfl⟩ := perform_newSymbol (Nat.le_of_not_lt hlt) hs
      exact hi.symm
  · have hpending := h.pendingIds_eq
    cases a with
    | openFrame kind line awaits =>
      rw [Collector.perform, pendingIds_cons (c := c.openFrame kind line awaits) rfl,
        List.append_nil]
      exact hpending
    | closeFrame line =>
      cases hframes : c.frames with
      | nil => simpa [Collector.perform, closeFrame, hframes] using hpending
      | cons frame frames =>
        simp only [Collector.perform, closeFrame, hframes]
        have hpair := h.pairwise_pendingIds
        rw [pendingIds_cons hframes] at hpending hpair
        rw [openIds_endScopes h, ← hpending, List.filter_append]
        -- what the closed frame held is gone, and no frame below it held any of that
        have hgone : frame.pending.filter (fun id => !frame.pending.contains id) = [] := by
          simp [List.filter_eq_nil_iff]
        have hkept : (frames.reverse.flatMap Frame.pending).filter
            (fun id => !frame.pending.contains id) = frames.reverse.flatMap Frame.pending := by
          rw [List.filter_eq_self]
          intro id hid
          have hnot : id ∉ frame.pending := fun hmem =>
            Nat.lt_irrefl id ((List.pairwise_append.mp hpair).2.2 id hid id hmem)
          simpa using hnot
        rw [hgone, hkept, List.append_nil]
        rfl
    | takeBrace =>
      cases hframes : c.frames with
      | nil => simpa [Collector.perform, hframes] using hpending
      | cons frame frames =>
        rw [pendingIds_cons hframes] at hpending
        simpa [Collector.perform, hframes, pendingIds] using hpending
    | register kind name =>
      simp only [Collector.perform, registerHeader]
      split
      · exact hpending
      · split <;> exact hpending
    | insert name value tag origin line =>
      rw [Collector.perform, insert_table, openIds_append, ← hpending]
      cases hframes : c.frames with
      | nil => simp [pendingIds, insert, hframes, openIds, newSymbol, Scope.isPending]
      | cons frame frames =>
        simp [pendingIds, insert, hframes, openIds, newSymbol, Scope.isPending]
    | retag id tag line =>
      refine hpending.trans (openIds_modify c.table.symbols id _ ?_ ?_).symm <;> exact fun _ => rfl
    | assign id entry =>
      refine hpending.trans (openIds_modify c.table.symbols id _ ?_ ?_).symm <;> exact fun _ => rfl

/-- With nothing read, nothing is pending. -/
theorem wellFormed_empty : WellFormed {} :=
  ⟨fun i s h => by simp at h, rfl⟩

/-- Any run of actions keeps the invariant, so it holds at every point of a reading. -/
theorem WellFormed.performAll {c : Collector} (h : c.WellFormed) (as : List Action) :
    (c.performAll as).WellFormed := by
  induction as generalizing c with
  | nil => exact h
  | cons a as ih => exact ih (h.perform a)

/-! ## 3. Scopes that are settled -/

/-- Only closing a frame that holds the symbol changes its scope. Proofs about scopes have two cases
by this, whatever the action. -/
theorem Action.change_scope (a : Action) (frames : List Frame) (i : Nat) (s : Symbol) :
    (a.change frames i s).scope = s.scope ∨
      ∃ line frame rest, a = .closeFrame line ∧ frames = frame :: rest ∧ i ∈ frame.pending ∧
        (a.change frames i s).scope = s.scope.closeAt line := by
  cases a with
  | closeFrame line =>
    cases frames with
    | nil => exact .inl rfl
    | cons frame rest =>
      by_cases hmem : i ∈ frame.pending
      · exact .inr ⟨line, frame, rest, rfl, rfl, hmem, by simp [Action.change, hmem]⟩
      · exact .inl (by simp [Action.change, hmem])
  | retag id tag line => left; simp only [Action.change]; split <;> rfl
  | assign id entry => left; simp only [Action.change]; split <;> rfl
  | _ => exact .inl rfl

/-- **A settled scope stays**: an action changes neither a global scope nor one that has an end,
because no frame holds such a symbol. -/
theorem WellFormed.scope_perform_of_settled {c : Collector} (h : c.WellFormed) (a : Action)
    {i : Nat} {s : Symbol} (hs : c.table.symbols[i]? = some s)
    (hsettled : s.scope.isPending = false) : (a.change c.frames i s).scope = s.scope := by
  rcases a.change_scope c.frames i s with heq | ⟨line, frame, rest, -, hframes, hmem, -⟩
  · exact heq
  · rw [h.isPending_of_mem_innermost hframes hmem hs] at hsettled
    contradiction

/-- A symbol stays at its place, and a settled scope stays as it is, through any actions. -/
theorem WellFormed.scope_performAll_of_settled {c : Collector} (h : c.WellFormed)
    (as : List Action) {i : Nat} {s : Symbol} (hs : c.table.symbols[i]? = some s)
    (hsettled : s.scope.isPending = false) :
    ∃ s', (c.performAll as).table.symbols[i]? = some s' ∧ s'.scope = s.scope := by
  induction as generalizing c s with
  | nil => exact ⟨s, hs, rfl⟩
  | cons a as ih =>
    have hscope := h.scope_perform_of_settled a hs hsettled
    obtain ⟨s', hs', hkeep⟩ :=
      ih (h.perform a) (perform_symbol c a hs) (by rw [hscope]; exact hsettled)
    exact ⟨s', hs', hkeep.trans hscope⟩

end Collector

end MacroScript
