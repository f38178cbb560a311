import MacroScript.Proofs.Symbol.History
import MacroScript.Proofs.Symbol.LoopVariable

/-!
# Names declared outside all blocks

A symbol is put in on the line that declares it, and everything that is recorded with it later comes
from that line or one after it (`exists_inserted`). A declaration outside all blocks is never
closed, so a second one only gives the symbol a new tag, and **a name has at most one global
symbol** (`Symbol.Table.eq_of_global`).

On a line before all declarations of a name, nothing but this one symbol can be seen of it: a block
is only seen from the declaration on, while a global symbol is seen on every line. So **the tag of a
name before its declarations is that of its global symbol** (`Symbol.Table.namesOn_eq_some_iff`).
-/
namespace MacroScript

namespace Collector

/-! ## 1. How a symbol is put in -/

/-- A name is only put in if no symbol of that name is open; otherwise the declaration retags. -/
theorem latestOpen_of_declareAction {c : Collector} {name value : Text} {tag : Tag}
    {origin : Origin} {line : Nat} {name' value' : Text} {tag' : Tag} {origin' : Origin}
    {line' : Nat} (h : .insert name' value' tag' origin' line' =
      c.declareAction name value tag origin line) : c.table.latestOpen name' = none := by
  unfold declareAction at h
  split at h
  · contradiction
  · next hnone =>
    obtain ⟨rfl, -⟩ := Action.insert.inj h
    exact hnone

/-- What the statement of a line puts in, it declares, and an assignment puts nothing in. -/
theorem latestOpen_of_mem_statementActions {c : Collector} {l : Line} {first : Token}
    {tokens : List Token} {name value : Text} {tag : Tag} {origin : Origin} {line : Nat}
    (h : .insert name value tag origin line ∈ c.statementActions l first tokens) :
    c.table.latestOpen name = none := by
  unfold statementActions at h
  split at h
  · obtain ⟨d, -, hd⟩ := mem_foundActions.mp h
    exact latestOpen_of_declareAction hd
  · split at h
    · obtain ⟨d, -, hd⟩ := mem_foundActions.mp h
      exact latestOpen_of_declareAction hd
    · unfold assignActions at h
      split at h
      · split at h
        · split at h <;> simp at h
        · simp at h
      · simp at h

/-- A frame is open after actions that open one and close none, whatever was open before them. -/
theorem frames_ne_nil_of_edges (as : List Action) {front : List Action}
    (h : edges front = [.opener]) : (performAll {} (as ++ front)).frames ≠ [] := by
  have hlength := (nested_performAll (as ++ front)).length_eq
  rw [nesting, edges_append, h, Nesting.ofEdges_append, List.foldl_cons, List.foldl_nil] at hlength
  intro hnil
  rw [hnil] at hlength
  simp [Nesting.read] at hlength

/-- **How a symbol came to be**: after some actions it is put in on a line, outside all frames only
if no symbol of its name is open, and has grown since on that line and later ones. A parameter is
put in without a look at open names, but never outside all frames. -/
theorem exists_inserted {lines : List Line} (hlines : lines.Pairwise fun k l => k.index < l.index)
    {i : Nat} {s : Symbol} (hs : (readLines lines).table.symbols[i]? = some s) :
    ∃ as bs name value tag origin line,
      actions lines = as ++ .insert name value tag origin line :: bs ∧
      i = (performAll {} as).table.symbols.length ∧
      (newSymbol (performAll {} as) name value tag origin line).GrowsTo (line ≤ ·) s ∧
      ((performAll {} as).frames = [] → (performAll {} as).table.latestOpen name = none) := by
  obtain ⟨before, l, after, front, name, value, tag, origin, back, rfl, hcode, hactions, rfl,
    hstate, hall⟩ := exists_insert_of_ofLines hs
  -- what is left of the line and the lines after it is not written on earlier lines
  have hlater : ∀ a ∈ back ++ ((readLines before).readLine l).actionsFrom
      (after.filter Line.isCode), ∀ n, a.writtenOn? = some n → l.index ≤ n := by
    intro a ha n hn
    rcases List.mem_append.mp ha with ha | ha
    · have hline := writtenOn_lineActions (readLines before) l a (by simp [hactions, ha]) n hn
      exact Nat.le_of_eq hline.symm
    · obtain ⟨k, hk, rfl⟩ := exists_line_of_mem_actionsFrom ha hn
      have hpair := (List.pairwise_cons.mp (List.pairwise_append.mp hlines).2.1).1
      exact Nat.le_of_lt (hpair k (List.mem_filter.mp hk).1)
  refine ⟨_, _, name, value, tag, origin, l.index, hall, by rw [hstate], ?_, fun hframes => ?_⟩
  · rw [← performAll_actions, hall, ← hstate] at hs
    exact growsTo_of_inserted_on hlater hs
  · rcases (insert_of_lineActions hactions).2 with ⟨-, -, hedges⟩ | ⟨-, first, rest, hscan, rfl⟩
    · exact absurd hframes (frames_ne_nil_of_edges _ hedges)
    · simp only [lineActions, hscan, List.append_cancel_left_eq] at hactions
      rw [hstate]
      exact latestOpen_of_mem_statementActions (hactions ▸ List.mem_cons_self)

end Collector

/-! ## 2. Global symbols -/

/-- A scope that is global now has always been. -/
theorem Scope.Becomes.eq_global {scope scope' : Scope} (h : scope.Becomes scope')
    (hglobal : scope' = .global) : scope = .global := by
  cases h with
  | same => exact hglobal
  | closed start line => contradiction

namespace Symbol.Table

open Collector

/-- A symbol is global or seen from its declaration on, and assigned to no earlier than that: it was
put in with this scope, and all that came after it is written on that line or later. -/
theorem scope_and_assignments (t : Text) {s : Symbol} (hs : s ∈ (ofText t).symbols) :
    (s.scope = .global ∨ ∃ stop, s.scope = .block s.declaredLine stop) ∧
      ∀ r ∈ s.reassignments, s.declaredLine ≤ r.line := by
  obtain ⟨i, hi⟩ := List.mem_iff_getElem?.mp hs
  obtain ⟨as, -, name, value, tag, origin, line, -, -, hgrows, -⟩ :=
    exists_inserted (Line.index_lt_ofText t) hi
  have hline : s.declaredLine = line := hgrows.declaredLine
  constructor
  · rcases scope_of_growsTo hgrows with ⟨-, hglobal⟩ | ⟨-, hblock⟩
    · exact .inl hglobal
    · rw [hline]
      exact .inr hblock
  · obtain ⟨more, hmore, hlater⟩ := hgrows.reassignments
    have hnone : (newSymbol (performAll {} as) name value tag origin line).reassignments = [] := rfl
    rw [hnone, List.nil_append] at hmore
    rw [hmore, hline]
    exact hlater

/-- An open symbol is found by its name, or a later one of that name. -/
theorem latestOpen_ne_none {table : Table} {s : Symbol} (hs : s ∈ table.symbols)
    (hopen : s.scope.isOpen) : table.latestOpen s.name ≠ none := by
  intro hnone
  have hnot := List.find?_eq_none.mp hnone s (List.mem_reverse.mpr hs)
  simp [hopen] at hnot

/-- Of two global symbols of one name none comes before the other. The earlier one is open for good,
so the later one would only have retagged it. -/
theorem not_lt_of_global {t : Text} {i j : Nat} {s s' : Symbol}
    (hs : (ofText t).symbols[i]? = some s) (hs' : (ofText t).symbols[j]? = some s')
    (hglobal : s.scope = .global) (hglobal' : s'.scope = .global) (hname : s.name = s'.name) :
    ¬ i < j := by
  intro hlt
  -- the later of the two is put in while the earlier one is there, and open as it always is
  obtain ⟨as, bs, name, value, tag, origin, line, hactions, rfl, hgrows', hnone⟩ :=
    exists_inserted (Line.index_lt_ofText t) hs'
  have hframes : (performAll {} as).frames = [] := by
    rcases scope_of_growsTo hgrows' with ⟨hframes, -⟩ | ⟨-, stop, hblock⟩
    · exact hframes
    · rw [hglobal'] at hblock
      contradiction
  have hcut := List.getElem?_eq_getElem hlt
  have hgrowth : Symbol.Table.GrowsTo (fun _ => True) (performAll {} as).table (ofText t) := by
    rw [ofText, ofLines, ← performAll_actions, hactions, performAll_append]
    exact (wellFormed_empty.performAll as).growsTo_performAll fun _ _ _ _ => trivial
  obtain ⟨_, hsame, hgrows⟩ := hgrowth.symbols i _ hcut
  obtain rfl := Option.some.inj (hsame.symm.trans hs)
  have hopen := hgrows.scope.eq_global hglobal
  refine latestOpen_ne_none (List.mem_of_getElem? hcut) (by rw [hopen]; rfl) ?_
  rw [← hgrows.name, hname, hgrows'.name]
  exact hnone hframes

/-- **A name has at most one global symbol.** By symmetry neither of two can come first. -/
theorem eq_of_global {t : Text} {s s' : Symbol} (hs : s ∈ (ofText t).symbols)
    (hs' : s' ∈ (ofText t).symbols) (hglobal : s.scope = .global) (hglobal' : s'.scope = .global)
    (hname : s.name = s'.name) : s = s' := by
  obtain ⟨i, hi⟩ := List.mem_iff_getElem?.mp hs
  obtain ⟨j, hj⟩ := List.mem_iff_getElem?.mp hs'
  have hle := not_lt_of_global hi hj hglobal hglobal' hname
  have hge := not_lt_of_global hj hi hglobal' hglobal hname.symm
  obtain rfl : i = j := by omega
  exact Option.some.inj (hi.symm.trans hj)

/-! ## 3. Names before their declarations -/

/-- Before its declaration a symbol can only be seen if it is global, and it has the tag that its
last declaration gives it: no assignment comes that early. -/
theorem tagOn_of_lt {t : Text} {s : Symbol} (hs : s ∈ (ofText t).symbols) {line : Nat}
    (hline : line < s.declaredLine) :
    (s.scope.contains line ↔ s.scope = .global) ∧ s.tagOn line = s.tag := by
  obtain ⟨hscope, hassigned⟩ := scope_and_assignments t hs
  constructor
  · rcases hscope with hglobal | ⟨stop, hblock⟩
    · simp [hglobal, Scope.contains]
    · simp [hblock, Scope.contains]
      omega
  · have hnone : s.latestAssignment line = none := by
      rw [latestAssignment, List.find?_eq_none]
      intro r hr
      have hle := hassigned r (List.mem_reverse.mp hr)
      simp only [decide_eq_true_eq]
      omega
    rw [tagOn, hnone]

/-- **What is known of a name before all its declarations** is the tag of its global symbol. -/
theorem namesOn_eq_some_iff {t name : Text} {line : Nat}
    (h : ∀ s ∈ (ofText t).symbols, s.name = name → line < s.declaredLine) {tag : Tag} :
    (ofText t).namesOn line name = some tag ↔
      ∃ s ∈ (ofText t).symbols, s.name = name ∧ s.scope = .global ∧ s.tag = tag := by
  have hseen {s : Symbol} (hs : s ∈ (ofText t).symbols) (hname : s.name = name) :=
    tagOn_of_lt hs (h s hs hname)
  rw [namesOn, Option.map_eq_some_iff]
  constructor
  · rintro ⟨s, hfind, htag⟩
    have hs := List.mem_reverse.mp (List.mem_of_find?_eq_some hfind)
    have hmeant := List.find?_some hfind
    simp only [Bool.and_eq_true, beq_iff_eq] at hmeant
    obtain ⟨hcontains, hsame⟩ := hseen hs hmeant.1
    exact ⟨s, hs, hmeant.1, hcontains.mp hmeant.2, hsame.symm.trans htag⟩
  · rintro ⟨s, hs, hname, hglobal, htag⟩
    have hmeant : (s.name == name && s.scope.contains line) = true := by
      simp [hname, hglobal, Scope.contains]
    have hsome : ((ofText t).meaningOn name line).isSome :=
      List.find?_isSome.mpr ⟨s, List.mem_reverse.mpr hs, hmeant⟩
    -- the search finds some symbol of the name; that one is global as well, and there is just one
    -- such
    obtain ⟨s', hfind⟩ := Option.isSome_iff_exists.mp hsome
    have hs' := List.mem_reverse.mp (List.mem_of_find?_eq_some hfind)
    have hmeant' := List.find?_some hfind
    simp only [Bool.and_eq_true, beq_iff_eq] at hmeant'
    have hglobal' := (hseen hs' hmeant'.1).1.mp hmeant'.2
    obtain rfl := eq_of_global hs hs' hglobal hglobal' (hname.trans hmeant'.1.symm)
    exact ⟨s, hfind, (hseen hs hname).2.trans htag⟩

end Symbol.Table

end MacroScript
