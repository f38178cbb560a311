import MacroScript.Proofs.Symbol.Pending

/-!
# A table only grows

A document that goes on changes nothing of what was settled before. Functions, classes and the ends
of `do` blocks are only added to. **A symbol keeps its place, its name and its declaration**; what
can still happen to it is that its open block is closed, that it is assigned to on a further line,
or that it is declared again on a further line, which then gives it its tag.

`Symbol.GrowsTo` says this for one symbol and is kept by every action. So it holds between any two
points of a reading, and between the table of some lines and that of these lines and further ones.
-/
namespace MacroScript

/-! ## 1. What can still happen -/

/-- What can become of a scope: an open block can be closed, and nothing else. A global scope stays
global, and an end is never moved. -/
inductive Scope.Becomes : Scope → Scope → Prop
  | same (scope : Scope) : Becomes scope scope
  | closed (start line : Nat) : Becomes (.block start none) (.block start (some line))

/-- A scope that has been closed is closed for good, so that two changes in a row are at most one.
-/
theorem Scope.Becomes.trans {a b c : Scope} (hab : a.Becomes b) (hbc : b.Becomes c) :
    a.Becomes c := by
  cases hab with
  | same => exact hbc
  | closed start line =>
    cases hbc with
    | same => exact .closed start line

/-- What can become of a symbol on further lines: its declaration stays, an open scope may end,
assignments on these lines come last, and a re-declaration on one of them gives it its tag.
`isFurther` says which lines those are. -/
structure Symbol.GrowsTo (isFurther : Nat → Prop) (s s' : Symbol) : Prop where
  id : s'.id = s.id
  name : s'.name = s.name
  origin : s'.origin = s.origin
  declaredLine : s'.declaredLine = s.declaredLine
  declaredValue : s'.declaredValue = s.declaredValue
  scope : s.scope.Becomes s'.scope
  reassignments : ∃ more, s'.reassignments = s.reassignments ++ more ∧
    ∀ r ∈ more, isFurther r.line
  tag : s'.tag = s.tag ∧ s'.redeclaredLine = s.redeclaredLine ∨
    ∃ line, isFurther line ∧ s'.redeclaredLine = some line

namespace Symbol.GrowsTo

variable {isFurther : Nat → Prop}

theorem refl (s : Symbol) : s.GrowsTo isFurther s :=
  ⟨rfl, rfl, rfl, rfl, rfl, .same _, ⟨[], by simp, by simp⟩, .inl ⟨rfl, rfl⟩⟩

theorem trans {s s' s'' : Symbol} (h : s.GrowsTo isFurther s') (h' : s'.GrowsTo isFurther s'') :
    s.GrowsTo isFurther s'' := by
  refine ⟨h'.id.trans h.id, h'.name.trans h.name, h'.origin.trans h.origin,
    h'.declaredLine.trans h.declaredLine, h'.declaredValue.trans h.declaredValue,
    h.scope.trans h'.scope, ?_, ?_⟩
  · obtain ⟨more, hmore, hlines⟩ := h.reassignments
    obtain ⟨more', hmore', hlines'⟩ := h'.reassignments
    refine ⟨more ++ more', by rw [hmore', hmore, List.append_assoc], ?_⟩
    intro r hr
    rcases List.mem_append.mp hr with hr | hr
    · exact hlines r hr
    · exact hlines' r hr
  · rcases h'.tag with ⟨htag', hline'⟩ | hagain
    · rcases h.tag with ⟨htag, hline⟩ | ⟨line, hnew, hline⟩
      · exact .inl ⟨htag'.trans htag, hline'.trans hline⟩
      · exact .inr ⟨line, hnew, hline'.trans hline⟩
    · exact .inr hagain

end Symbol.GrowsTo

/-- What can become of a table on further lines. Symbols correspond place by place, and the other
lists are only added to at their end. -/
structure Symbol.Table.GrowsTo (isFurther : Nat → Prop) (table table' : Symbol.Table) : Prop where
  functions : table.functions <+: table'.functions
  classes : table.classes <+: table'.classes
  doBlockEnds : table.doBlockEnds <+: table'.doBlockEnds
  symbols : ∀ (i : Nat) (s : Symbol), table.symbols[i]? = some s →
    ∃ s', table'.symbols[i]? = some s' ∧ s.GrowsTo isFurther s'

namespace Symbol.Table.GrowsTo

variable {isFurther : Nat → Prop}

theorem refl (table : Symbol.Table) : table.GrowsTo isFurther table :=
  ⟨List.prefix_refl _, List.prefix_refl _, List.prefix_refl _,
    fun _ s hs => ⟨s, hs, Symbol.GrowsTo.refl s⟩⟩

theorem trans {a b c : Symbol.Table} (hab : a.GrowsTo isFurther b) (hbc : b.GrowsTo isFurther c) :
    a.GrowsTo isFurther c := by
  refine ⟨hab.functions.trans hbc.functions, hab.classes.trans hbc.classes,
    hab.doBlockEnds.trans hbc.doBlockEnds, ?_⟩
  intro i s hs
  obtain ⟨s', hs', hgrows⟩ := hab.symbols i s hs
  obtain ⟨s'', hs'', hgrows'⟩ := hbc.symbols i s' hs'
  exact ⟨s'', hs'', hgrows.trans hgrows'⟩

end Symbol.Table.GrowsTo

namespace Collector

/-! ## 2. The line an action is written on -/

/-- The line on which the text of an action stands. A closing is left out: a header that gets no
brace is closed on its own line, when a later one is read. -/
def Action.writtenOn? : Action → Option Nat
  | .openFrame _ line _ => some line
  | .insert _ _ _ _ line => some line
  | .retag _ _ line => some line
  | .assign _ entry => some entry.line
  | _ => none

/-- Every action among these is written on the line, if it is written on any. -/
def WrittenOn (line : Nat) (as : List Action) : Prop :=
  ∀ a ∈ as, ∀ n, a.writtenOn? = some n → n = line

/-- A line's actions can be judged part by part. -/
theorem writtenOn_append {line : Nat} {as bs : List Action} (has : WrittenOn line as)
    (hbs : WrittenOn line bs) : WrittenOn line (as ++ bs) := by
  intro a ha
  rcases List.mem_append.mp ha with ha | ha
  · exact has a ha
  · exact hbs a ha

theorem writtenOn_nil (line : Nat) : WrittenOn line [] := by
  intro a ha
  simp at ha

theorem writtenOn_singleton {line : Nat} {a : Action}
    (h : ∀ n, a.writtenOn? = some n → n = line) : WrittenOn line [a] := by
  intro b hb
  rw [List.mem_singleton.mp hb]
  exact h

/-- A frame that a token opens is opened on the line of the token. -/
theorem writtenOn_tokenActions (line : Nat) (c : Collector) (t : Token) :
    WrittenOn line (tokenActions line c t) := by
  unfold tokenActions
  split
  · exact writtenOn_singleton (by simp [Action.writtenOn?])
  · refine writtenOn_singleton ?_
    unfold braceAction
    split <;> simp [Action.writtenOn?]
  · split
    · exact writtenOn_singleton (by simp [Action.writtenOn?])
    · exact writtenOn_nil line
  · exact writtenOn_nil line

theorem writtenOn_tokensActions (line : Nat) (c : Collector) (ts : List Token) :
    WrittenOn line (tokensActions line c ts) := by
  induction ts generalizing c with
  | nil => exact writtenOn_nil line
  | cons t ts ih => exact writtenOn_append (writtenOn_tokenActions line c t) (ih _)

/-- The frame of a header and its parameters bear the line of the header. -/
theorem writtenOn_headerActions (l : Line) (keyword : Token) (tokens : List Token) :
    WrittenOn l.index (headerActions l keyword tokens) := by
  unfold headerActions
  refine writtenOn_append (writtenOn_singleton (by simp [Action.writtenOn?])) ?_
  split
  · exact writtenOn_nil _
  · split
    · exact writtenOn_nil _
    · refine writtenOn_append (writtenOn_singleton (by simp [Action.writtenOn?])) ?_
      intro a ha
      obtain ⟨name, -, rfl⟩ := List.mem_map.mp ha
      simp [parameterAction, Action.writtenOn?]

/-- What the statement of a line declares or assigns bears the number of that line. -/
theorem writtenOn_statementActions (c : Collector) (l : Line) (first : Token)
    (tokens : List Token) : WrittenOn l.index (c.statementActions l first tokens) := by
  rcases statementActions_cases c l first tokens with hnil | ⟨a, hone, ha⟩
  · rw [hnil]
    exact writtenOn_nil _
  · rw [hone]
    refine writtenOn_singleton ?_
    cases ha with
    | insert | retag => simp [Action.writtenOn?]
    | assign id entry hline => simp [Action.writtenOn?, hline]

/-- **The actions of a line are written on that line.** Its expiry is the exception that
`writtenOn?` leaves out: it closes on the line of the header. -/
theorem writtenOn_lineActions (c : Collector) (l : Line) :
    WrittenOn l.index (c.lineActions l) := by
  unfold lineActions
  split
  · exact writtenOn_nil _
  · refine writtenOn_append ?_ (writtenOn_statementActions _ l _ _)
    unfold frameActions firstActions expiryActions
    refine writtenOn_append (writtenOn_append ?_ (writtenOn_tokensActions _ _ _)) ?_
    · split
      · exact writtenOn_headerActions l _ _
      · exact writtenOn_tokenActions _ c _
    · split
      · split
        · exact writtenOn_singleton (by simp [Action.writtenOn?])
        · exact writtenOn_nil _
      · exact writtenOn_nil _

/-! ## 3. Every action lets the table grow -/

/-- What a symbol is after an action has grown from what it was before. That the collector is well
formed is needed where a frame is closed: it holds only symbols that have no end yet. -/
theorem WellFormed.growsTo_change {c : Collector} (h : c.WellFormed) {a : Action}
    {isFurther : Nat → Prop} (hline : ∀ n, a.writtenOn? = some n → isFurther n) {i : Nat}
    {s : Symbol} (hs : c.table.symbols[i]? = some s) :
    s.GrowsTo isFurther (a.change c.frames i s) := by
  have hsame : s.GrowsTo isFurther s := .refl s
  cases a with
  | closeFrame line =>
    cases hframes : c.frames with
    | nil => exact hsame
    | cons frame frames =>
      by_cases hmem : i ∈ frame.pending
      · -- the closed frame holds the symbol, so its scope has no end that could be lost
        have hopen := h.isPending_of_mem_innermost hframes hmem hs
        obtain ⟨start, hscope⟩ := Scope.isPending_iff.mp hopen
        have hclosed : s.scope.Becomes (s.scope.closeAt line) := by
          rw [hscope]
          exact .closed start line
        simpa [Action.change, hmem] using { hsame with scope := hclosed }
      · simpa [Action.change, hmem] using hsame
  | retag id tag line =>
    simp only [Action.change]
    split
    · exact { hsame with tag := .inr ⟨line, hline line rfl, rfl⟩ }
    · exact hsame
  | assign id entry =>
    simp only [Action.change]
    split
    · exact { hsame with reassignments := ⟨[entry], rfl, by simpa using hline entry.line rfl⟩ }
    · exact hsame
  | _ => exact hsame

/-- An action only adds to what a table lists beside its symbols: a header adds its name if it is
new, and closing the frame of a `do` adds its end. -/
theorem perform_lists (c : Collector) (a : Action) :
    c.table.functions <+: (c.perform a).table.functions ∧
      c.table.classes <+: (c.perform a).table.classes ∧
      c.table.doBlockEnds <+: (c.perform a).table.doBlockEnds := by
  cases a with
  | closeFrame line =>
    cases hframes : c.frames with
    | nil => simp [perform, closeFrame, hframes]
    | cons frame frames =>
      simp only [perform, closeFrame, hframes]
      rw [endScopes_eq]
      -- the end of the frame is added if it is one of a `do`, and otherwise nothing is
      exact ⟨List.prefix_refl _, List.prefix_refl _, List.prefix_append _ _⟩
  | takeBrace =>
    simp only [perform]
    split <;> exact ⟨List.prefix_refl _, List.prefix_refl _, List.prefix_refl _⟩
  | register kind name =>
    simp only [perform, registerHeader]
    split
    · exact ⟨List.prefix_refl _, List.prefix_refl _, List.prefix_refl _⟩
    · split
      · exact ⟨List.prefix_refl _, List.prefix_append _ _, List.prefix_refl _⟩
      · exact ⟨List.prefix_append _ _, List.prefix_refl _, List.prefix_refl _⟩
  | insert name value tag origin line =>
    rw [perform, insert_table]
    exact ⟨List.prefix_refl _, List.prefix_refl _, List.prefix_refl _⟩
  | _ => exact ⟨List.prefix_refl _, List.prefix_refl _, List.prefix_refl _⟩

/-- One action lets the table grow on the line that it is written on. -/
theorem WellFormed.growsTo_perform {c : Collector} (h : c.WellFormed) {a : Action}
    {isFurther : Nat → Prop} (hline : ∀ n, a.writtenOn? = some n → isFurther n) :
    c.table.GrowsTo isFurther (c.perform a).table := by
  obtain ⟨hfunctions, hclasses, hends⟩ := perform_lists c a
  refine ⟨hfunctions, hclasses, hends, ?_⟩
  intro i s hs
  exact ⟨_, perform_symbol c a hs, h.growsTo_change hline hs⟩

/-- **Every run of actions lets the table grow** on the lines that the actions are written on. -/
theorem WellFormed.growsTo_performAll {c : Collector} (h : c.WellFormed) {as : List Action}
    {isFurther : Nat → Prop} (hlines : ∀ a ∈ as, ∀ n, a.writtenOn? = some n → isFurther n) :
    c.table.GrowsTo isFurther (c.performAll as).table := by
  induction as generalizing c with
  | nil => exact .refl _
  | cons a as ih =>
    have hstep := h.growsTo_perform (hlines a List.mem_cons_self)
    have hrest := ih (h.perform a) fun b hb => hlines b (List.mem_cons_of_mem _ hb)
    exact hstep.trans hrest

/-! ## 4. Further lines -/

/-- The actions of code lines are written on these lines. -/
theorem exists_line_of_mem_actionsFrom {c : Collector} {ls : List Line} {a : Action}
    (ha : a ∈ c.actionsFrom ls) {n : Nat} (hn : a.writtenOn? = some n) :
    ∃ l ∈ ls, l.index = n := by
  induction ls generalizing c with
  | nil => simp [actionsFrom] at ha
  | cons l ls ih =>
    rw [actionsFrom, List.mem_append] at ha
    rcases ha with ha | ha
    · exact ⟨l, List.mem_cons_self, (writtenOn_lineActions c l a ha n hn).symm⟩
    · obtain ⟨l', hl', hindex⟩ := ih ha
      exact ⟨l', List.mem_cons_of_mem _ hl', hindex⟩

/-- The reader is well formed after any lines, as every action keeps it so. -/
theorem wellFormed_readLines (lines : List Line) : (readLines lines).WellFormed := by
  rw [← performAll_actions]
  exact wellFormed_empty.performAll _

end Collector

open Collector in
/-- **The table of a document grows with the document.** From the table of some lines to that of
these and further lines, functions, classes and ends of `do` blocks are only added to, and each
symbol grows in its place on the code lines among the further ones. -/
theorem Symbol.Table.ofLines_growsTo_append (lines more : List Line) :
    (ofLines lines).GrowsTo (fun n => ∃ l ∈ more, l.isCode ∧ l.index = n)
      (ofLines (lines ++ more)) := by
  have hrun : readLines (lines ++ more) =
      (readLines lines).performAll ((readLines lines).actionsFrom (more.filter Line.isCode)) := by
    rw [← performAll_actions, actions_append, performAll_append, performAll_actions]
  rw [ofLines, ofLines, hrun]
  refine (wellFormed_readLines lines).growsTo_performAll fun a ha n hn => ?_
  obtain ⟨l, hl, hindex⟩ := exists_line_of_mem_actionsFrom ha hn
  obtain ⟨hmem, hcode⟩ := List.mem_filter.mp hl
  exact ⟨l, hmem, hcode, hindex⟩

end MacroScript
