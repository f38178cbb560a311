import MacroScript.Proofs.Symbol.Pending

/-!
# Scopes follow the nesting of frames

Openers and closers are matched with one stack (`Nesting`): an opener is known by its number, a
closer belongs to the innermost opener that is still unmatched, and a closer with no opener left is
passed over. The frames of the reader are such openers, so a symbol can be given **the opener that
was innermost when it was put in**, and its scope is then read off the matching: it has no end as
long as that opener is unmatched, and ends on the line of the closer that is matched with it
(`scope_of_inserted`).

Nothing here looks at tokens. What the actions of a line are, and so which openers and closers a
document has, is left open.
-/
namespace MacroScript

/-! ## 1. Matching with one stack -/

/-- A place at which a scope opens, or one at which a scope closes, with its line. Only the line of
a closer matters: it is where the scopes of its opener end. -/
inductive ScopeEdge where
  | opener
  | closer (line : Nat)
deriving DecidableEq, Repr

/-- Openers and closers matched so far: how many openers there were, those that are unmatched, the
innermost first, and the others with the line of the closer of each. An opener is known by its
number, so that it can still be named once it has been matched. -/
structure Nesting where
  opened : Nat := 0
  unmatched : List Nat := []
  matched : List (Nat × Nat) := []
deriving DecidableEq, Repr

namespace Nesting

/-- The next opener or closer. A closer with no opener left is passed over. -/
def read (m : Nesting) : ScopeEdge → Nesting
  | .opener => { m with opened := m.opened + 1, unmatched := m.opened :: m.unmatched }
  | .closer line =>
    match m.unmatched with
    | [] => m
    | o :: os => { m with unmatched := os, matched := (o, line) :: m.matched }

/-- Openers and closers matched from the start. -/
def ofEdges (edges : List ScopeEdge) : Nesting :=
  edges.foldl read {}

theorem ofEdges_append (edges more : List ScopeEdge) :
    ofEdges (edges ++ more) = more.foldl read (ofEdges edges) :=
  List.foldl_append

/-- The innermost opener that is unmatched. -/
def innermost? (m : Nesting) : Option Nat :=
  m.unmatched.head?

/-- The line of the closer that is matched with the opener. -/
def closeLine? (m : Nesting) (o : Nat) : Option Nat :=
  m.matched.lookup o

/-- The scope of a symbol put in on a line, with `home` innermost then. It is global if there was no
opener, and ends with the closer of `home` if that has one by now. -/
def scopeOf (m : Nesting) (home : Option Nat) (line : Nat) : Scope :=
  match home with
  | none => .global
  | some o => .block line (m.closeLine? o)

/-- The numbers are used once: an opener is unmatched or matched, and has been opened. Without this
a closer could be looked up that belongs to another opener. -/
structure Sound (m : Nesting) : Prop where
  lt_opened : ∀ o ∈ m.unmatched, o < m.opened
  nodup : m.unmatched.Nodup
  of_matched : ∀ o line, (o, line) ∈ m.matched → o < m.opened ∧ o ∉ m.unmatched

theorem sound_empty : Sound {} :=
  ⟨by simp, List.nodup_nil, by simp⟩

/-- One more opener or closer keeps the numbers apart. -/
theorem Sound.read {m : Nesting} (h : m.Sound) (e : ScopeEdge) : (m.read e).Sound := by
  cases e with
  | opener =>
    -- openers are numbered in their order, so the number of the new one is not on the stack
    have hfresh : m.opened ∉ m.unmatched := fun hmem => Nat.lt_irrefl _ (h.lt_opened _ hmem)
    refine ⟨?_, List.nodup_cons.mpr ⟨hfresh, h.nodup⟩, ?_⟩
    · intro o ho
      rcases List.mem_cons.mp ho with rfl | ho
      · exact Nat.lt_succ_self _
      · exact Nat.lt_succ_of_lt (h.lt_opened o ho)
    · intro o line hmem
      obtain ⟨hlt, hnot⟩ := h.of_matched o line hmem
      refine ⟨Nat.lt_succ_of_lt hlt, fun ho => ?_⟩
      rcases List.mem_cons.mp ho with rfl | ho
      · exact Nat.lt_irrefl _ hlt
      · exact hnot ho
  | closer line =>
    cases hstack : m.unmatched with
    | nil => simpa [Nesting.read, hstack] using h
    | cons o os =>
      -- the innermost opener is matched, and is on the stack only once
      have hnodup := h.nodup
      have hlt := h.lt_opened
      rw [hstack] at hnodup hlt
      simp only [Nesting.read, hstack]
      refine ⟨fun o' ho' => hlt o' (List.mem_cons_of_mem _ ho'), (List.nodup_cons.mp hnodup).2, ?_⟩
      intro o' line' hmem
      rcases List.mem_cons.mp hmem with heq | hmem
      · obtain ⟨rfl, rfl⟩ := Prod.mk.inj heq
        exact ⟨hlt o' List.mem_cons_self, (List.nodup_cons.mp hnodup).1⟩
      · obtain ⟨hlt', hnot⟩ := h.of_matched o' line' hmem
        rw [hstack] at hnot
        exact ⟨hlt', fun ho' => hnot (List.mem_cons_of_mem _ ho')⟩

/-- An opener that is unmatched has no closer, so that a symbol in its frame has no end. -/
theorem Sound.closeLine?_of_mem {m : Nesting} (h : m.Sound) {o : Nat} (ho : o ∈ m.unmatched) :
    m.closeLine? o = none := by
  rw [closeLine?, List.lookup_eq_none_iff]
  rintro ⟨o', line⟩ hmem
  obtain ⟨-, hnot⟩ := h.of_matched o' line hmem
  rw [bne_iff_ne]
  rintro rfl
  exact hnot ho

/-- **What is matched stays so**: the closer of an opener is not changed by what follows, since the
next closer is matched with another opener. -/
theorem Sound.closeLine?_read {m : Nesting} (h : m.Sound) (e : ScopeEdge) {o line : Nat}
    (ho : m.closeLine? o = some line) : (m.read e).closeLine? o = some line := by
  cases e with
  | opener => exact ho
  | closer line' =>
    cases hstack : m.unmatched with
    | nil => simpa [Nesting.read, hstack] using ho
    | cons top os =>
      have hne : (o == top) = false := by
        rw [beq_eq_false_iff_ne]
        rintro rfl
        rw [h.closeLine?_of_mem (by rw [hstack]; exact List.mem_cons_self)] at ho
        contradiction
      simp only [Nesting.read, hstack, closeLine?, List.lookup_cons, hne]
      exact ho

end Nesting

/-! ## 2. Frames are openers -/

namespace Collector

/-- The opener or closer that an action is, if it is one. Taking a brace is neither: the frame of
the header was opened before. -/
def Action.edge? : Action → Option ScopeEdge
  | .openFrame .. => some .opener
  | .closeFrame line => some (.closer line)
  | _ => none

/-- An action opens, closes, or does neither. Proofs about the frames take their cases from this. -/
theorem Action.edge?_cases (a : Action) :
    a.edge? = none ∨ (∃ kind line awaits, a = .openFrame kind line awaits) ∨
      ∃ line, a = .closeFrame line := by
  cases a with
  | openFrame kind line awaits => exact .inr (.inl ⟨kind, line, awaits, rfl⟩)
  | closeFrame line => exact .inr (.inr ⟨line, rfl⟩)
  | _ => exact .inl rfl

/-- The openers and closers among actions. -/
def edges (as : List Action) : List ScopeEdge :=
  as.filterMap Action.edge?

@[simp] theorem edges_append (as bs : List Action) : edges (as ++ bs) = edges as ++ edges bs :=
  List.filterMap_append

/-- The nesting that actions come to. -/
def nesting (as : List Action) : Nesting :=
  Nesting.ofEdges (edges as)

/-- The nesting after one more action. -/
def nestingStep (m : Nesting) (a : Action) : Nesting :=
  match a.edge? with
  | some e => m.read e
  | none => m

/-- The nesting can be told action by action, from where the earlier ones have led. -/
theorem nesting_append (as bs : List Action) :
    nesting (as ++ bs) = bs.foldl nestingStep (nesting as) := by
  rw [nesting, edges_append, Nesting.ofEdges_append]
  show (edges bs).foldl Nesting.read (nesting as) = bs.foldl nestingStep (nesting as)
  generalize nesting as = m
  induction bs generalizing m with
  | nil => rfl
  | cons b bs ih =>
    rw [List.foldl_cons, ← ih, edges, List.filterMap_cons, nestingStep]
    cases b.edge? <;> rfl

/-- An action that neither opens nor closes leaves the frames in their places, with all that they
hold. It may add to the innermost one. -/
theorem perform_frame {c : Collector} {a : Action} (hedge : a.edge? = none) {k : Nat} {f : Frame}
    (h : c.frames[k]? = some f) :
    ∃ f', (c.perform a).frames[k]? = some f' ∧ ∀ i ∈ f.pending, i ∈ f'.pending := by
  cases a with
  | openFrame | closeFrame => simp [Action.edge?] at hedge
  | takeBrace =>
    cases hframes : c.frames with
    | nil => simp [hframes] at h
    | cons frame frames =>
      rw [hframes] at h
      cases k with
      | zero =>
        obtain rfl : frame = f := by simpa using h
        refine ⟨{ frame with awaitsBrace := false }, ?_, fun _ hi => hi⟩
        simp [perform, hframes]
      | succ k => exact ⟨f, by simpa [perform, hframes] using h, fun _ hi => hi⟩
  | register kind name =>
    refine ⟨f, ?_, fun _ hi => hi⟩
    simp only [perform, registerHeader]
    split
    · exact h
    · split <;> exact h
  | insert name value tag origin line =>
    cases hframes : c.frames with
    | nil => simp [hframes] at h
    | cons frame frames =>
      rw [hframes] at h
      cases k with
      | zero =>
        obtain rfl : frame = f := by simpa using h
        -- the innermost frame gets the id of the new symbol, in addition to those it holds
        refine ⟨{ frame with pending := frame.pending ++ [c.table.symbols.length] }, ?_,
          fun _ hi => List.mem_append_left _ hi⟩
        simp [perform, insert, hframes]
      | succ k => exact ⟨f, by simpa [perform, insert, hframes] using h, fun _ hi => hi⟩
  | retag id tag line => exact ⟨f, h, fun _ hi => hi⟩
  | assign id entry => exact ⟨f, h, fun _ hi => hi⟩

/-- The number of frames goes with the openers and closers. A closer with no frame left changes
nothing, which is what the subtraction says at zero. -/
theorem length_frames_perform (c : Collector) (a : Action) :
    (c.perform a).frames.length =
      match a with
      | .openFrame .. => c.frames.length + 1
      | .closeFrame _ => c.frames.length - 1
      | _ => c.frames.length := by
  cases a with
  | openFrame kind line awaits => rfl
  | closeFrame line => cases hframes : c.frames <;> simp [perform, closeFrame, hframes]
  | takeBrace => cases hframes : c.frames <;> simp [perform, hframes]
  | register kind name =>
    simp only [perform, registerHeader]
    split
    · rfl
    · split <;> rfl
  | insert name value tag origin line =>
    cases hframes : c.frames <;> simp [perform, insert, hframes]
  | retag id tag line => rfl
  | assign id entry => rfl

/-- The frames of a collector are the unmatched openers of a nesting: there are as many, so that the
frame at each depth is the opener at that depth. -/
structure Nested (c : Collector) (m : Nesting) : Prop where
  wellFormed : c.WellFormed
  sound : m.Sound
  length_eq : c.frames.length = m.unmatched.length

theorem nested_empty : Nested {} {} :=
  ⟨wellFormed_empty, Nesting.sound_empty, rfl⟩

/-- One action changes frames and nesting alike. -/
theorem Nested.perform {c : Collector} {m : Nesting} (h : Nested c m) (a : Action) :
    Nested (c.perform a) (nestingStep m a) := by
  refine ⟨h.wellFormed.perform a, ?_, ?_⟩
  · unfold nestingStep
    cases a.edge? with
    | none => exact h.sound
    | some e => exact h.sound.read e
  · have hlength := h.length_eq
    rw [length_frames_perform]
    cases a with
    | openFrame kind line awaits => simp [nestingStep, Action.edge?, Nesting.read, hlength]
    | closeFrame line =>
      cases hstack : m.unmatched <;>
        simp [nestingStep, Action.edge?, Nesting.read, hstack, hlength]
    | _ => exact hlength

/-- At each point of a run the frames are the unmatched openers. -/
theorem nested_performAll (as : List Action) : Nested (performAll {} as) (nesting as) := by
  induction as using List.reverseRecOn with
  | nil => exact nested_empty
  | append_singleton as a ih =>
    rw [performAll_append, nesting_append]
    exact ih.perform a

/-! ## 3. A symbol and its opener -/

/-- The symbol at place `i` belongs to the opener `o`: as long as that is unmatched, the frame at
its place holds the symbol, and once it is matched the scope ends with it. -/
inductive Follows (i o start : Nat) (c : Collector) (m : Nesting) : Prop
  | pending (k : Nat) (f : Frame) (s : Symbol) (hframe : c.frames[k]? = some f)
      (hmem : i ∈ f.pending) (hopener : m.unmatched[k]? = some o)
      (hs : c.table.symbols[i]? = some s) (hscope : s.scope = .block start none)
  | closed (line : Nat) (s : Symbol) (hclosed : m.closeLine? o = some line)
      (hs : c.table.symbols[i]? = some s) (hscope : s.scope = .block start (some line))

/-- The scope of a symbol that belongs to an opener is read off the nesting, in both cases of
`Follows`. -/
theorem Follows.scope_eq {i o start : Nat} {c : Collector} {m : Nesting} (hm : m.Sound)
    (h : Follows i o start c m) :
    ∃ s, c.table.symbols[i]? = some s ∧ s.scope = .block start (m.closeLine? o) := by
  cases h with
  | pending k f s hframe hmem hopener hs hscope =>
    rw [hm.closeLine?_of_mem (List.mem_of_getElem? hopener)]
    exact ⟨s, hs, hscope⟩
  | closed line s hclosed hs hscope =>
    rw [hclosed]
    exact ⟨s, hs, hscope⟩

/-- If the innermost frame holds the symbol, the opener that it belongs to is innermost. A symbol is
held by one frame only, and by none once its scope has an end. -/
theorem Follows.innermost_eq {i o start : Nat} {c : Collector} {m : Nesting} (hn : Nested c m)
    (h : Follows i o start c m) {frame : Frame} {frames : List Frame}
    (hframes : c.frames = frame :: frames) (hi : i ∈ frame.pending) : m.innermost? = some o := by
  cases h with
  | pending k f s hframe hmem hopener hs hscope =>
    cases k with
    | zero => rw [Nesting.innermost?, List.head?_eq_getElem?]; exact hopener
    | succ k =>
      rw [hframes, List.getElem?_cons_succ] at hframe
      exact absurd hmem (hn.wellFormed.not_mem_below hframes hi f (List.mem_of_getElem? hframe))
  | closed line s hclosed hs hscope =>
    have hopen := hn.wellFormed.isPending_of_mem_innermost hframes hi hs
    rw [hscope] at hopen
    contradiction

/-- **A symbol stays with its opener**, whatever action comes next. The case with work in it is a
closer: it closes the symbol's own frame, or one further in that does not hold the symbol. -/
theorem Follows.perform {i o start : Nat} {c : Collector} {m : Nesting} (hn : Nested c m)
    (h : Follows i o start c m) (a : Action) :
    Follows i o start (c.perform a) (nestingStep m a) := by
  cases h with
  | closed line s hclosed hs hscope =>
    refine .closed line (a.change c.frames i s) ?_ (perform_symbol c a hs) ?_
    · unfold nestingStep
      cases a.edge? with
      | none => exact hclosed
      | some e => exact hn.sound.closeLine?_read e hclosed
    · rw [hn.wellFormed.scope_perform_of_settled a hs (by rw [hscope]; rfl), hscope]
  | pending k f s hframe hmem hopener hs hscope =>
    have hs' := perform_symbol c a hs
    rcases a.edge?_cases with hedge | ⟨kind, line, awaits, rfl⟩ | ⟨line, rfl⟩
    · obtain ⟨f', hframe', hkeep⟩ := perform_frame hedge hframe
      have hsame : (a.change c.frames i s).scope = s.scope := by
        rcases a.change_scope c.frames i s with heq | ⟨line, _, _, rfl, -⟩
        · exact heq
        · simp [Action.edge?] at hedge
      refine .pending k f' _ hframe' (hkeep i hmem) ?_ hs' (hsame.trans hscope)
      rw [nestingStep, hedge]
      exact hopener
    · exact .pending (k + 1) f _ hframe hmem hopener hs' hscope
    · cases hframes : c.frames with
      | nil => rw [hframes] at hframe; simp at hframe
      | cons frame frames =>
        cases hstack : m.unmatched with
        | nil => rw [hstack] at hopener; simp at hopener
        | cons top os =>
          rw [hframes] at hframe
          rw [hstack] at hopener
          cases k with
          | zero =>
            -- the symbol's own frame is closed, and so is its opener
            obtain rfl : frame = f := by simpa using hframe
            obtain rfl : top = o := by simpa using hopener
            refine .closed line _ ?_ hs' ?_
            · simp [nestingStep, Action.edge?, Nesting.read, hstack, Nesting.closeLine?]
            · simp [Action.change, hframes, hmem, hscope, Scope.closeAt]
          | succ k =>
            -- a frame further in is closed, which does not hold the symbol
            rw [List.getElem?_cons_succ] at hframe hopener
            have hnot : i ∉ frame.pending := fun hi =>
              hn.wellFormed.not_mem_below hframes hi f (List.mem_of_getElem? hframe) hmem
            refine .pending k f _ ?_ hmem ?_ hs' ?_
            · simpa [Collector.perform, closeFrame, hframes] using hframe
            · simpa [nestingStep, Action.edge?, Nesting.read, hstack] using hopener
            · simpa [Action.change, hframes, hnot] using hscope

/-- A symbol stays with its opener over any number of actions. -/
theorem Follows.performAll {i o start : Nat} {c : Collector} {m : Nesting} (hn : Nested c m)
    (h : Follows i o start c m) (as : List Action) :
    Follows i o start (c.performAll as) (as.foldl nestingStep m) := by
  induction as generalizing c m with
  | nil => exact h
  | cons a as ih => exact ih (hn.perform a) (h.perform hn a)

/-- A symbol belongs to the opener that is innermost when it is put in, since it goes into the
innermost frame. -/
theorem follows_insert {c : Collector} {m : Nesting} (hn : Nested c m) {o : Nat}
    (ho : m.innermost? = some o) (name value : Text) (tag : Tag) (origin : Origin) (line : Nat) :
    Follows c.table.symbols.length o line (c.perform (.insert name value tag origin line)) m := by
  have hlength := hn.length_eq
  cases hframes : c.frames with
  | nil =>
    rw [hframes, List.length_nil] at hlength
    rw [Nesting.innermost?, List.eq_nil_of_length_eq_zero hlength.symm] at ho
    contradiction
  | cons frame frames =>
    refine .pending 0 { frame with pending := frame.pending ++ [c.table.symbols.length] }
      (c.newSymbol name value tag origin line) ?_ (by simp) ?_ ?_ ?_
    · simp [Collector.perform, insert, hframes]
    · rw [← List.head?_eq_getElem?]
      exact ho
    · rw [Collector.perform, insert_table, List.getElem?_concat_length]
    · simp [newSymbol, hframes]

/-- **The scope of a symbol is read off the nesting**: it has none as long as the opener that was
innermost when it was put in is unmatched, and ends on the line of that opener's closer. The nesting
is that of all actions, the one at the insertion gives the opener. -/
theorem scope_of_inserted (as bs : List Action) (name value : Text) (tag : Tag) (origin : Origin)
    (line : Nat) :
    ∃ s, (performAll {} (as ++ .insert name value tag origin line :: bs)).table.symbols[
        (performAll {} as).table.symbols.length]? = some s ∧
      s.scope = (nesting (as ++ .insert name value tag origin line :: bs)).scopeOf
        (nesting as).innermost? line := by
  have hn := nested_performAll as
  have hn' := hn.perform (.insert name value tag origin line)
  rw [performAll_append, performAll_cons, nesting_append]
  cases hhome : (nesting as).innermost? with
  | none =>
    -- outside all frames the scope is global, and settled from the start
    have hframes : (performAll {} as).frames = [] := by
      rw [Nesting.innermost?, List.head?_eq_none_iff] at hhome
      have hlength := hn.length_eq
      rw [hhome] at hlength
      exact List.eq_nil_of_length_eq_zero hlength
    have hnew : (newSymbol (performAll {} as) name value tag origin line).scope = .global := by
      simp [newSymbol, hframes]
    have hput : (Collector.perform (performAll {} as)
        (.insert name value tag origin line)).table.symbols[
          (performAll {} as).table.symbols.length]? =
        some (newSymbol (performAll {} as) name value tag origin line) := by
      rw [Collector.perform, insert_table, List.getElem?_concat_length]
    obtain ⟨s, hs, hscope⟩ :=
      hn'.wellFormed.scope_performAll_of_settled bs hput (by rw [hnew]; rfl)
    exact ⟨s, hs, hscope.trans hnew⟩
  | some o =>
    have hfollows := (follows_insert hn hhome name value tag origin line).performAll hn' bs
    have hsound : ((Action.insert name value tag origin line :: bs).foldl nestingStep
        (nesting as)).Sound := by
      rw [← nesting_append]
      exact (nested_performAll _).sound
    exact hfollows.scope_eq hsound

/-! ## 4. Every moment of a reading -/

/-- The state after the first `n` actions of a list of lines. There are as many moments as actions,
so that between two of them there is nothing that a statement could miss. -/
def moment (lines : List Line) (n : Nat) : Collector :=
  performAll {} ((actions lines).take n)

/-- The nesting of the frames at that moment. -/
def momentNesting (lines : List Line) (n : Nat) : Nesting :=
  nesting ((actions lines).take n)

theorem nested_moment (lines : List Line) (n : Nat) :
    Nested (moment lines n) (momentNesting lines n) :=
  nested_performAll _

/-- What was done by a moment was also done by any later one. -/
theorem exists_take_eq (lines : List Line) {m n : Nat} (h : m ≤ n) :
    ∃ as, (actions lines).take n = (actions lines).take m ++ as := by
  obtain ⟨as, has⟩ := List.take_prefix_take_left h (l := actions lines)
  exact ⟨as, has.symm⟩

/-- From one moment to the next either nothing is done or one action. -/
theorem moment_succ (lines : List Line) (n : Nat) :
    moment lines (n + 1) = moment lines n ∨
      ∃ a, (actions lines)[n]? = some a ∧ moment lines (n + 1) = (moment lines n).perform a := by
  unfold moment
  rw [List.take_add_one]
  cases ha : (actions lines)[n]? with
  | none => exact .inl (by rw [Option.toList_none, List.append_nil])
  | some a => exact .inr ⟨a, rfl, by rw [Option.toList_some, performAll_append]; rfl⟩

/-- The end of each line is a moment. -/
theorem exists_moment_eq_readLines {front lines : List Line} (h : front <+: lines) :
    ∃ n, moment lines n = readLines front := by
  obtain ⟨more, rfl⟩ := h
  refine ⟨(actions front).length, ?_⟩
  rw [moment, actions_append, List.take_left, performAll_actions]

/-- A settled scope is the same at every later moment: only a frame that holds the symbol can change
it, and none does any more. -/
theorem moment_scope_of_settled {lines : List Line} {m n i : Nat} {s s' : Symbol} (h : m ≤ n)
    (hs : (moment lines m).table.symbols[i]? = some s)
    (hs' : (moment lines n).table.symbols[i]? = some s') (hsettled : s.scope.isPending = false) :
    s'.scope = s.scope := by
  obtain ⟨as, has⟩ := exists_take_eq lines h
  obtain ⟨t, ht, hscope⟩ :=
    (nested_moment lines m).wellFormed.scope_performAll_of_settled as hs hsettled
  rw [moment, has, performAll_append] at hs'
  rw [moment, hs', Option.some.injEq] at ht
  rw [ht, hscope]

/-- A symbol that comes in between two moments is put in by the action between them. -/
theorem exists_insert_of_moment {lines : List Line} {k n i : Nat} (hkn : k < n)
    (hfree : (moment lines k).table.symbols.length ≤ i)
    (hput : i < (moment lines (k + 1)).table.symbols.length) :
    ∃ name value tag origin line as, i = (moment lines k).table.symbols.length ∧
      (actions lines).take n =
        (actions lines).take k ++ .insert name value tag origin line :: as := by
  rcases moment_succ lines k with hsame | ⟨a, ha, hstep⟩
  · rw [hsame] at hput
    omega
  · obtain ⟨s, hs⟩ : ∃ s, (moment lines (k + 1)).table.symbols[i]? = some s :=
      ⟨_, List.getElem?_eq_getElem hput⟩
    rw [hstep] at hs
    obtain ⟨name, value, tag, origin, line, rfl, hi, -⟩ := perform_newSymbol hfree hs
    obtain ⟨as, has⟩ := exists_take_eq lines (Nat.succ_le_of_lt hkn)
    rw [List.take_add_one, ha, Option.toList_some, List.append_assoc] at has
    exact ⟨name, value, tag, origin, line, as, hi, has⟩

/-- If the innermost frame holds a symbol at a moment, its opener was innermost when the symbol was
put in. -/
theorem innermost_of_mem_pending {lines : List Line} {k n i : Nat} (hkn : k < n)
    (hfree : (moment lines k).table.symbols.length ≤ i)
    (hput : i < (moment lines (k + 1)).table.symbols.length) {frame : Frame} {frames : List Frame}
    (hframes : (moment lines n).frames = frame :: frames) (hmem : i ∈ frame.pending) :
    ∃ o, (momentNesting lines k).innermost? = some o ∧
      (momentNesting lines n).innermost? = some o := by
  obtain ⟨name, value, tag, origin, line, as, rfl, has⟩ := exists_insert_of_moment hkn hfree hput
  have hnested := nested_moment lines n
  cases ho : (momentNesting lines k).innermost? with
  | none =>
    -- with no frame open the symbol comes in as a global one, and no frame holds it
    obtain ⟨s, hs, hscope⟩ :=
      scope_of_inserted ((actions lines).take k) as name value tag origin line
    rw [momentNesting] at ho
    rw [← has] at hs
    rw [ho, Nesting.scopeOf] at hscope
    have hopen := hnested.wellFormed.isPending_of_mem_innermost hframes hmem hs
    rw [hscope] at hopen
    contradiction
  | some o =>
    have hbefore := nested_moment lines k
    have hfollows := (follows_insert hbefore ho name value tag origin line).performAll
      (hbefore.perform (.insert name value tag origin line)) as
    have hrun : Follows (moment lines k).table.symbols.length o line (moment lines n)
        (momentNesting lines n) := by
      have hstate : moment lines n = (moment lines k).performAll
          (.insert name value tag origin line :: as) := by
        rw [moment, has, performAll_append]
        rfl
      rw [hstate, momentNesting, has, nesting_append]
      exact hfollows
    exact ⟨o, rfl, hrun.innermost_eq hnested hframes hmem⟩

/-- **The frames hold exactly the symbols whose scope has no end, at every moment of every
reading.** The end of each line is a moment. At each moment every id is a place, and the ids that
the frames hold, from the outermost frame to the innermost, are those of the symbols whose scope has
no end, in their order and each once. So a settled scope, global or with an end, never changes
again, and a scope changes only by the closing of the frame that was innermost when its symbol was
put in, on the line of that closing. -/
theorem pending_ids_at_every_moment (lines : List Line) :
    (∀ front, front <+: lines → ∃ n, moment lines n = readLines front) ∧
    (∀ n, (moment lines n).WellFormed ∧ (moment lines n).pendingIds.Pairwise (· < ·)) ∧
    (∀ (m n i : Nat) (s s' : Symbol), m ≤ n → (moment lines m).table.symbols[i]? = some s →
      (moment lines n).table.symbols[i]? = some s' → s.scope.isPending = false →
      s'.scope = s.scope) ∧
    ∀ (k n i : Nat) (s s' : Symbol), k < n → (moment lines k).table.symbols.length ≤ i →
      i < (moment lines (k + 1)).table.symbols.length →
      (moment lines n).table.symbols[i]? = some s →
      (moment lines (n + 1)).table.symbols[i]? = some s' → s'.scope ≠ s.scope →
      ∃ start line o, (actions lines)[n]? = some (.closeFrame line) ∧
        s.scope = .block start none ∧ s'.scope = .block start (some line) ∧
        (momentNesting lines k).innermost? = some o ∧
        (momentNesting lines n).innermost? = some o := by
  refine ⟨fun front h => exists_moment_eq_readLines h, fun n => ?_, ?_, ?_⟩
  · have h := (nested_moment lines n).wellFormed
    exact ⟨h, h.pairwise_pendingIds⟩
  · intro m n i s s' hmn hs hs' hsettled
    exact moment_scope_of_settled hmn hs hs' hsettled
  · intro k n i s s' hkn hfree hput hs hs' hchanged
    have hnested := nested_moment lines n
    rcases moment_succ lines n with hsame | ⟨a, ha, hstep⟩
    · rw [hsame, hs, Option.some.injEq] at hs'
      exact absurd (congrArg Symbol.scope hs'.symm) hchanged
    · rw [hstep, perform_symbol _ a hs, Option.some.injEq] at hs'
      subst hs'
      rcases a.change_scope (moment lines n).frames i s with
        heq | ⟨line, frame, frames, rfl, hframes, hmem, hclose⟩
      · exact absurd heq hchanged
      -- the innermost frame holds the symbol, so its scope has no end yet
      have hopen := hnested.wellFormed.isPending_of_mem_innermost hframes hmem hs
      obtain ⟨start, hscope⟩ := Scope.isPending_iff.mp hopen
      rw [hscope] at hclose
      obtain ⟨o, hthen, hnow⟩ := innermost_of_mem_pending hkn hfree hput hframes hmem
      exact ⟨start, line, o, ha, hscope, hclose, hthen, hnow⟩

end Collector

end MacroScript
