import MacroScript.Proofs.Symbol.BraceScope
import MacroScript.Proofs.Symbol.Clear

/-!
# Scopes follow the braces alone

With clear headers a header matters to the nesting only by its brace: one that gets no brace opens
nothing that a closing brace could close. So the frames that have their brace are **the unmatched
braces of the document, in their order** (`Aligned`), and what is put in while such a frame is
innermost has a scope that ends with the closing brace that is matched with it
(`scope_of_braced`).
-/
namespace MacroScript

/-- The braces of the code lines, matched without regard to headers: a header is not an opener here,
and its brace is one like any other. -/
def bareNesting (lines : List Line) : Nesting :=
  Nesting.ofEdges (((lines.filter Line.isCode).flatMap lineMarks).filterMap BraceMark.braceEdge?)

namespace Collector

/-! ## 1. Frames that have a brace -/

/-- The frames that do not wait for a brace, the innermost first. -/
def braced (c : Collector) : List Frame :=
  c.frames.filter (!·.awaitsBrace)

/-- The innermost frame counts if it has its brace. -/
theorem braced_cons {c : Collector} {frame : Frame} {frames : List Frame}
    (h : c.frames = frame :: frames) :
    c.braced = if frame.awaitsBrace then frames.filter (!·.awaitsBrace)
      else frame :: frames.filter (!·.awaitsBrace) := by
  rw [braced, h, List.filter_cons]
  cases frame.awaitsBrace <;> rfl

/-- Where nothing waits, all frames have their brace. -/
theorem braced_of_idle {c : Collector} (h : c.Idle) : c.braced = c.frames := by
  rw [braced, List.filter_eq_self]
  intro f hf
  simp [h f hf]

/-- What is quiet leaves the braced frames in their places, with all that they hold. -/
theorem braced_of_isQuiet (c : Collector) {a : Action} (h : a.isQuiet) :
    (c.perform a).braced.length = c.braced.length ∧
      ∀ (k : Nat) (f : Frame), c.braced[k]? = some f →
        ∃ f', (c.perform a).braced[k]? = some f' ∧ ∀ i ∈ f.pending, i ∈ f'.pending := by
  have hsame (heq : (c.perform a).frames = c.frames) :
      (c.perform a).braced.length = c.braced.length ∧
        ∀ (k : Nat) (f : Frame), c.braced[k]? = some f →
          ∃ f', (c.perform a).braced[k]? = some f' ∧ ∀ i ∈ f.pending, i ∈ f'.pending := by
    have hbraced : (c.perform a).braced = c.braced := by rw [braced, heq, braced]
    rw [hbraced]
    exact ⟨rfl, fun k f hf => ⟨f, hf, fun _ hi => hi⟩⟩
  cases a with
  | openFrame | closeFrame | takeBrace => simp [Action.isQuiet] at h
  | register kind name =>
    refine hsame ?_
    simp only [perform, registerHeader]
    split
    · rfl
    · split <;> rfl
  | retag id tag line => exact hsame rfl
  | assign id entry => exact hsame rfl
  | insert name value tag origin line =>
    cases hframes : c.frames with
    | nil => exact hsame (by simp [perform, insert, hframes])
    | cons frame frames =>
      -- the id goes to the innermost frame, which is among the braced ones if it does not wait
      have hnext : (c.perform (.insert name value tag origin line)).frames =
          { frame with pending := frame.pending ++ [c.table.symbols.length] } :: frames := by
        simp [perform, insert, hframes]
      rw [braced_cons hnext, braced_cons hframes]
      cases hwaits : frame.awaitsBrace with
      | true =>
        simp only [if_true]
        exact ⟨trivial, fun k f hf => ⟨f, hf, fun _ hi => hi⟩⟩
      | false =>
        simp only [Bool.false_eq_true, if_false]
        refine ⟨rfl, fun k f hf => ?_⟩
        cases k with
        | zero =>
          obtain rfl : frame = f := by simpa using hf
          exact ⟨_, rfl, fun i hi => List.mem_append_left _ hi⟩
        | succ k => exact ⟨f, hf, fun _ hi => hi⟩

/-! ## 2. They are the unmatched braces -/

/-- The frames that have a brace are the unmatched openers of a nesting. The reader may have one
frame more than that: a header that waits. -/
structure Aligned (c : Collector) (m : Nesting) : Prop where
  wellFormed : c.WellFormed
  sound : m.Sound
  length_eq : c.braced.length = m.unmatched.length

/-- The nesting after one more action, if headers do not count. -/
def braceStep (c : Collector) (m : Nesting) (a : Action) : Nesting :=
  match c.braceEdge? a with
  | some e => m.read e
  | none => m

/-- The edges of a run, read one after the other, are the nesting step by step. -/
theorem foldl_braceEdges_cons (c : Collector) (m : Nesting) (a : Action) (as : List Action) :
    (c.braceEdges (a :: as)).foldl Nesting.read m =
      ((c.perform a).braceEdges as).foldl Nesting.read (c.braceStep m a) := by
  rw [braceEdges, braceStep]
  cases c.braceEdge? a <;> rfl

/-- **What a step with clear headers does to the braced frames.** It leaves them in their places and
reads nothing, puts one on top and reads an opener, or closes the topmost one, which is the
innermost of all frames, and reads a closer. -/
theorem braced_clearStep {c : Collector} {line : Nat} {a : Action} (h : ClearStep line c a) :
    c.braceEdge? a = none ∧ (c.perform a).braced.length = c.braced.length ∧
        (∀ (k : Nat) (f : Frame), c.braced[k]? = some f →
          ∃ f', (c.perform a).braced[k]? = some f' ∧ ∀ i ∈ f.pending, i ∈ f'.pending) ∧
        (∀ n, a = .closeFrame n → ∃ frame frames, c.frames = frame :: frames ∧
          c.braced = frames) ∨
      c.braceEdge? a = some .opener ∧ (∀ n, a ≠ .closeFrame n) ∧
        (∃ f, (c.perform a).braced = f :: c.braced) ∨
      ∃ n, a = .closeFrame n ∧ c.braceEdge? a = some (.closer n) ∧ c.braced = c.frames ∧
        (c.perform a).braced = c.braced.tail := by
  cases h with
  | header kind hidle =>
    -- the frame of a header waits, and so is none of the braced ones
    refine .inl ⟨rfl, ?_, ?_, by simp⟩
    · simp [braced, perform, openFrame]
    · intro k f hf
      exact ⟨f, by simpa [braced, perform, openFrame] using hf, fun _ hi => hi⟩
  | block hidle =>
    refine .inr (.inl ⟨rfl, by simp, ?_⟩)
    exact ⟨⟨.block, line, [], false⟩, by simp [braced, perform, openFrame]⟩
  | brace frame frames hframes hwaits hidle =>
    refine .inr (.inl ⟨rfl, by simp, { frame with awaitsBrace := false }, ?_⟩)
    simp [braced, perform, hframes, hwaits]
  | close hidle =>
    -- no frame waits before or after it, so that all frames are braced
    have hnext : (c.perform (.closeFrame line)).Idle :=
      ReadyFor.idle_closeFrame (fun f hf => hidle f (List.mem_of_mem_tail hf)) line
    refine .inr (.inr ⟨line, rfl, ?_, braced_of_idle hidle, ?_⟩)
    · cases hframes : c.frames with
      | nil => simp [braceEdge?, hframes]
      | cons frame frames => simp [braceEdge?, hframes, hidle frame (by simp [hframes])]
    · rw [braced_of_idle hnext, braced_of_idle hidle]
      cases hframes : c.frames <;> simp [perform, closeFrame, hframes]
  | expire frame frames hframes hwaits hidle hlate =>
    -- only the innermost frame waits, and it goes; the frames below it are the braced ones
    have hbelow : frames.filter (!·.awaitsBrace) = frames := by
      rw [List.filter_eq_self]
      intro f hf
      simp [hidle f hf]
    have hbraced : c.braced = frames := by rw [braced_cons hframes, if_pos hwaits, hbelow]
    have hnext : (c.perform (.closeFrame frame.openedAt)).braced = frames := by
      rw [← hbelow]
      simp [braced, perform, closeFrame, hframes]
    refine .inl ⟨by simp [braceEdge?, hframes, hwaits], ?_, ?_, ?_⟩
    · rw [hnext, hbraced]
    · rw [hnext, hbraced]
      exact fun k f hf => ⟨f, hf, fun _ hi => hi⟩
    · exact fun n _ => ⟨frame, frames, hframes, hbraced⟩
  | quiet a hquiet =>
    obtain ⟨hlength, hplaces⟩ := braced_of_isQuiet c hquiet
    refine .inl ⟨?_, hlength, hplaces, ?_⟩
    · cases a <;> simp_all [Action.isQuiet, braceEdge?]
    · rintro n rfl
      simp [Action.isQuiet] at hquiet

/-- **A step with clear headers keeps the braced frames and the unmatched braces together**, in each
of the three cases of `braced_clearStep`. -/
theorem Aligned.clearStep {c : Collector} {m : Nesting} (h : Aligned c m) {line : Nat} {a : Action}
    (hstep : ClearStep line c a) : Aligned (c.perform a) (c.braceStep m a) := by
  have hlength := h.length_eq
  unfold braceStep
  rcases braced_clearStep hstep with
    ⟨hedge, hsame, -⟩ | ⟨hedge, -, f, hopen⟩ | ⟨n, rfl, hedge, -, hclosed⟩
  · rw [hedge]
    exact ⟨h.wellFormed.perform a, h.sound, hsame.trans hlength⟩
  · rw [hedge]
    refine ⟨h.wellFormed.perform a, h.sound.read _, ?_⟩
    rw [hopen, List.length_cons, hlength]
    rfl
  · rw [hedge]
    refine ⟨h.wellFormed.perform _, h.sound.read _, ?_⟩
    rw [hclosed, List.length_tail, hlength]
    cases hstack : m.unmatched <;> simp [Nesting.read, hstack]

/-! ## 3. A symbol and its brace -/

/-- The symbol at place `i` belongs to the brace `o`: as long as that is unmatched, the frame at its
place holds the symbol, and once it is matched the scope ends with it. This is `Follows` with the
braced frames in the place of all frames. -/
inductive Lives (i o start : Nat) (c : Collector) (m : Nesting) : Prop
  | pending (k : Nat) (f : Frame) (s : Symbol) (hframe : c.braced[k]? = some f)
      (hmem : i ∈ f.pending) (hopener : m.unmatched[k]? = some o)
      (hs : c.table.symbols[i]? = some s) (hscope : s.scope = .block start none)
  | closed (line : Nat) (s : Symbol) (hclosed : m.closeLine? o = some line)
      (hs : c.table.symbols[i]? = some s) (hscope : s.scope = .block start (some line))

/-- The scope of a symbol that belongs to a brace is read off the nesting. -/
theorem Lives.scope_eq {i o start : Nat} {c : Collector} {m : Nesting} (hm : m.Sound)
    (h : Lives i o start c m) :
    ∃ s, c.table.symbols[i]? = some s ∧ s.scope = .block start (m.closeLine? o) := by
  cases h with
  | pending k f s hframe hmem hopener hs hscope =>
    rw [hm.closeLine?_of_mem (List.mem_of_getElem? hopener)]
    exact ⟨s, hs, hscope⟩
  | closed line s hclosed hs hscope =>
    rw [hclosed]
    exact ⟨s, hs, hscope⟩

/-- **A symbol stays with its brace**, whatever step comes next. Only a closing of the symbol's own
frame could change its scope, and with clear headers that is the closing brace that is matched with
its opener. -/
theorem Lives.clearStep {i o start : Nat} {c : Collector} {m : Nesting} (hc : Aligned c m)
    (h : Lives i o start c m) {line : Nat} {a : Action} (hstep : ClearStep line c a) :
    Lives i o start (c.perform a) (c.braceStep m a) := by
  cases h with
  | closed line s hclosed hs hscope =>
    refine .closed line (a.change c.frames i s) ?_ (perform_symbol c a hs) ?_
    · unfold braceStep
      cases c.braceEdge? a with
      | none => exact hclosed
      | some e => exact hc.sound.closeLine?_read e hclosed
    · rw [hc.wellFormed.scope_perform_of_settled a hs (by rw [hscope]; rfl), hscope]
  | pending k f s hframe hmem hopener hs hscope =>
    have hs' := perform_symbol c a hs
    -- only closing the frame that holds it changes the scope of the symbol
    have hkeep (hnot : ∀ n frame frames, a = .closeFrame n → c.frames = frame :: frames →
        i ∉ frame.pending) : (a.change c.frames i s).scope = .block start none := by
      rcases a.change_scope c.frames i s with heq | ⟨n, frame, frames, rfl, hframes, hi, -⟩
      · exact heq.trans hscope
      · exact absurd hi (hnot n frame frames rfl hframes)
    unfold braceStep
    rcases braced_clearStep hstep with
      ⟨hedge, -, hplaces, hbelow⟩ | ⟨hedge, hnot, g, hopen⟩ | ⟨n, rfl, hedge, hbraced, hclosed⟩
    · obtain ⟨f', hframe', hpending⟩ := hplaces k f hframe
      rw [hedge]
      refine .pending k f' _ hframe' (hpending i hmem) hopener hs' (hkeep ?_)
      -- an expired header is innermost, and the symbol is in a frame below it
      rintro n frame frames rfl hframes hi
      obtain ⟨frame', frames', hframes', hbraced⟩ := hbelow n rfl
      obtain ⟨rfl, rfl⟩ := List.cons.inj (hframes.symm.trans hframes')
      rw [hbraced] at hframe
      exact hc.wellFormed.not_mem_below hframes hi f (List.mem_of_getElem? hframe) hmem
    · rw [hedge]
      refine .pending (k + 1) f _ ?_ hmem ?_ hs' (hkeep fun n _ _ ha => absurd ha (hnot n))
      · rw [hopen]
        exact hframe
      · exact hopener
    · rw [hedge]
      rw [hbraced] at hframe hclosed
      cases hframes : c.frames with
      | nil => simp [hframes] at hframe
      | cons frame frames =>
        cases hstack : m.unmatched with
        | nil => simp [hstack] at hopener
        | cons top os =>
          rw [hframes] at hframe hclosed
          rw [hstack] at hopener
          cases k with
          | zero =>
            -- the symbol's own frame is closed, and so is its brace
            obtain rfl : frame = f := by simpa using hframe
            obtain rfl : top = o := by simpa using hopener
            refine .closed n _ ?_ hs' ?_
            · simp [Nesting.read, hstack, Nesting.closeLine?]
            · simp [Action.change, hframes, hmem, hscope, Scope.closeAt]
          | succ k =>
            -- a frame further in is closed, which does not hold the symbol
            rw [List.getElem?_cons_succ] at hframe hopener
            refine .pending k f _ (hclosed ▸ hframe) hmem ?_ hs' (hkeep ?_)
            · simpa [Nesting.read, hstack] using hopener
            · rintro n' frame' frames' - hframes' hi
              obtain ⟨rfl, rfl⟩ := List.cons.inj (hframes.symm.trans hframes')
              exact hc.wellFormed.not_mem_below hframes hi f (List.mem_of_getElem? hframe) hmem

/-- A step with clear headers on some line. -/
def SomeClearStep (c : Collector) (a : Action) : Prop :=
  ∃ line, ClearStep line c a

/-- Any run with clear headers keeps the braced frames and the unmatched braces together. -/
theorem Aligned.steps {c : Collector} {m : Nesting} (h : Aligned c m) {as : List Action}
    (hsteps : Steps SomeClearStep c as) :
    Aligned (c.performAll as) ((c.braceEdges as).foldl Nesting.read m) := by
  induction hsteps generalizing m with
  | nil => exact h
  | cons hstep _ ih =>
    obtain ⟨line, hstep⟩ := hstep
    rw [foldl_braceEdges_cons]
    exact ih (h.clearStep hstep)

/-- Over any run with clear headers a symbol stays with its brace. -/
theorem Lives.steps {i o start : Nat} {c : Collector} {m : Nesting} (hc : Aligned c m)
    (h : Lives i o start c m) {as : List Action} (hsteps : Steps SomeClearStep c as) :
    Lives i o start (c.performAll as) ((c.braceEdges as).foldl Nesting.read m) := by
  induction hsteps generalizing m with
  | nil => exact h
  | cons hstep _ ih =>
    obtain ⟨line, hstep⟩ := hstep
    rw [foldl_braceEdges_cons]
    exact ih (hc.clearStep hstep) (h.clearStep hc hstep)

/-- **The scope of a symbol is read off the braces**, if no header was waiting when it was put in:
it is global with no brace open, and otherwise ends with the innermost one. (With a header waiting
it would go into the header's frame, which may still expire.) -/
theorem scope_of_braced {c : Collector} {m : Nesting} (hc : Aligned c m)
    (hidle : c.Idle) (name value : Text) (tag : Tag) (origin : Origin) (line : Nat)
    {as : List Action}
    (hsteps : Steps SomeClearStep (c.perform (.insert name value tag origin line)) as) :
    ∃ s, ((c.perform (.insert name value tag origin line)).performAll as).table.symbols[
        c.table.symbols.length]? = some s ∧
      s.scope = (((c.perform (.insert name value tag origin line)).braceEdges as).foldl
        Nesting.read m).scopeOf m.innermost? line := by
  have hput : (c.perform (.insert name value tag origin line)).table.symbols[
      c.table.symbols.length]? = some (c.newSymbol name value tag origin line) := by
    rw [perform, insert_table, List.getElem?_concat_length]
  have hstep : ClearStep line c (.insert name value tag origin line) := .quiet _ rfl
  have hc' : Aligned (c.perform (.insert name value tag origin line)) m := hc.clearStep hstep
  have hlength := hc.length_eq
  rw [braced_of_idle hidle] at hlength
  cases hframes : c.frames with
  | nil =>
    -- outside all frames the scope is global, and settled from the start
    rw [hframes, List.length_nil] at hlength
    have hnone : m.innermost? = none := by
      rw [Nesting.innermost?, List.eq_nil_of_length_eq_zero hlength.symm, List.head?_nil]
    have hnew : (c.newSymbol name value tag origin line).scope = .global := by
      simp [newSymbol, hframes]
    obtain ⟨s, hs, hscope⟩ :=
      hc'.wellFormed.scope_performAll_of_settled as hput (by rw [hnew]; rfl)
    rw [hnone]
    exact ⟨s, hs, hscope.trans hnew⟩
  | cons frame frames =>
    cases hstack : m.unmatched with
    | nil => simp [hframes, hstack] at hlength
    | cons o os =>
      have hlives : Lives c.table.symbols.length o line
          (c.perform (.insert name value tag origin line)) m := by
        refine .pending 0 { frame with pending := frame.pending ++ [c.table.symbols.length] }
          (c.newSymbol name value tag origin line) ?_ (by simp) (by rw [hstack]; rfl) hput
          (by simp [newSymbol, hframes])
        have hwaits := hidle frame (by simp [hframes])
        simp [braced, perform, insert, hframes, hwaits]
      rw [Nesting.innermost?, hstack]
      exact (hlives.steps hc' hsteps).scope_eq (hc'.steps hsteps).sound

/-! ## 4. Documents -/

/-- **The lines after some others are read with clear headers**, and the braces on them are what is
opened and closed. The lines before them are there for the state in which the reading goes on. -/
theorem steps_actionsFrom {before mid after : List Line}
    (hclear : headersClear (before ++ (mid ++ after)))
    (hlines : (before ++ mid).Pairwise fun k l => k.index < l.index)
    (hcode : ∀ l ∈ before ++ mid, l.isCode) :
    Steps SomeClearStep (before.foldl readLine {}) ((before.foldl readLine {}).actionsFrom mid) ∧
      (before.foldl readLine {}).braceEdges ((before.foldl readLine {}).actionsFrom mid) =
        (mid.flatMap lineMarks).filterMap BraceMark.braceEdge? := by
  induction mid generalizing before with
  | nil => exact ⟨.nil _, rfl⟩
  | cons l mid ih =>
    rw [List.append_cons] at hlines hcode
    obtain ⟨hbefore, hlt⟩ := Line.index_lt_of_concat (List.pairwise_append.mp hlines).1
    -- the lines before leave the reader ready for this one, and this one for those after it
    have hready := readyFor_lines hclear hbefore (fun k hk => hcode k (by simp [hk])) hlt
      (nextMarks (mid ++ after))
    have hread := hready.reads_lineActions (hcode l (by simp)) (clearOnLine_of_headersClear hclear)
    rw [List.cons_append, List.append_cons] at hclear
    obtain ⟨hsteps, hedges⟩ := ih hclear hlines hcode
    rw [List.foldl_append, List.foldl_cons, List.foldl_nil] at hsteps hedges
    rw [actionsFrom]
    constructor
    · refine (hread.steps.imp fun _ _ hstep => ⟨_, hstep⟩).append ?_
      rw [performAll_lineActions]
      exact hsteps
    · rw [braceEdges_append, hread.edges_eq, performAll_lineActions, hedges, List.flatMap_cons,
        List.filterMap_append]

/-- **With clear headers the braced frames are the unmatched braces**, line after line. -/
theorem aligned_lines {before after : List Line} (hclear : headersClear (before ++ after))
    (hlines : before.Pairwise fun k l => k.index < l.index) (hcode : ∀ l ∈ before, l.isCode) :
    Aligned (before.foldl readLine {})
      (Nesting.ofEdges ((before.flatMap lineMarks).filterMap BraceMark.braceEdge?)) := by
  have hstart : Aligned {} {} := ⟨wellFormed_empty, Nesting.sound_empty, rfl⟩
  obtain ⟨hsteps, hedges⟩ := @steps_actionsFrom [] before after hclear hlines hcode
  rw [List.foldl_nil] at hsteps hedges
  have h := hstart.steps hsteps
  rw [hedges] at h
  rwa [← performAll_actionsFrom]

end Collector

end MacroScript
