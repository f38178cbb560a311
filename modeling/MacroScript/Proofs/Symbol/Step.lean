import MacroScript.Proofs.Line.Code
import MacroScript.Proofs.Line.Comment
import MacroScript.Proofs.Symbol.Braces
import MacroScript.Proofs.Token.Span

/-!
# The steps of a line

The actions of a line are not any actions: a brace is taken only by a header that waits for it, a
parameter is put into the frame of its own header, a token closes on its own line and nothing else.
`TokenStep` says which action can come in which state, and `Steps` that a list of actions is made of
such steps. **What every step keeps is kept by all of them** (`Steps.keeps`), so an invariant of the
reader takes one case for each kind of step.

A line is read in three parts: the steps of its tokens (`afterTokens`), the expiry of a header that
is out of time (`settled`), and its statement, which leaves the frames as they are but for what they
hold (`waits_readLine`).
-/
namespace MacroScript

open Text

namespace Collector

/-! ## 1. Steps -/

/-- The actions come one after the other, each of them a step from the state that it finds. What
counts as a step is a parameter: any document has its `TokenStep`s, and one with clear headers has
fewer. -/
inductive Steps (step : Collector → Action → Prop) : Collector → List Action → Prop
  | nil (c : Collector) : Steps step c []
  | cons {c : Collector} {a : Action} {as : List Action} (h : step c a)
      (hrest : Steps step (c.perform a) as) : Steps step c (a :: as)

namespace Steps

variable {step : Collector → Action → Prop} {c : Collector}

theorem single {a : Action} (h : step c a) : Steps step c [a] :=
  .cons h (.nil _)

/-- A run may go on where another has ended. -/
theorem append {as bs : List Action} (has : Steps step c as)
    (hbs : Steps step (c.performAll as) bs) : Steps step c (as ++ bs) := by
  induction has with
  | nil => exact hbs
  | cons h _ ih => exact .cons h (ih hbs)

/-- Actions that are steps from any state make a run from any state. -/
theorem of_forall {p : Action → Prop} {as : List Action} (h : ∀ a ∈ as, p a) :
    Steps (fun _ a => p a) c as := by
  induction as generalizing c with
  | nil => exact .nil c
  | cons a as ih =>
    exact .cons (h a List.mem_cons_self) (ih fun b hb => h b (List.mem_cons_of_mem _ hb))

/-- The first part of a run is a run. (The rest is one too, from where the first part ends.) -/
theorem of_append {as bs : List Action} (h : Steps step c (as ++ bs)) : Steps step c as := by
  induction as generalizing c with
  | nil => exact .nil c
  | cons a as ih =>
    cases h with
    | cons ha hrest => exact .cons ha (ih hrest)

/-- A run of steps is a run of whatever kind of step those are. -/
theorem imp {step' : Collector → Action → Prop} (himp : ∀ c a, step c a → step' c a)
    {as : List Action} (h : Steps step c as) : Steps step' c as := by
  induction h with
  | nil => exact .nil _
  | cons h _ ih => exact .cons (himp _ _ h) ih

/-- **What every step keeps is kept by all of them.** This is the one induction over the actions of
a line; an invariant of the reader has to be checked for single steps only. -/
theorem keeps {P : Collector → Prop} (hstep : ∀ c a, P c → step c a → P (c.perform a))
    {as : List Action} (h : Steps step c as) (hc : P c) : P (c.performAll as) := by
  induction h with
  | nil => exact hc
  | cons h _ ih => exact ih (hstep _ _ hc h)

end Steps

/-- What a token of the line can do in this state. The cases carry what the reader knows when it
acts, such as that the frame which takes a brace waits for it. -/
inductive TokenStep (line : Nat) (c : Collector) : Action → Prop
  /-- A header opens a frame that waits for its brace. -/
  | header (kind : Frame.Kind) : TokenStep line c (.openFrame kind line true)
  /-- A brace opens a block of its own if the innermost frame does not wait for it. -/
  | block (hidle : c.frames.head?.any (·.awaitsBrace) = false) :
      TokenStep line c (.openFrame .block line false)
  /-- A brace belongs to the innermost frame if that waits for it. -/
  | brace (frame : Frame) (frames : List Frame) (hframes : c.frames = frame :: frames)
      (hwaits : frame.awaitsBrace) : TokenStep line c .takeBrace
  /-- A closing brace closes on its line. -/
  | close : TokenStep line c (.closeFrame line)
  /-- A header registers its name. -/
  | register (kind : Frame.Kind) (name : Text) : TokenStep line c (.register kind name)
  /-- A parameter goes into the frame of its header, which was opened on the same line. -/
  | parameter (name : Text) (frame : Frame) (frames : List Frame)
      (hframes : c.frames = frame :: frames) (hopened : frame.openedAt = line) :
      TokenStep line c (parameterAction line name)

/-- A token after the first makes at most one step, and the branch of the reader that it takes gives
the hypothesis of that step. -/
theorem steps_tokenActions (line : Nat) (c : Collector) (t : Token) :
    Steps (TokenStep line) c (tokenActions line c t) := by
  unfold tokenActions
  split
  · exact .single .close
  · refine .single ?_
    unfold braceAction
    cases hframes : c.frames with
    | nil => exact .block (by simp [hframes])
    | cons frame frames =>
      cases hwaits : frame.awaitsBrace with
      | true => simpa [hwaits] using TokenStep.brace frame frames hframes hwaits
      | false => simpa [hwaits] using TokenStep.block (by simp [hframes, hwaits])
  · split
    · exact .single (.header _)
    · exact .nil c
  · exact .nil c

/-- The tokens after the first make steps one after the other, each from the state that the ones
before it leave. -/
theorem steps_tokensActions (line : Nat) (c : Collector) (ts : List Token) :
    Steps (TokenStep line) c (tokensActions line c ts) := by
  induction ts generalizing c with
  | nil => exact .nil c
  | cons t ts ih =>
    refine (steps_tokenActions line c t).append ?_
    rw [performAll_tokenActions]
    exact ih _

/-- The parameters go into the innermost frame one after the other. That frame stays the innermost
one, opened on the line of the header, while it fills. -/
theorem steps_parameterActions {line : Nat} {c : Collector} {frame : Frame} {frames : List Frame}
    (hframes : c.frames = frame :: frames) (hopened : frame.openedAt = line) (names : List Text) :
    Steps (TokenStep line) c (names.map (parameterAction line)) := by
  induction names generalizing c frame with
  | nil => exact .nil c
  | cons name names ih =>
    have hnext : (c.perform (parameterAction line name)).frames =
        { frame with pending := frame.pending ++ [c.table.symbols.length] } :: frames := by
      simp [parameterAction, perform, insert, hframes]
    exact .cons (.parameter name frame frames hframes hopened) (ih hnext hopened)

/-- A header opens its frame, registers its name and puts its parameters in. Registering does not
touch the frames, so the parameters find the frame that the header has just opened. -/
theorem steps_headerActions (c : Collector) (l : Line) (keyword : Token) (tokens : List Token) :
    Steps (TokenStep l.index) c (headerActions l keyword tokens) := by
  have hregister (kind : Frame.Kind) (name : Text) :
      ((c.perform (.openFrame kind l.index true)).perform (.register kind name)).frames =
        ⟨kind, l.index, [], true⟩ :: c.frames := by
    simp only [perform, registerHeader]
    split
    · rfl
    · split <;> rfl
  unfold headerActions
  simp only
  refine .cons (.header _) ?_
  cases tokens.findIdx? fun t => t.kind = .opener .round with
  | none => exact .nil _
  | some i =>
    cases htoken : tokens[i]? with
    | none => simpa only [htoken] using .nil _
    | some opener =>
      simp only [htoken]
      exact .cons (.register _ _) (steps_parameterActions (hregister _ _) rfl _)

/-- The actions of the tokens of a line, before any header expires: those of the first token and
then those of the others, from the state that the first one leaves. -/
def nestActions (c : Collector) (l : Line) (first : Token) (rest : List Token) : List Action :=
  c.firstActions l first (first :: rest) ++
    tokensActions l.index (c.performAll (c.firstActions l first (first :: rest))) rest

/-- **The tokens of a line make such steps**, whatever the line and the state that it is read in. -/
theorem steps_nestActions (c : Collector) (l : Line) (first : Token) (rest : List Token) :
    Steps (TokenStep l.index) c (c.nestActions l first rest) := by
  refine Steps.append ?_ (steps_tokensActions _ _ _)
  unfold firstActions
  split
  · exact steps_headerActions c l first _
  · exact steps_tokenActions l.index c first

/-- The frames of a line are settled by its tokens first and the expiry after them. -/
theorem frameActions_eq (c : Collector) (l : Line) (first : Token) (rest : List Token) :
    c.frameActions l first rest = c.nestActions l first rest ++
      (c.performAll (c.nestActions l first rest)).expiryActions l.index := by
  simp only [frameActions, nestActions, performAll_append]

/-! ## 2. The parts of a line -/

/-- The state after the tokens of a line, before any header expires. -/
def afterTokens (c : Collector) (l : Line) : Collector :=
  match Token.scan l.code with
  | [] => c
  | first :: rest => rest.foldl (readToken l.index) (c.readFirst l first (first :: rest))

/-- The state in which the statement of a line is read: a header that is out of time has expired.
What the statement declares goes into the innermost frame of this state. -/
def settled (c : Collector) (l : Line) : Collector :=
  (c.afterTokens l).expireHeader l.index

end Collector

/-- A code line has a first token, since a line without tokens is blank. -/
theorem Line.exists_scan_of_isCode {l : Line} (h : l.isCode) :
    ∃ first rest, Token.scan l.code = first :: rest := by
  cases hscan : Token.scan l.code with
  | cons first rest => exact ⟨first, rest, rfl⟩
  | nil =>
    have hblank : l.isEmpty := Token.isAllBlank_of_scanFrom_eq_nil hscan
    rw [Line.isCode_eq, hblank] at h
    contradiction

/-- The lines of a document are numbered in their order. -/
theorem Line.index_lt_ofText (t : Text) : (Line.ofText t).Pairwise fun k l => k.index < l.index :=
  (Line.number_index 0 0 _).1

/-- The index of a line is below the number of lines. -/
theorem Line.index_lt_length {t : Text} {l : Line} (h : l ∈ Line.ofText t) :
    l.index < (Line.ofText t).length := by
  have hlt := ((Line.number_index 0 0 (List.splitOn '\n' t)).2 l h).2
  rwa [Nat.zero_add] at hlt

/-- The code lines of a document are numbered in their order, and no number is beyond the last line.
The reader skips the other lines, and this is all that is left of the numbering after that. -/
theorem Line.codeLines_ofText (t : Text) :
    (((Line.ofText t).filter Line.isCode).Pairwise fun k l => k.index < l.index) ∧
      ∀ l ∈ (Line.ofText t).filter Line.isCode, l.isCode ∧ l.index ≤ (Line.ofText t).length := by
  refine ⟨(Line.index_lt_ofText t).filter Line.isCode, fun l hl => ?_⟩
  obtain ⟨hmem, hcode⟩ := List.mem_filter.mp hl
  exact ⟨hcode, (Line.index_lt_length hmem).le⟩

/-- The last of some numbered lines comes after all others. Inductions that take lines off the end
use the order in this form. -/
theorem Line.index_lt_of_concat {before : List Line} {l : Line}
    (h : (before ++ [l]).Pairwise fun k l => k.index < l.index) :
    (before.Pairwise fun k l => k.index < l.index) ∧ ∀ k ∈ before, k.index < l.index := by
  rw [List.pairwise_append] at h
  exact ⟨h.1, fun k hk => h.2.2 k hk l (List.mem_singleton_self l)⟩

namespace Collector

variable {l : Line} {first : Token} {rest : List Token}

/-- The actions of the tokens lead to the state after the tokens. -/
theorem performAll_nestActions (c : Collector) (hscan : Token.scan l.code = first :: rest) :
    c.performAll (c.nestActions l first rest) = c.afterTokens l := by
  simp only [nestActions, performAll_append, performAll_firstActions, performAll_tokensActions,
    afterTokens, hscan]

/-- The actions on the frames lead to the state in which the statement is read. -/
theorem performAll_frameActions (c : Collector) (hscan : Token.scan l.code = first :: rest) :
    c.performAll (c.frameActions l first rest) = c.settled l := by
  rw [frameActions_eq, performAll_append, performAll_nestActions c hscan,
    performAll_expiryActions, settled]

/-- A line is read by settling the frames and then reading its statement. -/
theorem readLine_eq (c : Collector) (hscan : Token.scan l.code = first :: rest) :
    c.readLine l = (c.settled l).readStatement l first (first :: rest) := by
  simp only [readLine, settled, afterTokens, hscan]

/-- What a token step keeps holds after the tokens of a line, whether there are any or not. -/
theorem steps_afterTokens {P : Collector → Prop}
    (hstep : ∀ c a, P c → TokenStep l.index c a → P (c.perform a)) {c : Collector} (hc : P c) :
    P (c.afterTokens l) := by
  cases hscan : Token.scan l.code with
  | nil => simpa [afterTokens, hscan] using hc
  | cons first rest =>
    rw [← performAll_nestActions c hscan]
    exact (steps_nestActions c l first rest).keeps hstep hc

/-- The statement of a line changes no frame but for what it holds, so that which frames wait after
a line is decided before its statement is read. -/
theorem waits_readLine (c : Collector) (hcode : l.isCode) :
    (c.readLine l).waits = (c.settled l).waits := by
  obtain ⟨first, rest, hscan⟩ := Line.exists_scan_of_isCode hcode
  rw [readLine_eq c hscan, ← performAll_statementActions]
  exact waits_performAll_of_isQuiet _ fun a ha => isQuiet_of_mem_statementActions ha

/-- Frames that wait alike are found in each other's place. -/
theorem exists_frame_of_waits {c c' : Collector} (h : c'.waits = c.waits) {f : Frame}
    (hf : f ∈ c'.frames) :
    ∃ g ∈ c.frames, g.awaitsBrace = f.awaitsBrace ∧ g.openedAt = f.openedAt := by
  have hmem : (f.awaitsBrace, f.openedAt) ∈ c'.waits := List.mem_map_of_mem hf
  rw [h] at hmem
  obtain ⟨g, hg, heq⟩ := List.mem_map.mp hmem
  exact ⟨g, hg, (Prod.mk.inj heq).1, (Prod.mk.inj heq).2⟩

/-- Reading one more code line goes on from where the lines before it have led. -/
theorem readLines_concat (before : List Line) (hcode : l.isCode) :
    readLines (before ++ [l]) = (readLines before).readLine l := by
  rw [readLines, List.filter_append, List.filter_cons_of_pos hcode, List.filter_nil,
    List.foldl_append]
  rfl

/-- The frames after an expiry, in its two cases: the innermost one does not wait or is of this
line, and all stays; or it is a header that is out of time, and is closed on its own line. -/
theorem expireHeader_cases (c : Collector) (line : Nat) :
    c.expireHeader line = c ∧
        (∀ frame ∈ c.frames.head?, frame.awaitsBrace → frame.openedAt = line) ∨
      ∃ frame frames, c.frames = frame :: frames ∧ frame.awaitsBrace ∧ frame.openedAt ≠ line ∧
        c.expireHeader line = c.closeFrame frame.openedAt := by
  unfold expireHeader
  cases hframes : c.frames with
  | nil => exact .inl ⟨rfl, by simp⟩
  | cons frame frames =>
    by_cases hlate : frame.awaitsBrace ∧ frame.openedAt ≠ line
    · exact .inr ⟨frame, frames, rfl, hlate.1, hlate.2, by simp [hlate]⟩
    · refine .inl ⟨?_, ?_⟩
      · simp only
        rw [if_neg]
        simpa using hlate
      · rintro frame' hframe' hwaits
        obtain rfl : frame = frame' := by simpa using hframe'
        by_contra hne
        exact hlate ⟨hwaits, hne⟩

end Collector

end MacroScript
