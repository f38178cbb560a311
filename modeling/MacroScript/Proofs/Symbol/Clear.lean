import MacroScript.Proofs.Symbol.Step

/-!
# Documents with clear headers

A header waits for its brace on its own line and on the next code line. In a document with *clear*
headers nothing else comes in between: **the next mark after a header, on its own line or at the
start of the next code line, is an opening brace, or there is none** (`headersClear`). A header that
gets no brace is fine as long as no other header and no closing brace runs into it.

Then at most the innermost frame waits, and each of the reader's steps can be told from the marks
alone (`ClearStep`): a closing brace closes a frame that has a brace, a header opens when no other
waits, and only the innermost frame expires. The openers and closers among the steps of a line are
the braces on it (`Reads.edges_eq`).
-/
namespace MacroScript

/-! ## 1. Clear headers -/

/-- The line of a mark. -/
def BraceMark.line : BraceMark → Nat
  | .header line | .brace line | .close line => line

/-- What a mark is if headers do not count: a brace opens, a closing brace closes. A header opens
nothing by itself, since the brace that it waits for is a mark of its own. -/
def BraceMark.braceEdge? : BraceMark → Option ScopeEdge
  | .header _ => none
  | .brace _ => some .opener
  | .close line => some (.closer line)

/-- The mark that comes next, if there is one, is an opening brace. -/
def braceNext (marks : List BraceMark) : Bool :=
  marks.head?.all BraceMark.isBrace

/-- After each header among the marks of a line nothing comes next but its brace, there or at the
start of the marks of the next line. `next` are the marks of that next line: a header that ends its
line is judged by them. -/
def clearOnLine (next : List BraceMark) : List BraceMark → Bool
  | [] => true
  | .header _ :: rest => braceNext (rest ++ next) && clearOnLine next rest
  | _ :: rest => clearOnLine next rest

/-- The marks of the first of the lines. -/
def nextMarks (ls : List Line) : List BraceMark :=
  ls.head?.elim [] lineMarks

/-- After each header on these code lines nothing comes next but its brace, on its own line or at
the start of the marks of the next one. The check runs over the marks alone, so it can be evaluated
on a document without reading it. -/
def headersClear : List Line → Bool
  | [] => true
  | l :: ls => clearOnLine (nextMarks ls) (lineMarks l) && headersClear ls

/-- Each line of a document with clear headers is clear against the marks of the line that follows
it, wherever in the document it stands. -/
theorem clearOnLine_of_headersClear {before after : List Line} {l : Line}
    (h : headersClear (before ++ l :: after)) : clearOnLine (nextMarks after) (lineMarks l) := by
  induction before with
  | nil => exact (Bool.and_eq_true _ _ ▸ h).1
  | cons b before ih => exact ih (Bool.and_eq_true _ _ ▸ h).2

/-- What is left of a clear line is clear: each header is judged by what comes after it, so marks in
front of it do not matter. -/
theorem clearOnLine_of_append {next front marks : List BraceMark}
    (h : clearOnLine next (front ++ marks)) : clearOnLine next marks := by
  induction front with
  | nil => exact h
  | cons mark front ih =>
    cases mark with
    | header line => exact ih (Bool.and_eq_true _ _ ▸ h).2
    | brace | close => exact ih h

/-- A mark carries the line that it was found on. The frames are told apart by that number once the
marks of several lines are read one after the other. -/
theorem line_of_tokenMark? {line : Nat} {t : Token} {mark : BraceMark}
    (h : tokenMark? line t = some mark) : mark.line = line := by
  unfold tokenMark? at h
  split at h
  · simp only [Option.some.injEq] at h
    subst h; rfl
  · simp only [Option.some.injEq] at h
    subst h; rfl
  · split at h
    · simp only [Option.some.injEq] at h
      subst h; rfl
    · contradiction
  · contradiction

theorem line_of_firstMark? {line : Nat} {t : Token} {mark : BraceMark}
    (h : firstMark? line t = some mark) : mark.line = line := by
  unfold firstMark? at h
  split at h
  · simp only [Option.some.injEq] at h
    subst h; rfl
  · exact line_of_tokenMark? h

namespace Collector

/-! ## 2. Steps with clear headers -/

/-- No frame waits for a brace. A header or a closing brace that comes now finds nothing to run
into. -/
def Idle (c : Collector) : Prop :=
  ∀ f ∈ c.frames, f.awaitsBrace = false

/-- What an action of the line can be in this state, if the headers are clear. Against the steps of
any document, those of a clear one say which frames wait: none but the innermost, and that one takes
the next brace or expires. -/
inductive ClearStep (line : Nat) (c : Collector) : Action → Prop
  /-- A header opens a frame when no other waits. -/
  | header (kind : Frame.Kind) (hidle : c.Idle) : ClearStep line c (.openFrame kind line true)
  /-- A brace opens a block when no header waits for it. -/
  | block (hidle : c.Idle) : ClearStep line c (.openFrame .block line false)
  /-- A brace is taken by the only header that waits. -/
  | brace (frame : Frame) (frames : List Frame) (hframes : c.frames = frame :: frames)
      (hwaits : frame.awaitsBrace) (hidle : ∀ f ∈ frames, f.awaitsBrace = false) :
      ClearStep line c .takeBrace
  /-- A closing brace finds no header that waits. -/
  | close (hidle : c.Idle) : ClearStep line c (.closeFrame line)
  /-- The only header that waits has expired. -/
  | expire (frame : Frame) (frames : List Frame) (hframes : c.frames = frame :: frames)
      (hwaits : frame.awaitsBrace) (hidle : ∀ f ∈ frames, f.awaitsBrace = false)
      (hlate : frame.openedAt < line) : ClearStep line c (.closeFrame frame.openedAt)
  /-- All else leaves the frames as they are, but for what they hold. -/
  | quiet (a : Action) (hquiet : a.isQuiet) : ClearStep line c a

/-- Quiet actions are steps with clear headers from any state, since `ClearStep.quiet` asks nothing
of the frames. -/
theorem steps_of_isQuiet {line : Nat} {c : Collector} {as : List Action}
    (h : ∀ a ∈ as, a.isQuiet) : Steps (ClearStep line) c as := by
  induction as generalizing c with
  | nil => exact .nil c
  | cons a as ih =>
    exact .cons (.quiet a (h a List.mem_cons_self))
      (ih fun b hb => h b (List.mem_cons_of_mem _ hb))

/-- What an action is if headers do not count: the brace of a header opens, and closing a header
that has no brace closes nothing. -/
def braceEdge? (c : Collector) : Action → Option ScopeEdge
  | .openFrame _ _ false | .takeBrace => some .opener
  | .closeFrame line =>
    if c.frames.head?.any (·.awaitsBrace) then none else some (.closer line)
  | _ => none

/-- The openers and closers among actions, if headers do not count. Each action is judged in the
state that the ones before it leave, since closing a frame counts only if it has its brace. -/
def braceEdges (c : Collector) : List Action → List ScopeEdge
  | [] => []
  | a :: as => (c.braceEdge? a).toList ++ braceEdges (c.perform a) as

/-- The edges of two runs are those of the first and then those of the second, from where the first
ends. -/
theorem braceEdges_append (c : Collector) (as bs : List Action) :
    c.braceEdges (as ++ bs) = c.braceEdges as ++ (c.performAll as).braceEdges bs := by
  induction as generalizing c with
  | nil => rfl
  | cons a as ih =>
    rw [List.cons_append, braceEdges, braceEdges, ih, List.append_assoc, performAll_cons]

/-- Quiet actions open and close nothing: they neither push a frame nor pop one. -/
theorem braceEdges_of_isQuiet (c : Collector) {as : List Action} (h : ∀ a ∈ as, a.isQuiet) :
    c.braceEdges as = [] := by
  induction as generalizing c with
  | nil => rfl
  | cons a as ih =>
    have hnone : c.braceEdge? a = none := by
      have ha := h a List.mem_cons_self
      cases a <;> simp_all [Action.isQuiet, braceEdge?]
    rw [braceEdges, hnone, ih _ fun b hb => h b (List.mem_cons_of_mem _ hb)]
    rfl

/-! ## 3. Ready for the marks -/

/-- At most the innermost frame waits, and the marks that are left on the line do not run into it.
It is that of an earlier header, or that of the last mark that was read on the line, and then those
of the next line do not run into it either. This is the invariant that carries the induction over
the marks of a line and over the lines of a document. -/
structure ReadyFor (c : Collector) (line : Nat) (read left next : List BraceMark) : Prop where
  below : ∀ f ∈ c.frames.tail, f.awaitsBrace = false
  innermost : ∀ f ∈ c.frames.head?, f.awaitsBrace →
    f.openedAt < line ∧ braceNext left ∨
      f.openedAt = line ∧ braceNext (left ++ next) ∧ ∃ n, read.getLast? = some (.header n)

/-- From this state the actions are steps with clear headers. They are what the marks say, and leave
the reader ready for the marks that are left. -/
structure Reads (line : Nat) (next read : List BraceMark) (c : Collector) (as : List Action)
    (marks left : List BraceMark) : Prop where
  steps : Steps (ClearStep line) c as
  edges_eq : c.braceEdges as = marks.filterMap BraceMark.braceEdge?
  ready : (c.performAll as).ReadyFor line (read ++ marks) left next

variable {line : Nat} {next read : List BraceMark}

/-- Runs compose: what the first leaves is what the second is ready for. A line is read in four
parts (its first token, the others, the expiry and its statement), and they are put together by
this. -/
theorem Reads.append {c : Collector} {as bs : List Action}
    {marks marks' left left' : List BraceMark}
    (h : Reads line next read c as marks left)
    (h' : Reads line next (read ++ marks) (c.performAll as) bs marks' left') :
    Reads line next read c (as ++ bs) (marks ++ marks') left' := by
  refine ⟨h.steps.append h'.steps, ?_, ?_⟩
  · rw [braceEdges_append, h.edges_eq, h'.edges_eq, List.filterMap_append]
  · rw [performAll_append, ← List.append_assoc]
    exact h'.ready

/-- Actions that read no mark can come after those that read some. The expiry and the statement of a
line are such: they come when its marks have been read. -/
theorem Reads.append_unmarked {c : Collector} {as bs : List Action} {marks left : List BraceMark}
    (h : Reads line next read c as marks left)
    (h' : Reads line next (read ++ marks) (c.performAll as) bs [] left) :
    Reads line next read c (as ++ bs) marks left := by
  rw [← List.append_nil marks]
  exact h.append h'

namespace ReadyFor

variable {c : Collector} {left : List BraceMark}

/-- A reader with no frame that waits is ready for whatever comes. -/
theorem of_idle (h : c.Idle) : c.ReadyFor line read left next := by
  refine ⟨fun f hf => h f (List.mem_of_mem_tail hf), fun f hf hwaits => ?_⟩
  rw [h f (List.mem_of_mem_head? hf)] at hwaits
  contradiction

/-- Where nothing is done nothing is read, and the reader stays as ready as it was. -/
theorem reads_nil (h : c.ReadyFor line read left next) : Reads line next read c [] [] left :=
  ⟨.nil c, rfl, by rwa [List.append_nil]⟩

/-- Readiness is about which frames wait, and since when. A change that keeps `waits` (what the
frames hold may differ) keeps it. -/
theorem congr {c' : Collector} (h : c.ReadyFor line read left next)
    (hwaits : c'.waits = c.waits) : c'.ReadyFor line read left next := by
  have htail : c'.frames.tail.map (fun f => (f.awaitsBrace, f.openedAt)) =
      c.frames.tail.map fun f => (f.awaitsBrace, f.openedAt) := by
    rw [List.map_tail, List.map_tail]
    exact congrArg List.tail hwaits
  have hhead : c'.frames.head?.map (fun f => (f.awaitsBrace, f.openedAt)) =
      c.frames.head?.map fun f => (f.awaitsBrace, f.openedAt) := by
    rw [← List.head?_map, ← List.head?_map]
    exact congrArg List.head? hwaits
  constructor
  · intro f hf
    obtain ⟨g, hg, heq⟩ := List.mem_map.mp (htail ▸ List.mem_map_of_mem hf)
    rw [← (Prod.mk.inj heq).1]
    exact h.below g hg
  · intro f hf hawaits
    rw [Option.mem_def.mp hf, Option.map_some] at hhead
    obtain ⟨g, hg, heq⟩ := Option.map_eq_some_iff.mp hhead.symm
    obtain ⟨hawaits', hopened⟩ := Prod.mk.inj heq
    rw [← hopened]
    exact h.innermost g hg (hawaits'.trans hawaits)

/-- Quiet actions read no mark and keep the reader ready, whatever is left on the line. -/
theorem reads_quiet (h : c.ReadyFor line read left next) {as : List Action}
    (hquiet : ∀ a ∈ as, a.isQuiet) : Reads line next read c as [] left := by
  refine ⟨steps_of_isQuiet hquiet, braceEdges_of_isQuiet c hquiet, ?_⟩
  rw [List.append_nil]
  exact h.congr (waits_performAll_of_isQuiet c hquiet)

/-- If nothing waits at the top, nothing waits: below the top the invariant rules it out already. -/
theorem idle_of_head (h : c.ReadyFor line read left next)
    (hhead : ∀ f ∈ c.frames.head?, f.awaitsBrace = false) : c.Idle := by
  intro f hf
  cases hframes : c.frames with
  | nil => simp [hframes] at hf
  | cons frame frames =>
    rw [hframes] at hf
    rcases List.mem_cons.mp hf with rfl | hf
    · exact hhead f (by simp [hframes])
    · exact h.below f (by rw [hframes]; exact hf)

/-- Before a mark that is no opening brace no frame waits. A frame that waited would have that mark
as its next one, and the invariant says that its next mark is a brace. -/
theorem idle_of_mark {mark : BraceMark} (h : c.ReadyFor line read (mark :: left) next)
    (hmark : mark.isBrace = false) : c.Idle := by
  refine h.idle_of_head fun f hf => ?_
  by_contra hwaits
  rcases h.innermost f hf (by simpa using hwaits) with ⟨-, hbrace⟩ | ⟨-, hbrace, -⟩ <;>
    simp [braceNext, hmark] at hbrace

/-- Closing the innermost frame leaves nothing that waits if nothing waited below it, whether it
waited itself or not. -/
theorem idle_closeFrame (h : ∀ f ∈ c.frames.tail, f.awaitsBrace = false) (n : Nat) :
    (c.closeFrame n).Idle := by
  unfold Idle closeFrame
  cases hframes : c.frames with
  | nil => simp [hframes]
  | cons frame frames =>
    rw [hframes] at h
    exact h

end ReadyFor

/-! ## 4. The steps of a line -/

/-- The action of a mark: a header opens a frame of its kind that waits, a brace is taken or opens a
block, and a closing brace closes. -/
def markAction (c : Collector) (kind : Frame.Kind) : BraceMark → Action
  | .header line => .openFrame kind line true
  | .brace line => c.braceAction line
  | .close line => .closeFrame line

/-- A token after the first acts by its mark and does nothing without one. The only header among
such tokens is a `do`, so the kind of its frame is fixed. -/
theorem tokenActions_eq (line : Nat) (c : Collector) (t : Token) :
    tokenActions line c t = (tokenMark? line t).toList.map (c.markAction .doBlock) := by
  fun_cases tokenMark? line t <;> simp_all [tokenActions, markAction]

/-- The first token of a line acts by its mark, and all else that it does is quiet. What it opens
depends on the header (its kind), and what it declares besides is quiet. -/
theorem firstActions_eq (c : Collector) (l : Line) (first : Token) (tokens : List Token) :
    ∃ kind quiet, c.firstActions l first tokens =
        (firstMark? l.index first).toList.map (c.markAction kind) ++ quiet ∧
      ∀ a ∈ quiet, a.isQuiet := by
  unfold firstActions firstMark?
  split
  · obtain ⟨kind, quiet, heq, hquiet, -⟩ := headerActions_eq l first tokens
    exact ⟨kind, quiet, heq, hquiet⟩
  · exact ⟨.doBlock, [], by rw [tokenActions_eq, List.append_nil], by simp⟩

namespace ReadyFor

variable {c : Collector} {left : List BraceMark}

/-- A header opens its frame when no other waits. The frame is that of the last mark read, and what
comes next is its brace since the line is clear: so the reader is ready for what is left. -/
theorem reads_header (h : c.ReadyFor line read (.header line :: left) next)
    (hclear : clearOnLine next (.header line :: left)) (kind : Frame.Kind) :
    Reads line next read c [.openFrame kind line true] [.header line] left := by
  have hidle := h.idle_of_mark rfl
  refine ⟨.single (.header kind hidle), rfl, ⟨hidle, ?_⟩⟩
  rintro f hf -
  obtain rfl : (⟨kind, line, [], true⟩ : Frame) = f := Option.some.inj hf
  exact .inr ⟨rfl, (Bool.and_eq_true _ _ ▸ hclear).1, line, List.getLast?_concat⟩

/-- A closing brace closes a frame that does not wait, so it counts as a closer. After it no frame
waits. -/
theorem reads_close (h : c.ReadyFor line read (.close line :: left) next) :
    Reads line next read c [.closeFrame line] [.close line] left := by
  have hidle := h.idle_of_mark rfl
  refine ⟨.single (.close hidle), ?_, of_idle (idle_closeFrame h.below line)⟩
  have hhead : c.frames.head?.any (·.awaitsBrace) = false := by
    cases hhead : c.frames.head? with
    | none => rfl
    | some f => exact hidle f (List.mem_of_mem_head? hhead)
  simp [braceEdges, braceEdge?, hhead, BraceMark.braceEdge?]

/-- A brace is taken by the header that waits, or opens a block. It counts as an opener either way,
and after it no frame waits. -/
theorem reads_brace (h : c.ReadyFor line read (.brace line :: left) next) :
    Reads line next read c [c.braceAction line] [.brace line] left := by
  have hedge (a : Action) (ha : c.braceEdge? a = some .opener) :
      c.braceEdges [a] = [BraceMark.brace line].filterMap BraceMark.braceEdge? := by
    simp [braceEdges, ha, BraceMark.braceEdge?]
  have hopen (hidle : c.Idle) :
      Reads line next read c [.openFrame .block line false] [.brace line] left := by
    refine ⟨.single (.block hidle), hedge _ rfl, of_idle fun f hf => ?_⟩
    rcases List.mem_cons.mp hf with rfl | hf
    · rfl
    · exact hidle f hf
  unfold braceAction
  cases hframes : c.frames with
  | nil => exact hopen (by simp [Idle, hframes])
  | cons frame frames =>
    have hbelow : ∀ f ∈ frames, f.awaitsBrace = false := by simpa [hframes] using h.below
    cases hwaits : frame.awaitsBrace with
    | true =>
      simp only [List.head?_cons, Option.any_some, hwaits, if_true]
      refine ⟨.single (.brace frame frames hframes hwaits hbelow), hedge _ rfl, of_idle ?_⟩
      simpa [Idle, perform, hframes] using hbelow
    | false =>
      simp only [List.head?_cons, Option.any_some, hwaits]
      exact hopen (h.idle_of_head (by simpa [hframes] using hwaits))

/-- **A mark makes a step with clear headers**: one case for each kind of mark. -/
theorem reads_mark {mark : BraceMark} (hline : mark.line = line)
    (h : c.ReadyFor line read (mark :: left) next) (hclear : clearOnLine next (mark :: left))
    (kind : Frame.Kind) : Reads line next read c [c.markAction kind mark] [mark] left := by
  subst hline
  cases mark with
  | header => exact h.reads_header hclear kind
  | brace => exact h.reads_brace
  | close => exact h.reads_close

/-- The same for a token that may carry no mark, in which case it does nothing. -/
theorem reads_mark? {mark : Option BraceMark} (hline : ∀ m ∈ mark, m.line = line)
    (h : c.ReadyFor line read (mark.toList ++ left) next)
    (hclear : clearOnLine next (mark.toList ++ left)) (kind : Frame.Kind) :
    Reads line next read c (mark.toList.map (c.markAction kind)) mark.toList left := by
  cases mark with
  | none => exact h.reads_nil
  | some mark => exact h.reads_mark (hline mark rfl) hclear kind

/-- The tokens of a line after the first read its marks from there on, by induction over the tokens:
each takes its own mark off the front and leaves the reader ready for the rest. -/
theorem reads_tokens {ts : List Token}
    (h : c.ReadyFor line read (ts.filterMap (tokenMark? line)) next)
    (hclear : clearOnLine next (ts.filterMap (tokenMark? line))) :
    Reads line next read c (tokensActions line c ts) (ts.filterMap (tokenMark? line)) [] := by
  induction ts generalizing c read with
  | nil => exact h.reads_nil
  | cons t ts ih =>
    have hsplit : (t :: ts).filterMap (tokenMark? line) =
        (tokenMark? line t).toList ++ ts.filterMap (tokenMark? line) := by
      rw [List.filterMap_cons]
      cases tokenMark? line t <;> rfl
    rw [hsplit] at h hclear ⊢
    have hmark := h.reads_mark? (fun _ => line_of_tokenMark?) hclear .doBlock
    rw [← tokenActions_eq] at hmark
    refine hmark.append ?_
    rw [performAll_tokenActions]
    exact ih (performAll_tokenActions line c t ▸ hmark.ready) (clearOnLine_of_append hclear)

/-- All tokens of a line together, the first and those after it, read all marks of the line. -/
theorem reads_nestActions {l : Line} {first : Token} {rest : List Token}
    (hscan : Token.scan l.code = first :: rest) (h : c.ReadyFor l.index [] (lineMarks l) next)
    (hclear : clearOnLine next (lineMarks l)) :
    Reads l.index next [] c (c.nestActions l first rest) (lineMarks l) [] := by
  have hmarks : lineMarks l =
      (firstMark? l.index first).toList ++ rest.filterMap (tokenMark? l.index) := by
    rw [lineMarks, hscan]
  rw [hmarks] at h hclear ⊢
  obtain ⟨kind, quiet, heq, hquiet⟩ := firstActions_eq c l first (first :: rest)
  have hmark := h.reads_mark? (fun _ => line_of_firstMark?) hclear kind
  -- the first token reads its mark and then acts quietly; the others go on from there
  have hfirst := hmark.append_unmarked (hmark.ready.reads_quiet hquiet)
  rw [← heq] at hfirst
  exact hfirst.append (hfirst.ready.reads_tokens (clearOnLine_of_append hclear))

/-- The expiry that follows the tokens of a line reads no mark. A header of an earlier line that
still waits is closed, which counts as no closer since it has no brace; one of this line goes on
waiting. -/
theorem reads_expiry (h : c.ReadyFor line read [] next) :
    Reads line next read c (c.expiryActions line) [] [] := by
  unfold expiryActions
  cases hframes : c.frames with
  | nil => exact h.reads_nil
  | cons frame frames =>
    by_cases hlate : frame.awaitsBrace && frame.openedAt != line
    · simp only [hlate, if_true]
      obtain ⟨hwaits, hne⟩ := Bool.and_eq_true _ _ ▸ hlate
      have hbelow : ∀ f ∈ frames, f.awaitsBrace = false := by simpa [hframes] using h.below
      have hlt : frame.openedAt < line := by
        rcases h.innermost frame (by simp [hframes]) hwaits with ⟨hlt, -⟩ | ⟨heq, -⟩
        · exact hlt
        · simp [heq] at hne
      refine ⟨.single (.expire frame frames hframes hwaits hbelow hlt), ?_,
        of_idle (idle_closeFrame h.below _)⟩
      simp [braceEdges, braceEdge?, hframes, hwaits]
    · simp only [hlate]
      exact h.reads_nil

/-- After the expiry the only header that can wait is one of this line. If the innermost frame was
closed, nothing below it waits; if it was kept, it does not wait or is of this line. -/
theorem openedAt_of_waits (h : c.ReadyFor line read [] next) :
    ∀ f ∈ (c.expireHeader line).frames, f.awaitsBrace → f.openedAt = line := by
  intro f hf hwaits
  rcases expireHeader_cases c line with ⟨hkept, hown⟩ | ⟨frame, -, -, -, -, hclosed⟩
  · rw [hkept] at hf
    cases hframes : c.frames with
    | nil => simp [hframes] at hf
    | cons frame frames =>
      rw [hframes] at hf
      rcases List.mem_cons.mp hf with rfl | hf
      · exact hown f (by simp [hframes]) hwaits
      · rw [h.below f (by simpa [hframes] using hf)] at hwaits
        contradiction
  · rw [hclosed] at hf
    rw [idle_closeFrame h.below _ f hf] at hwaits
    contradiction

/-- The frames of a line are settled with clear headers: its tokens read the marks, and the expiry
after them reads none. -/
theorem reads_frameActions {l : Line} {first : Token} {rest : List Token}
    (hscan : Token.scan l.code = first :: rest) (h : c.ReadyFor l.index [] (lineMarks l) next)
    (hclear : clearOnLine next (lineMarks l)) :
    Reads l.index next [] c (c.frameActions l first rest) (lineMarks l) [] := by
  have htokens := h.reads_nestActions hscan hclear
  rw [frameActions_eq]
  exact htokens.append_unmarked htokens.ready.reads_expiry

/-- **A line is read with clear headers.** All that comes after its frames are settled is its
statement, and that is quiet. -/
theorem reads_lineActions {l : Line} (hcode : l.isCode)
    (h : c.ReadyFor l.index [] (lineMarks l) next) (hclear : clearOnLine next (lineMarks l)) :
    Reads l.index next [] c (c.lineActions l) (lineMarks l) [] := by
  obtain ⟨first, rest, hscan⟩ := Line.exists_scan_of_isCode hcode
  have hframes := h.reads_frameActions hscan hclear
  simp only [lineActions, hscan]
  exact hframes.append_unmarked
    (hframes.ready.reads_quiet fun a ha => isQuiet_of_mem_statementActions ha)

/-- Before the statement of a line is read no header waits but one of that line. What the statement
declares therefore comes into a frame with a brace, or into that of a header on its own line. -/
theorem openedAt_settled {l : Line} (hcode : l.isCode)
    (h : c.ReadyFor l.index [] (lineMarks l) next) (hclear : clearOnLine next (lineMarks l)) :
    ∀ f ∈ (c.settled l).frames, f.awaitsBrace → f.openedAt = l.index := by
  obtain ⟨first, rest, hscan⟩ := Line.exists_scan_of_isCode hcode
  have htokens := (h.reads_nestActions hscan hclear).ready
  rw [performAll_nestActions c hscan] at htokens
  exact htokens.openedAt_of_waits

/-- After a whole line is read no header waits but one of that line: its statement changes what the
frames hold and not which of them wait. -/
theorem openedAt_readLine {l : Line} (hcode : l.isCode)
    (h : c.ReadyFor l.index [] (lineMarks l) next) (hclear : clearOnLine next (lineMarks l)) :
    ∀ f ∈ (c.readLine l).frames, f.awaitsBrace → f.openedAt = l.index := by
  intro f hf hwaits
  obtain ⟨g, hg, hwaits', hopened⟩ := exists_frame_of_waits (waits_readLine c hcode) hf
  rw [← hopened]
  exact h.openedAt_settled hcode hclear g hg (hwaits'.trans hwaits)

/-- With the marks of a line read, the reader is ready for the next one. A frame that waits is that
of the last header of this line, and that the next marks do not run into it is what the invariant
kept about `next`. -/
theorem next_line (h : c.ReadyFor line read [] next) (hown : ∀ f ∈ c.frames, f.awaitsBrace →
    f.openedAt = line) {line' : Nat} (hlt : line < line') (next' : List BraceMark) :
    c.ReadyFor line' [] next next' := by
  refine ⟨h.below, fun f hf hwaits => .inl ?_⟩
  have hopened := hown f (List.mem_of_mem_head? hf) hwaits
  rcases h.innermost f hf hwaits with ⟨hlt', -⟩ | ⟨-, hbrace, -⟩
  · omega
  · exact ⟨by omega, hbrace⟩

end ReadyFor

/-! ## 5. The steps of a document -/

/-- **The reader comes to each line ready for its marks**, if the headers are clear. The induction
takes lines off the end, since the state at a line is that of the fold over those before it. -/
theorem readyFor_lines {before after : List Line} (hclear : headersClear (before ++ after))
    (hlines : before.Pairwise fun k l => k.index < l.index) (hcode : ∀ l ∈ before, l.isCode)
    {line : Nat} (hline : ∀ l ∈ before, l.index < line) (next : List BraceMark) :
    (before.foldl readLine {}).ReadyFor line [] (nextMarks after) next := by
  induction before using List.reverseRecOn generalizing after line next with
  | nil => exact .of_idle (by simp [Idle])
  | append_singleton before l ih =>
    obtain ⟨hbefore, hlt⟩ := Line.index_lt_of_concat hlines
    rw [List.append_assoc] at hclear
    -- ready for the marks of `l`, which are the next ones of the lines before it
    have hready := ih hclear hbefore (fun k hk => hcode k (by simp [hk])) hlt (nextMarks after)
    have hl := hcode l (by simp)
    have hclear' := clearOnLine_of_headersClear hclear
    have hread := (hready.reads_lineActions hl hclear').ready
    rw [performAll_lineActions] at hread
    rw [List.foldl_append, List.foldl_cons, List.foldl_nil]
    exact hread.next_line (hready.openedAt_readLine hl hclear') (hline l (by simp)) next

end Collector

end MacroScript
