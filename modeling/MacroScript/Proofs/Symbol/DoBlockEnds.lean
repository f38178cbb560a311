import MacroScript.Proofs.Symbol.Clear
import MacroScript.Proofs.Symbol.Halving

/-!
# The ends of `do` blocks

Whenever a frame of a `do` is closed the table takes down the line of the closing, and a search by
halving looks these lines up. A closing brace closes on the line that is being read, so by itself it
keeps the lines in order. A `do` that gets no brace is closed on its own line, and only when a later
line has been read: by then blocks may have been closed on lines after it.

Lines that are out of order do not come back: what was closed before an earlier line is not the
line of any frame that is still open (`ClosedInOrder`). This is what the search needs to tell order
from disorder, and so **it finds the end of every `do` block exactly if the ends are in order**.
-/
namespace MacroScript

/-! ## 1. What is closed -/

namespace Collector

/-- The `do` block that an action closes, and the line that it is closed on. Only the innermost
frame can be closed, and it counts if it is that of a `do`. -/
def doBlockClosed? (c : Collector) : Action → Option (Frame × Nat)
  | .closeFrame line => (c.frames.head?.filter (·.kind = .doBlock)).map (·, line)
  | _ => none

/-- The `do` blocks that actions close, one after the other. -/
def doBlocksClosedFrom (c : Collector) : List Action → List (Frame × Nat)
  | [] => []
  | a :: as => (c.doBlockClosed? a).toList ++ doBlocksClosedFrom (c.perform a) as

/-- The `do` blocks that are closed while the lines are read, each with the line that it is closed
on. The order is that of the closings, which need not be that of the lines. -/
def doBlocksClosed (lines : List Line) : List (Frame × Nat) :=
  doBlocksClosedFrom {} (actions lines)

/-- The closings of two runs are those of the first and then those of the second, from where the
first ends. -/
theorem doBlocksClosedFrom_append (c : Collector) (as bs : List Action) :
    c.doBlocksClosedFrom (as ++ bs) =
      c.doBlocksClosedFrom as ++ (c.performAll as).doBlocksClosedFrom bs := by
  induction as generalizing c with
  | nil => rfl
  | cons a as ih =>
    rw [List.cons_append, doBlocksClosedFrom, doBlocksClosedFrom, ih, List.append_assoc,
      performAll_cons]

/-- Quiet actions close nothing. -/
theorem doBlockClosed?_of_isQuiet (c : Collector) {a : Action} (h : a.isQuiet) :
    c.doBlockClosed? a = none := by
  cases a <;> simp_all [Action.isQuiet, doBlockClosed?]

theorem doBlocksClosedFrom_of_isQuiet (c : Collector) {as : List Action}
    (h : ∀ a ∈ as, a.isQuiet) : c.doBlocksClosedFrom as = [] := by
  induction as generalizing c with
  | nil => rfl
  | cons a as ih =>
    rw [doBlocksClosedFrom, doBlockClosed?_of_isQuiet c (h a List.mem_cons_self),
      ih _ fun b hb => h b (List.mem_cons_of_mem _ hb)]
    rfl

/-- The table takes down a line exactly where a `do` block is closed, at the end of its list. -/
theorem doBlockEnds_perform (c : Collector) (a : Action) :
    (c.perform a).table.doBlockEnds =
      c.table.doBlockEnds ++ (c.doBlockClosed? a).toList.map Prod.snd := by
  cases a with
  | closeFrame line =>
    cases hframes : c.frames with
    | nil => simp [perform, closeFrame, doBlockClosed?, hframes]
    | cons frame frames =>
      simp only [perform, closeFrame, hframes, doBlockClosed?, List.head?_cons]
      rw [endScopes_eq]
      by_cases hkind : frame.kind = .doBlock <;> simp [Option.filter, hkind]
  | takeBrace => cases hframes : c.frames <;> simp [perform, doBlockClosed?, hframes]
  | register kind name =>
    simp only [perform, registerHeader, doBlockClosed?, Option.toList_none, List.map_nil,
      List.append_nil]
    split
    · rfl
    · split <;> rfl
  | insert name value tag origin line => simp [perform, insert_table, doBlockClosed?]
  | _ => simp [perform, openFrame, Symbol.Table.modifySymbol, doBlockClosed?]

theorem doBlockEnds_performAll (c : Collector) (as : List Action) :
    (c.performAll as).table.doBlockEnds =
      c.table.doBlockEnds ++ (c.doBlocksClosedFrom as).map Prod.snd := by
  induction as generalizing c with
  | nil => simp [doBlocksClosedFrom]
  | cons a as ih =>
    rw [performAll_cons, ih, doBlockEnds_perform, doBlocksClosedFrom, List.map_append,
      List.append_assoc]

/-- **The table takes down where each `do` block is closed.** -/
theorem doBlockEnds_readLines (lines : List Line) :
    (readLines lines).table.doBlockEnds = (doBlocksClosed lines).map Prod.snd := by
  rw [← performAll_actions, doBlockEnds_performAll]
  rfl

/-! ## 2. What a line closes -/

/-- The lines on which the open frames were opened, the innermost first. -/
def openedLines (c : Collector) : List Nat :=
  c.frames.map Frame.openedAt

theorem openedLines_eq (c : Collector) : c.openedLines = c.waits.map Prod.snd := by
  simp [openedLines, waits]

/-- Closing takes the innermost line off. -/
theorem openedLines_closeFrame (c : Collector) (line : Nat) :
    (c.closeFrame line).openedLines = c.openedLines.tail := by
  cases hframes : c.frames <;> simp [closeFrame, openedLines, hframes]

/-- Tokens close frames from the inside and open others on their line. So the lines of the open
frames are this line, some number of times, and then some of those that were open before. -/
theorem openedLines_afterTokens (c : Collector) (l : Line) :
    ∃ n outer, outer <:+ c.openedLines ∧
      (c.afterTokens l).openedLines = List.replicate n l.index ++ outer := by
  refine steps_afterTokens (P := fun c' => ∃ n outer, outer <:+ c.openedLines ∧
    c'.openedLines = List.replicate n l.index ++ outer) (fun c' a h hstep => ?_)
    ⟨0, _, List.suffix_refl _, rfl⟩
  obtain ⟨n, outer, hsuffix, heq⟩ := h
  have hopen (kind : Frame.Kind) (awaits : Bool) : ∃ n outer, outer <:+ c.openedLines ∧
      (c'.perform (.openFrame kind l.index awaits)).openedLines =
        List.replicate n l.index ++ outer := by
    refine ⟨n + 1, outer, hsuffix, ?_⟩
    rw [List.replicate_succ, List.cons_append, ← heq]
    rfl
  cases hstep with
  | header kind => exact hopen kind true
  | block hidle => exact hopen .block false
  | brace frame frames hframes hwaits =>
    refine ⟨n, outer, hsuffix, heq ▸ ?_⟩
    simp [perform, openedLines, hframes]
  | close =>
    have htail : (c'.perform (.closeFrame l.index)).openedLines = c'.openedLines.tail :=
      openedLines_closeFrame c' l.index
    rw [htail, heq]
    -- what is closed was opened on this line, or else it was the innermost one of those before
    cases n with
    | zero => exact ⟨0, outer.tail, (List.tail_suffix outer).trans hsuffix, rfl⟩
    | succ n => exact ⟨n, outer, hsuffix, rfl⟩
  | register kind name =>
    refine ⟨n, outer, hsuffix, heq ▸ ?_⟩
    rw [openedLines_eq, openedLines_eq, waits_perform_of_isQuiet c' rfl]
  | parameter name frame frames hframes hopened =>
    refine ⟨n, outer, hsuffix, heq ▸ ?_⟩
    rw [openedLines_eq, openedLines_eq, waits_perform_of_isQuiet c' rfl]

/-- Tokens close on their line, whatever they close. -/
theorem line_eq_of_mem_closed {line : Nat} {c : Collector} {as : List Action}
    (h : Steps (TokenStep line) c as) : ∀ closing ∈ c.doBlocksClosedFrom as, closing.2 = line := by
  induction h with
  | nil => simp [doBlocksClosedFrom]
  | cons hstep _ ih =>
    intro closing hmem
    rcases List.mem_append.mp hmem with hmem | hmem
    · cases hstep with
      | close =>
        rw [Option.mem_toList, doBlockClosed?, Option.map_eq_some_iff] at hmem
        obtain ⟨frame, -, rfl⟩ := hmem
        rfl
      | _ => simp [doBlockClosed?, parameterAction] at hmem
    · exact ih closing hmem

/-! ## 3. The order of the closings -/

/-- A sublist of a list with one more item ends with that item or is a sublist without it. -/
theorem sublist_concat_cases (xs : List Nat) (x : Nat) {items : List Nat} {y : Nat}
    (h : (xs ++ [x]).Sublist (items ++ [y])) :
    (xs ++ [x]).Sublist items ∨ x = y ∧ xs.Sublist items := by
  obtain ⟨front, back, heq, hfront, hback⟩ := List.sublist_append_iff.mp h
  rcases List.sublist_singleton.mp hback with rfl | rfl
  · rw [List.append_nil] at heq
    exact .inl (heq ▸ hfront)
  · obtain ⟨rfl, hx⟩ := List.append_inj' heq rfl
    exact .inr ⟨by simpa using hx, hfront⟩

/-- Items that are all one number, and greater than those before them, come second in no pair that
descends. So a line's own closings add no descent to the list of ends. -/
theorem pair_sublist_of_append {x y line : Nat} {ends more : List Nat} (hlt : y < x)
    (hends : ∀ e ∈ ends, e < line) (hmore : ∀ e ∈ more, e = line)
    (h : [x, y].Sublist (ends ++ more)) : [x, y].Sublist ends := by
  induction more using List.reverseRecOn with
  | nil => rwa [List.append_nil] at h
  | append_singleton more e ih =>
    rw [← List.append_assoc] at h
    rcases sublist_concat_cases [x] y h with h | ⟨rfl, hx⟩
    · exact ih (fun e he => hmore e (by simp [he])) h
    · have hy : y = line := hmore y (by simp)
      rcases List.mem_append.mp (List.singleton_sublist.mp hx) with hx | hx
      · exact absurd (hends x hx) (by omega)
      · exact absurd (hmore x (by simp [hx])) (by omega)

/-- The `do` got no brace and is closed on its own line. This is the only kind of closing that may
come after closings on later lines. -/
def IsLeft (closing : Frame × Nat) : Prop :=
  closing.1.awaitsBrace ∧ closing.2 = closing.1.openedAt

/-- The `do` blocks that are closed so far, with the lines of the frames that are still open: lines
out of order do not come back, and only a `do` without a brace is closed on a line before others
that are closed already. `not_opened` is what carries `no_return` over an expiry: a line that came
before a smaller one is not that of an open frame, so it cannot be closed on again. -/
structure ClosedInOrder (opened : List Nat) (closed : List (Frame × Nat)) (bound : Nat) : Prop where
  opened_lt : ∀ x ∈ opened, x < bound
  opened_order : opened.Pairwise (· ≥ ·)
  ends_lt : ∀ e ∈ closed.map Prod.snd, e < bound
  not_opened : ∀ x y, y < x → [x, y].Sublist (closed.map Prod.snd) → x ∉ opened
  no_return : ∀ x y, y < x → ¬[x, y, x].Sublist (closed.map Prod.snd)
  late : closed.Pairwise fun e next => IsLeft next ∨ e.2 ≤ next.2

namespace ClosedInOrder

variable {opened : List Nat} {closed : List (Frame × Nat)} {bound : Nat}

/-- The bound may be raised. -/
theorem mono (h : ClosedInOrder opened closed bound) {bound' : Nat} (hle : bound ≤ bound') :
    ClosedInOrder opened closed bound' where
  opened_lt x hx := (h.opened_lt x hx).trans_le hle
  opened_order := h.opened_order
  ends_lt e he := (h.ends_lt e he).trans_le hle
  not_opened := h.not_opened
  no_return := h.no_return
  late := h.late

/-- Closings on a line that comes after all others keep the order, whatever is opened on it. All new
ends are that line, and so above every end that was there. -/
theorem append (h : ClosedInOrder opened closed bound) {line : Nat} (hline : bound ≤ line)
    {outer : List Nat} (houter : outer <:+ opened) (n : Nat) {more : List (Frame × Nat)}
    (hmore : ∀ e ∈ more, e.2 = line) :
    ClosedInOrder (List.replicate n line ++ outer) (closed ++ more) (line + 1) := by
  have hends : ∀ e ∈ closed.map Prod.snd, e < line := fun e he => (h.ends_lt e he).trans_le hline
  have hnew : ∀ e ∈ more.map Prod.snd, e = line := List.forall_mem_map.mpr hmore
  have hbelow : ∀ x ∈ outer, x < line := fun x hx =>
    (h.opened_lt x (houter.subset hx)).trans_le hline
  constructor
  case opened_lt =>
    intro x hx
    rcases List.mem_append.mp hx with hx | hx
    · rw [List.eq_of_mem_replicate hx]
      exact Nat.lt_succ_self line
    · exact Nat.lt_succ_of_lt (hbelow x hx)
  case opened_order =>
    refine List.pairwise_append.mpr ⟨?_, h.opened_order.sublist houter.sublist, ?_⟩
    · exact List.pairwise_replicate.mpr (.inr le_rfl)
    · intro x hx y hy
      rw [List.eq_of_mem_replicate hx]
      exact (hbelow y hy).le
  case ends_lt =>
    intro e he
    rw [List.map_append, List.mem_append] at he
    rcases he with he | he
    · exact Nat.lt_succ_of_lt (hends e he)
    · exact Nat.lt_succ_of_le (hnew e he).le
  case not_opened =>
    intro x y hlt hpair hmem
    rw [List.map_append] at hpair
    have hold := pair_sublist_of_append hlt hends hnew hpair
    rcases List.mem_append.mp hmem with hmem | hmem
    · exact (hends x (hold.subset (by simp))).ne (List.eq_of_mem_replicate hmem)
    · exact h.not_opened x y hlt hold (houter.subset hmem)
  case no_return =>
    intro x y hlt htriple
    rw [List.map_append] at htriple
    induction more using List.reverseRecOn with
    | nil => exact h.no_return x y hlt (by simpa using htriple)
    | append_singleton more e ih =>
      rw [List.map_append, List.map_singleton, ← List.append_assoc] at htriple
      rcases sublist_concat_cases [x, y] x htriple with htriple | ⟨rfl, hpair⟩
      · exact ih (fun e he => hmore e (by simp [he])) (fun e he => hnew e (by simp [he])) htriple
      · -- a closing of this line was there before it
        have hold := pair_sublist_of_append hlt hends (fun e he => hnew e (by simp [he])) hpair
        exact (hends _ (hold.subset (by simp))).ne (hmore e (by simp))
  case late =>
    refine List.pairwise_append.mpr ⟨h.late, ?_, fun e he next hnext => .inr ?_⟩
    · refine List.pairwise_of_forall_mem_list fun e he next hnext => .inr ?_
      rw [hmore e he, hmore next hnext]
    · rw [hmore next hnext]
      exact (hends e.2 (List.mem_map_of_mem he)).le

/-- The innermost frame is closed on its own line. The frames below it were opened on no later line,
and the line itself was not yet part of a descent, as its frame was open. -/
theorem expire {line : Nat} {frames : List Nat} (h : ClosedInOrder (line :: frames) closed bound)
    {more : List (Frame × Nat)} (hmore : more = [] ∨ ∃ closing, more = [closing] ∧
      IsLeft closing ∧ closing.2 = line) :
    ClosedInOrder frames (closed ++ more) bound := by
  obtain ⟨houtermost, hframes⟩ := List.pairwise_cons.mp h.opened_order
  rcases hmore with rfl | ⟨closing, rfl, hleft, rfl⟩
  · rw [List.append_nil]
    exact { h with
      opened_lt := fun x hx => h.opened_lt x (List.mem_cons_of_mem _ hx)
      opened_order := hframes
      not_opened := fun x y hlt hpair hmem =>
        h.not_opened x y hlt hpair (List.mem_cons_of_mem _ hmem) }
  constructor
  case opened_lt => exact fun x hx => h.opened_lt x (List.mem_cons_of_mem _ hx)
  case opened_order => exact hframes
  case ends_lt =>
    intro e he
    rw [List.map_append, List.mem_append, List.map_singleton, List.mem_singleton] at he
    rcases he with he | rfl
    · exact h.ends_lt e he
    · exact h.opened_lt _ List.mem_cons_self
  case not_opened =>
    intro x y hlt hpair hmem
    rw [List.map_append, List.map_singleton] at hpair
    rcases sublist_concat_cases [x] y hpair with hold | ⟨rfl, -⟩
    · exact h.not_opened x y hlt hold (List.mem_cons_of_mem _ hmem)
    · -- the frames below were opened on no later line
      exact absurd (houtermost x hmem) (Nat.not_le.mpr hlt)
  case no_return =>
    intro x y hlt htriple
    rw [List.map_append, List.map_singleton] at htriple
    rcases sublist_concat_cases [x, y] x htriple with hold | ⟨rfl, hpair⟩
    · exact h.no_return x y hlt hold
    · exact h.not_opened _ y hlt hpair List.mem_cons_self
  case late =>
    refine List.pairwise_append.mpr ⟨h.late, List.pairwise_singleton _ _, ?_⟩
    intro e _ next hnext
    rw [List.mem_singleton.mp hnext]
    exact .inl hleft

end ClosedInOrder

/-! ## 4. The closings of a document -/

/-- A line closes what its tokens close and then, on a line before it, what expires. Its statement
closes nothing. -/
theorem doBlocksClosedFrom_lineActions (c : Collector) {l : Line} {first : Token}
    {rest : List Token} (hscan : Token.scan l.code = first :: rest) :
    c.doBlocksClosedFrom (c.lineActions l) = c.doBlocksClosedFrom (c.nestActions l first rest) ++
      (c.afterTokens l).doBlocksClosedFrom ((c.afterTokens l).expiryActions l.index) := by
  simp only [lineActions, hscan]
  rw [doBlocksClosedFrom_append, frameActions_eq, doBlocksClosedFrom_append,
    performAll_nestActions c hscan,
    doBlocksClosedFrom_of_isQuiet _ fun a ha => isQuiet_of_mem_statementActions ha,
    List.append_nil]

/-- An expiry closes the innermost frame on its own line, and this counts as a closing if the frame
is that of a `do`. -/
theorem doBlocksClosedFrom_expiryActions (c : Collector) (line : Nat) :
    c.doBlocksClosedFrom (c.expiryActions line) = [] ∧ c.expireHeader line = c ∨
      ∃ frame frames, c.frames = frame :: frames ∧
        c.expireHeader line = c.closeFrame frame.openedAt ∧
        (c.doBlocksClosedFrom (c.expiryActions line) = [] ∨
          ∃ closing, c.doBlocksClosedFrom (c.expiryActions line) = [closing] ∧ IsLeft closing ∧
            closing.2 = frame.openedAt) := by
  rw [← performAll_expiryActions]
  unfold expiryActions
  cases hframes : c.frames with
  | nil => exact .inl ⟨rfl, rfl⟩
  | cons frame frames =>
    by_cases hlate : frame.awaitsBrace && frame.openedAt != line
    · simp only [hlate, if_true]
      refine .inr ⟨frame, frames, rfl, rfl, ?_⟩
      have hwaits : frame.awaitsBrace := (Bool.and_eq_true _ _ ▸ hlate).1
      by_cases hkind : frame.kind = .doBlock
      · refine .inr ⟨(frame, frame.openedAt), ?_, ⟨hwaits, rfl⟩, rfl⟩
        simp [doBlocksClosedFrom, doBlockClosed?, hframes, Option.filter, hkind]
      · left
        simp [doBlocksClosedFrom, doBlockClosed?, hframes, Option.filter, hkind]
    · simp only [hlate]
      exact .inl ⟨rfl, rfl⟩

/-- **A line keeps the order**, if it comes after all that was closed: first its tokens close on it,
and then at most one header expires. -/
theorem ClosedInOrder.readLine {c : Collector} {closed : List (Frame × Nat)} {bound : Nat}
    (h : ClosedInOrder c.openedLines closed bound) {l : Line} (hline : bound ≤ l.index)
    (hcode : l.isCode) :
    ClosedInOrder (c.readLine l).openedLines (closed ++ c.doBlocksClosedFrom (c.lineActions l))
      (l.index + 1) := by
  obtain ⟨first, rest, hscan⟩ := Line.exists_scan_of_isCode hcode
  obtain ⟨n, outer, houter, hopened⟩ := openedLines_afterTokens c l
  have htokens := h.append hline houter n
    (line_eq_of_mem_closed (steps_nestActions c l first rest))
  rw [← hopened] at htokens
  rw [openedLines_eq, waits_readLine c hcode, ← openedLines_eq, settled,
    doBlocksClosedFrom_lineActions c hscan, ← List.append_assoc]
  rcases doBlocksClosedFrom_expiryActions (c.afterTokens l) l.index with
    ⟨hnone, hkept⟩ | ⟨frame, frames, hframes, hexpired, hclosing⟩
  · rw [hnone, hkept, List.append_nil]
    exact htokens
  · rw [hexpired, openedLines_closeFrame]
    have hcons : (c.afterTokens l).openedLines = frame.openedAt :: frames.map Frame.openedAt := by
      simp [openedLines, hframes]
    rw [hcons] at htokens ⊢
    exact htokens.expire hclosing

/-- One more line closes what it closes in the state that the lines before it leave. -/
theorem doBlocksClosed_concat (lines : List Line) {l : Line} (hcode : l.isCode) :
    doBlocksClosed (lines ++ [l]) =
      doBlocksClosed lines ++ (readLines lines).doBlocksClosedFrom
        ((readLines lines).lineActions l) := by
  rw [doBlocksClosed, actions_append, doBlocksClosedFrom_append, performAll_actions]
  simp [hcode, actionsFrom, doBlocksClosed]

/-- **All lines keep the order**, one after the other. -/
theorem closedInOrder_readLines {lines : List Line}
    (hlines : lines.Pairwise fun k l => k.index < l.index) {bound : Nat}
    (hbound : ∀ l ∈ lines, l.index < bound) :
    ClosedInOrder (readLines lines).openedLines (doBlocksClosed lines) bound := by
  induction lines using List.reverseRecOn generalizing bound with
  | nil =>
    constructor <;>
      simp [readLines, openedLines, doBlocksClosed, doBlocksClosedFrom, actions, actionsFrom]
  | append_singleton lines l ih =>
    obtain ⟨hbefore, hlt⟩ := Line.index_lt_of_concat hlines
    have h := ih hbefore hlt
    have hl := hbound l (by simp)
    by_cases hcode : l.isCode
    · rw [readLines_concat lines hcode, doBlocksClosed_concat lines hcode]
      exact (h.readLine le_rfl hcode).mono hl
    · have hsame : (lines ++ [l]).filter Line.isCode = lines.filter Line.isCode := by simp [hcode]
      rw [readLines, doBlocksClosed, actions, hsame]
      exact h.mono hl.le

/-! ## 5. Clear headers -/

/-- The ends are in order, none comes after the line, and a header that waits comes after all of
them. The last part is what an expiry needs: its line is then no earlier than any end. -/
structure EndsInOrder (line : Nat) (c : Collector) : Prop where
  order : c.table.doBlockEnds.Pairwise (· ≤ ·)
  le_line : ∀ e ∈ c.table.doBlockEnds, e ≤ line
  le_waiting : ∀ f ∈ c.frames, f.awaitsBrace → ∀ e ∈ c.table.doBlockEnds, e ≤ f.openedAt

namespace EndsInOrder

variable {line : Nat} {c : Collector}

/-- The line may be a later one. -/
theorem mono (h : EndsInOrder line c) {line' : Nat} (hle : line ≤ line') :
    EndsInOrder line' c :=
  ⟨h.order, fun e he => (h.le_line e he).trans hle, h.le_waiting⟩

/-- An end that comes after all others keeps the order. Below the frame that is closed nothing
waits, so that nothing is asked of the frames that stay. -/
theorem closeFrame (h : EndsInOrder line c) {n : Nat}
    (hends : ∀ e ∈ c.table.doBlockEnds, e ≤ n) (hn : n ≤ line)
    (hidle : ∀ f ∈ c.frames.tail, f.awaitsBrace = false) :
    EndsInOrder line (c.perform (.closeFrame n)) := by
  have hnew : ∀ e ∈ (c.doBlockClosed? (.closeFrame n)).toList.map Prod.snd, e = n := by
    intro e he
    obtain ⟨closing, hclosing, rfl⟩ := List.mem_map.mp he
    rw [Option.mem_toList, doBlockClosed?, Option.map_eq_some_iff] at hclosing
    obtain ⟨_, -, rfl⟩ := hclosing
    rfl
  constructor
  · rw [doBlockEnds_perform]
    refine List.pairwise_append.mpr ⟨h.order, ?_, fun e he e' he' => hnew e' he' ▸ hends e he⟩
    exact List.pairwise_of_forall_mem_list fun e he e' he' => (hnew e he).trans (hnew e' he').symm
      |>.le
  · rw [doBlockEnds_perform]
    intro e he
    rcases List.mem_append.mp he with he | he
    · exact h.le_line e he
    · exact (hnew e he).trans_le hn
  · intro f hf hwaits
    rw [ReadyFor.idle_closeFrame hidle n f hf] at hwaits
    contradiction

/-- **Every step with clear headers keeps the order.** A closing brace closes on the line itself,
and the header that expires is the only one that waits, so all ends are at most its line. -/
theorem clearStep (h : EndsInOrder line c) {a : Action} (hstep : ClearStep line c a) :
    EndsInOrder line (c.perform a) := by
  -- what closes no frame adds no end
  have hsame (hnone : c.doBlockClosed? a = none)
      (hwaits : ∀ f ∈ (c.perform a).frames, f.awaitsBrace →
        ∀ e ∈ c.table.doBlockEnds, e ≤ f.openedAt) : EndsInOrder line (c.perform a) := by
    have hends : (c.perform a).table.doBlockEnds = c.table.doBlockEnds := by
      rw [doBlockEnds_perform, hnone, Option.toList_none, List.map_nil, List.append_nil]
    refine ⟨?_, ?_, ?_⟩ <;> rw [hends]
    · exact h.order
    · exact h.le_line
    · exact hwaits
  cases hstep with
  | header kind hidle =>
    refine hsame rfl fun f hf _ e he => ?_
    rcases List.mem_cons.mp hf with rfl | hf
    · exact h.le_line e he
    · exact h.le_waiting f hf ‹_› e he
  | block hidle =>
    refine hsame rfl fun f hf hwaits e he => ?_
    rcases List.mem_cons.mp hf with rfl | hf
    · contradiction
    · exact h.le_waiting f hf hwaits e he
  | brace frame frames hframes hwaits hidle =>
    refine hsame rfl fun f hf hf' e he => ?_
    simp only [perform, hframes] at hf
    rcases List.mem_cons.mp hf with rfl | hf
    · contradiction
    · rw [hidle f hf] at hf'
      contradiction
  | close hidle =>
    exact h.closeFrame h.le_line le_rfl fun f hf => hidle f (List.mem_of_mem_tail hf)
  | expire frame frames hframes hwaits hidle hlate =>
    exact h.closeFrame (h.le_waiting frame (by simp [hframes]) hwaits) hlate.le
      (by simpa [hframes] using hidle)
  | quiet a hquiet =>
    refine hsame (doBlockClosed?_of_isQuiet c hquiet) fun f hf hwaits => ?_
    obtain ⟨g, hg, hwaits', hopened⟩ :=
      exists_frame_of_waits (waits_perform_of_isQuiet c hquiet) hf
    rw [← hopened]
    exact h.le_waiting g hg (hwaits'.trans hwaits)

end EndsInOrder

/-- **With clear headers the ends are in order.** The steps of each line are clear, by
`readyFor_lines`. -/
theorem endsInOrder_lines {before after : List Line} (hclear : headersClear (before ++ after))
    (hlines : before.Pairwise fun k l => k.index < l.index) (hcode : ∀ l ∈ before, l.isCode)
    {line : Nat} (hline : ∀ l ∈ before, l.index ≤ line) :
    EndsInOrder line (before.foldl readLine {}) := by
  induction before using List.reverseRecOn generalizing after line with
  | nil => constructor <;> simp
  | append_singleton before l ih =>
    obtain ⟨hbefore, hlt⟩ := Line.index_lt_of_concat hlines
    rw [List.append_assoc] at hclear
    have hcode' : ∀ k ∈ before, k.isCode := fun k hk => hcode k (by simp [hk])
    have hready := readyFor_lines hclear hbefore hcode' hlt (nextMarks after)
    have hsteps := (hready.reads_lineActions (hcode l (by simp))
      (clearOnLine_of_headersClear hclear)).steps
    have h := ih hclear hbefore hcode' fun k hk => (hlt k hk).le
    rw [List.foldl_append, List.foldl_cons, List.foldl_nil, ← performAll_lineActions]
    exact (hsteps.keeps (fun _ _ hc hstep => hc.clearStep hstep) h).mono (hline l (by simp))

end Collector

/-! ## 6. The search -/

namespace Symbol.Table

open Collector

theorem doBlockEnds_ofText (t : Text) :
    (ofText t).doBlockEnds = (doBlocksClosed (Line.ofText t)).map Prod.snd :=
  doBlockEnds_readLines (Line.ofText t)

/-- The closings of a document are in order in the weak sense of `ClosedInOrder`, with clear headers
or without. -/
theorem closedInOrder_ofText (t : Text) :
    ∃ bound, ClosedInOrder (readLines (Line.ofText t)).openedLines
      (doBlocksClosed (Line.ofText t)) bound :=
  ⟨_, closedInOrder_readLines (Line.index_lt_ofText t) fun _ => Line.index_lt_length⟩

/-- **The ends are out of order only by a `do` without a brace.** Every other closing is on a line
that comes after all ends so far. -/
theorem pairwise_doBlockEnds_iff (t : Text) :
    (ofText t).doBlockEnds.Pairwise (· ≤ ·) ↔
      (doBlocksClosed (Line.ofText t)).Pairwise fun e next => IsLeft next → e.2 ≤ next.2 := by
  obtain ⟨bound, horder⟩ := closedInOrder_ofText t
  rw [doBlockEnds_ofText, List.pairwise_map]
  constructor
  · intro h
    refine h.imp ?_
    intro e next hle _
    exact hle
  · intro h
    refine (horder.late.and h).imp ?_
    rintro e next ⟨hleft | hle, h⟩
    · exact h hleft
    · exact hle

/-- **The search is exact if and only if the ends are in order.** One direction is what halving does
on an ordered list; the other needs that a line which came before a smaller one does not come back.
-/
theorem endsDoBlockOn_iff_mem_iff (t : Text) :
    (∀ n, (ofText t).endsDoBlockOn n ↔ n ∈ (ofText t).doBlockEnds) ↔
      (ofText t).doBlockEnds.Pairwise (· ≤ ·) := by
  obtain ⟨bound, horder⟩ := closedInOrder_ofText t
  constructor
  · intro h
    refine pairwise_of_halvingContains ?_ fun n hn => (h n).mpr hn
    rw [doBlockEnds_ofText]
    exact horder.no_return
  · exact fun h n => ⟨mem_of_halvingContains, halvingContains_of_mem h⟩

/-- With clear headers the ends of a document are in order. -/
theorem pairwise_doBlockEnds_of_headersClear {t : Text}
    (h : headersClear ((Line.ofText t).filter Line.isCode)) :
    (ofText t).doBlockEnds.Pairwise (· ≤ ·) := by
  rw [← List.append_nil ((Line.ofText t).filter Line.isCode)] at h
  obtain ⟨hlines, hcode⟩ := Line.codeLines_ofText t
  exact (endsInOrder_lines h hlines (fun l hl => (hcode l hl).1) fun l hl => (hcode l hl).2).order

/-- **The search for the ends of `do` blocks.** The table takes down where each `do` block is
closed, and what the search finds is the end of one. It finds them all if and only if they are in
order. Out of order they come only by a `do` that got no brace: it is closed on its own line, after
blocks that are closed further down. With clear headers they are in order. -/
theorem endsDoBlockOn_exact_iff_in_order (t : Text) :
    (ofText t).doBlockEnds = (doBlocksClosed (Line.ofText t)).map Prod.snd ∧
    (∀ n, (ofText t).endsDoBlockOn n → ∃ frame, (frame, n) ∈ doBlocksClosed (Line.ofText t)) ∧
    ((∀ n, (ofText t).endsDoBlockOn n ↔ ∃ frame, (frame, n) ∈ doBlocksClosed (Line.ofText t)) ↔
      (ofText t).doBlockEnds.Pairwise (· ≤ ·)) ∧
    ((ofText t).doBlockEnds.Pairwise (· ≤ ·) ↔
      (doBlocksClosed (Line.ofText t)).Pairwise fun e next => IsLeft next → e.2 ≤ next.2) ∧
    (headersClear ((Line.ofText t).filter Line.isCode) →
      (ofText t).doBlockEnds.Pairwise (· ≤ ·)) := by
  have hmem (n : Nat) : n ∈ (ofText t).doBlockEnds ↔
      ∃ frame, (frame, n) ∈ doBlocksClosed (Line.ofText t) := by
    simp [doBlockEnds_ofText]
  refine ⟨doBlockEnds_ofText t, fun n hn => (hmem n).mp (mem_of_halvingContains hn), ?_,
    pairwise_doBlockEnds_iff t, pairwise_doBlockEnds_of_headersClear⟩
  simp only [← hmem]
  exact endsDoBlockOn_iff_mem_iff t

/-- A `do` without a brace above one that has its own. -/
def doAboveDo : Text :=
  "do\ndo \x7b\n\x7d while (x) y;".toList

/-- The inner block is closed on line 2, and then the `do` above it on its own line. The search does
not find the end of the inner block. -/
theorem endsDoBlockOn_doAboveDo :
    (ofText doAboveDo).doBlockEnds = [2, 0] ∧
    (∃ frame, (frame, 2) ∈ doBlocksClosed (Line.ofText doAboveDo)) ∧
    (ofText doAboveDo).endsDoBlockOn 2 = false :=
  ⟨by decide +kernel, ⟨⟨.doBlock, 1, [], false⟩, by decide +kernel⟩, by decide +kernel⟩

end Symbol.Table

end MacroScript
