import MacroScript.Proofs.Symbol.Clear
import MacroScript.Proofs.Symbol.Growth

/-!
# Headers that expire

At the end of each code line, before its statement is read, a header of an earlier line that still
waits for its brace is closed on its own line. Only the innermost frame is looked at, and once: **a
header that waits below another frame is left waiting** (`waits_own_iff`).

A symbol may then come into the frame of a header that is long past. Its scope starts where it is
declared, and ends on the line of the header if that expires in the end. All other scopes end no
earlier than they start (`InTime`), and with clear headers all of them do.
-/
namespace MacroScript

namespace Collector

/-! ## 1. What the expiry leaves -/

/-- The headers that wait after a line are those of that line if and only if this is so below the
innermost frame before the expiry. The expiry looks at the innermost frame only, so what it cannot
see decides. -/
theorem waits_own_iff (c : Collector) {l : Line} (hcode : l.isCode) :
    (∀ f ∈ (c.readLine l).frames, f.awaitsBrace → f.openedAt = l.index) ↔
      ∀ f ∈ (c.afterTokens l).frames.tail, f.awaitsBrace → f.openedAt = l.index := by
  have hsettled : (∀ f ∈ (c.readLine l).frames, f.awaitsBrace → f.openedAt = l.index) ↔
      ∀ f ∈ (c.settled l).frames, f.awaitsBrace → f.openedAt = l.index := by
    have hwaits := waits_readLine c hcode
    constructor <;> intro h f hf hf'
    · obtain ⟨g, hg, hg', hopened⟩ := exists_frame_of_waits hwaits.symm hf
      exact hopened ▸ h g hg (hg'.trans hf')
    · obtain ⟨g, hg, hg', hopened⟩ := exists_frame_of_waits hwaits hf
      exact hopened ▸ h g hg (hg'.trans hf')
  rw [hsettled, settled]
  rcases expireHeader_cases (c.afterTokens l) l.index with
    ⟨hkept, hown⟩ | ⟨frame, frames, hframes, -, -, hclosed⟩
  · -- the innermost frame does not wait, or is of this line
    rw [hkept]
    cases hframes : (c.afterTokens l).frames with
    | nil => simp
    | cons frame frames =>
      rw [List.forall_mem_cons, List.tail_cons]
      exact and_iff_right (hown frame (by simp [hframes]))
  · rw [hclosed, closeFrame, hframes]
    rfl

/-! ## 2. Scopes that end in time -/

/-- A symbol that a frame holds was there before the action, or is the one that it puts in. The
frame itself was there as well, opened on the same line, and it waited if it still waits. -/
theorem perform_pending (c : Collector) (a : Action) {f' : Frame} (hf' : f' ∈ (c.perform a).frames)
    {i : Nat} (hi : i ∈ f'.pending) :
    ∃ f ∈ c.frames, f.openedAt = f'.openedAt ∧ (f'.awaitsBrace → f.awaitsBrace) ∧
      (i ∈ f.pending ∨ ∃ frames name value tag origin line, c.frames = f :: frames ∧
        a = .insert name value tag origin line ∧ i = c.table.symbols.length) := by
  -- most actions leave the frames that stay as they are
  have hsame (h : f' ∈ c.frames) : ∃ f ∈ c.frames, f.openedAt = f'.openedAt ∧
      (f'.awaitsBrace → f.awaitsBrace) ∧
      (i ∈ f.pending ∨ ∃ frames name value tag origin line, c.frames = f :: frames ∧
        a = .insert name value tag origin line ∧ i = c.table.symbols.length) :=
    ⟨f', h, rfl, id, .inl hi⟩
  cases a with
  | openFrame kind line awaits =>
    rcases List.mem_cons.mp hf' with rfl | hf'
    · simp at hi
    · exact hsame hf'
  | closeFrame line =>
    refine hsame ?_
    unfold perform closeFrame at hf'
    cases hframes : c.frames with
    | nil => simp [hframes] at hf'
    | cons frame frames => exact List.mem_cons_of_mem _ (by simpa [hframes] using hf')
  | takeBrace =>
    unfold perform at hf'
    cases hframes : c.frames with
    | nil => simp [hframes] at hf'
    | cons frame frames =>
      simp only [hframes] at hf'
      rcases List.mem_cons.mp hf' with rfl | hmem
      · exact ⟨frame, by simp, rfl, by simp, .inl hi⟩
      · exact hframes ▸ hsame (hframes ▸ List.mem_cons_of_mem _ hmem)
  | register kind name =>
    refine hsame ?_
    simp only [perform, registerHeader] at hf'
    split at hf'
    · exact hf'
    · split at hf' <;> exact hf'
  | insert name value tag origin line =>
    unfold perform insert at hf'
    cases hframes : c.frames with
    | nil => simp [hframes] at hf'
    | cons frame frames =>
      simp only [hframes] at hf'
      rcases List.mem_cons.mp hf' with rfl | hmem
      · refine ⟨frame, by simp, rfl, id, ?_⟩
        rcases List.mem_append.mp hi with hi | hi
        · exact .inl hi
        · exact .inr ⟨frames, name, value, tag, origin, line, rfl, rfl, List.mem_singleton.mp hi⟩
      · exact hframes ▸ hsame (hframes ▸ List.mem_cons_of_mem _ hmem)
  | retag id tag line => exact hsame hf'
  | assign id entry => exact hsame hf'

/-- No action changes where a scope starts: closing a frame sets the end of a scope and nothing
else. -/
theorem Action.exists_of_change_scope {a : Action} {frames : List Frame} {i : Nat} {s : Symbol}
    {start : Nat} {stop : Option Nat} (h : (a.change frames i s).scope = .block start stop) :
    ∃ stop', s.scope = .block start stop' := by
  rcases a.change_scope frames i s with hsame | ⟨line, _, _, -, -, -, hclosed⟩
  · exact ⟨stop, hsame ▸ h⟩
  · rw [hclosed] at h
    cases hscope : s.scope with
    | global => simp [hscope, Scope.closeAt] at h
    | block start' stop' =>
      rw [hscope, Scope.closeAt, Scope.block.injEq] at h
      exact ⟨stop', by rw [h.1]⟩

/-- The symbols start by the line `bound`, and those that a waiting header holds by the line of the
header, but for those that are `left` behind. A scope that has an end starts by it, with the same
exceptions. The first part is what makes the second survive the closing of a frame. -/
structure InTime (left : Nat → Nat → Nat → Prop) (bound : Nat) (c : Collector) : Prop where
  pending : ∀ f ∈ c.frames, ∀ i ∈ f.pending, ∀ s start stop, c.table.symbols[i]? = some s →
    s.scope = .block start stop →
      start ≤ bound ∧ (f.awaitsBrace → start ≤ f.openedAt ∨ left i start f.openedAt)
  closed : ∀ i s start stop, c.table.symbols[i]? = some s → s.scope = .block start (some stop) →
    start ≤ stop ∨ left i start stop

namespace InTime

variable {left : Nat → Nat → Nat → Prop} {bound : Nat} {c : Collector}

/-- A later bound and more exceptions ask for less. -/
theorem mono {left' : Nat → Nat → Nat → Prop} {bound' : Nat} (h : InTime left bound c)
    (hleft : ∀ i start stop, left i start stop → left' i start stop) (hbound : bound ≤ bound') :
    InTime left' bound' c where
  pending f hf i hi s start stop hs hscope := by
    obtain ⟨hle, hwaits⟩ := h.pending f hf i hi s start stop hs hscope
    exact ⟨hle.trans hbound, fun hf' => (hwaits hf').imp_right (hleft _ _ _)⟩
  closed i s start stop hs hscope := (h.closed i s start stop hs hscope).imp_right (hleft _ _ _)

/-- **An action keeps the scopes in time**, if it closes on the last line or closes a waiting header
on its own, and puts no symbol into a header that is past. The two hypotheses are what a step of a
line has to meet, and each kind of step meets them below. -/
theorem perform (h : InTime left bound c) (hwell : c.WellFormed) (a : Action)
    (hclose : ∀ line frame frames, a = .closeFrame line → c.frames = frame :: frames →
      line = bound ∨ frame.awaitsBrace ∧ line = frame.openedAt)
    (hinsert : ∀ name value tag origin line frame frames, a = .insert name value tag origin line →
      c.frames = frame :: frames → line = bound ∧
        (frame.awaitsBrace → line ≤ frame.openedAt ∨
          left c.table.symbols.length line frame.openedAt)) :
    InTime left bound (c.perform a) := by
  constructor
  · intro f' hf' i hi s' start stop hs' hscope
    obtain ⟨f, hf, hopened, hwaits, hcases⟩ := perform_pending c a hf' hi
    rcases hcases with hi | ⟨frames, name, value, tag, origin, line, hframes, rfl, rfl⟩
    · -- the symbol was there, and starts where it did
      obtain ⟨s, hs, -⟩ := hwell.exists_of_mem_pendingIds (mem_pendingIds.mpr ⟨f, hf, hi⟩)
      rw [perform_symbol c a hs, Option.some.injEq] at hs'
      obtain ⟨stop', hscope'⟩ := Action.exists_of_change_scope (hs' ▸ hscope)
      obtain ⟨hle, hlate⟩ := h.pending f hf i hi s start stop' hs hscope'
      exact ⟨hle, fun hf' => hopened ▸ hlate (hwaits hf')⟩
    · -- the symbol is the new one, and its scope starts on the line of the action
      rw [Collector.perform, insert_table, List.getElem?_concat_length, Option.some.injEq] at hs'
      subst hs'
      obtain ⟨rfl, -⟩ : line = start ∧ none = stop := by simpa [newSymbol, hframes] using hscope
      obtain ⟨hle, hlate⟩ := hinsert name value tag origin line f frames rfl hframes
      exact ⟨hle.le, fun hf' => hopened ▸ hlate (hwaits hf')⟩
  · intro i s' start stop hs' hscope
    rcases Nat.lt_or_ge i c.table.symbols.length with hlt | hge
    · have hs := List.getElem?_eq_getElem hlt
      rw [perform_symbol c a hs, Option.some.injEq] at hs'
      subst hs'
      rcases a.change_scope c.frames i c.table.symbols[i] with
        hsame | ⟨line, frame, frames, rfl, hframes, hmem, hclosed⟩
      · exact h.closed i _ start stop hs (hsame ▸ hscope)
      · -- the innermost frame is closed, and with it the scope
        rw [hscope] at hclosed
        obtain ⟨stop', hscope'⟩ := Action.exists_of_change_scope hscope
        obtain ⟨hle, hlate⟩ := h.pending frame (by simp [hframes]) i hmem _ start stop' hs hscope'
        rw [hscope', Scope.closeAt, Scope.block.injEq, Option.some.injEq] at hclosed
        rcases hclose line frame frames rfl hframes with hline | ⟨hwaits, hline⟩
        · exact .inl (by omega)
        · rw [hclosed.2, hline]
          exact hlate hwaits
    · -- a new symbol has no end yet
      obtain ⟨_, _, _, _, _, -, -, rfl⟩ := perform_newSymbol hge hs'
      simp only [newSymbol] at hscope
      split at hscope <;> simp at hscope

/-- A step that a token of the last line makes keeps the scopes in time. It closes on that line, and
the symbols that it puts in are parameters, which go into the frame that their own line opened. -/
theorem tokenStep (h : InTime left bound c) (hwell : c.WellFormed) {a : Action}
    (hstep : TokenStep bound c a) : InTime left bound (c.perform a) := by
  refine h.perform hwell a ?_ ?_
  · rintro line frame frames rfl -
    cases hstep
    exact .inl rfl
  · rintro name value tag origin line frame frames rfl hframes
    cases hstep with
    | parameter _ frame' frames' hframes' hopened =>
      obtain ⟨rfl, -⟩ := List.cons.inj (hframes.symm.trans hframes')
      exact ⟨rfl, fun _ => .inl hopened.ge⟩

/-- The expiry keeps the scopes in time. It closes a header that waits on the header's own line, and
what such a header holds starts by that line or is left behind. -/
theorem expireHeader (h : InTime left bound c) (hwell : c.WellFormed) (line : Nat) :
    InTime left bound (c.expireHeader line) := by
  rcases expireHeader_cases c line with ⟨hkept, -⟩ | ⟨frame, frames, hframes, hwaits, -, hclosed⟩
  · rw [hkept]
    exact h
  · rw [hclosed]
    refine h.perform hwell (.closeFrame frame.openedAt) ?_ (by simp)
    rintro line frame' frames' hline hframes'
    obtain ⟨rfl, -⟩ := List.cons.inj (hframes.symm.trans hframes')
    exact .inr ⟨hwaits, (Action.closeFrame.inj hline).symm⟩

/-- The statement of the last line keeps the scopes in time, if what it puts into a header that
waits is left behind. It is the only step that can put a symbol into a header of an earlier line. -/
theorem readStatement {l : Line} (h : InTime left l.index c) (hwell : c.WellFormed)
    (first : Token) (tokens : List Token)
    (hleft : ∀ f ∈ (c.readStatement l first tokens).frames, ∀ i ∈ f.pending, f.awaitsBrace →
      left i l.index f.openedAt) :
    InTime left l.index (c.readStatement l first tokens) := by
  rw [← performAll_statementActions] at hleft ⊢
  rcases statementActions_cases c l first tokens with hnil | ⟨a, hone, ha⟩
  · rw [hnil]
    exact h
  · rw [hone] at hleft ⊢
    refine h.perform hwell a ?_ ?_
    · rintro line frame frames rfl -
      cases ha
    · rintro name value tag origin line frame frames rfl hframes
      cases ha
      refine ⟨rfl, fun hwaits => .inr ?_⟩
      refine hleft { frame with pending := frame.pending ++ [c.table.symbols.length] } ?_ _
        (by simp) hwaits
      simp [performAll, Collector.perform, insert, hframes]

/-- **A line keeps the scopes in time**, but for what it leaves behind in a header that waits. Its
tokens, the expiry and its statement each do. -/
theorem readLine {l : Line} (h : InTime left l.index c) (hwell : c.WellFormed) (hcode : l.isCode)
    (hleft : ∀ f ∈ (c.readLine l).frames, ∀ i ∈ f.pending, f.awaitsBrace →
      left i l.index f.openedAt) :
    InTime left l.index (c.readLine l) := by
  obtain ⟨first, rest, hscan⟩ := Line.exists_scan_of_isCode hcode
  have htokens : (c.afterTokens l).WellFormed ∧ InTime left l.index (c.afterTokens l) :=
    steps_afterTokens (P := fun c => c.WellFormed ∧ InTime left l.index c)
      (fun c a hc hstep => ⟨hc.1.perform a, hc.2.tokenStep hc.1 hstep⟩) ⟨hwell, h⟩
  have hsettled : (c.settled l).WellFormed := by
    rw [settled, ← performAll_expiryActions]
    exact htokens.1.performAll _
  rw [readLine_eq c hscan] at hleft ⊢
  exact (htokens.2.expireHeader htokens.1 l.index).readStatement hsettled first _ hleft

end InTime

/-- On the line `start` the symbol was put into the frame of a header on the line `stop`, which was
still waiting for its brace. This is the one way in which a scope can end before it starts. -/
def LeftWaiting (ls : List Line) (i start stop : Nat) : Prop :=
  ∃ before l after f, ls = before ++ l :: after ∧ l.index = start ∧
    f ∈ (readLines (before ++ [l])).frames ∧ i ∈ f.pending ∧ f.awaitsBrace ∧ f.openedAt = stop

/-- What was left waiting in the first lines of a document was left waiting in the whole. -/
theorem LeftWaiting.append {ls : List Line} {i start stop : Nat} (h : LeftWaiting ls i start stop)
    (more : List Line) : LeftWaiting (ls ++ more) i start stop := by
  obtain ⟨before, l, after, f, rfl, h⟩ := h
  exact ⟨before, l, after ++ more, f, by simp, h⟩

/-- **Scopes end no earlier than they start**, but for the symbols that were left waiting. The
induction takes lines off the end: the bound is then the index of the line that is read last. -/
theorem inTime_lines {ls : List Line} (hlines : ls.Pairwise fun k l => k.index < l.index)
    (hcode : ∀ l ∈ ls, l.isCode) {bound : Nat} (hbound : ∀ l ∈ ls, l.index ≤ bound) :
    InTime (LeftWaiting ls) bound (readLines ls) := by
  induction ls using List.reverseRecOn generalizing bound with
  | nil => constructor <;> simp [readLines]
  | append_singleton ls l ih =>
    obtain ⟨hbefore, hlt⟩ := Line.index_lt_of_concat hlines
    have hl := hcode l (by simp)
    have h := (ih hbefore (fun k hk => hcode k (by simp [hk])) fun k hk => (hlt k hk).le).mono
      (fun i start stop hleft => hleft.append [l]) le_rfl
    rw [readLines_concat ls hl]
    refine (h.readLine (wellFormed_readLines ls) hl ?_).mono (fun _ _ _ => id)
      (hbound l (by simp))
    intro f hf i hi hwaits
    rw [← readLines_concat ls hl] at hf
    exact ⟨ls, l, [], f, rfl, rfl, hf, hi, hwaits, rfl⟩

/-! ## 3. A header and the line after it -/

/-- A token after the first does what its mark says, and nothing if it has none. -/
theorem readToken_eq (line : Nat) (c : Collector) (t : Token) :
    readToken line c t =
      c.performAll ((tokenMark? line t).toList.map (c.markAction .doBlock)) := by
  rw [← performAll_tokenActions, tokenActions_eq]

/-- Tokens without marks leave the reader as it is. -/
theorem foldl_readToken_of_unmarked {line : Nat} {ts : List Token} (c : Collector)
    (h : ∀ t ∈ ts, tokenMark? line t = none) : ts.foldl (readToken line) c = c := by
  induction ts with
  | nil => rfl
  | cons t ts ih =>
    rw [List.foldl_cons, readToken_eq, h t List.mem_cons_self]
    exact ih fun t ht => h t (List.mem_cons_of_mem _ ht)

/-- A line without marks leaves the frames to the expiry. Such a line has no header as its first
token either, since that would be a mark. -/
theorem afterTokens_of_unmarked (c : Collector) {l : Line} (h : lineMarks l = []) :
    c.afterTokens l = c := by
  unfold lineMarks at h
  unfold afterTokens
  cases hscan : Token.scan l.code with
  | nil => rfl
  | cons first rest =>
    rw [hscan] at h
    obtain ⟨hfirst, hrest⟩ := List.append_eq_nil_iff.mp h
    rw [Option.toList_eq_nil_iff, firstMark?] at hfirst
    have hheader : ¬(first.isWord "fun" || first.isWord "class") := by
      intro hheader
      simp [hheader] at hfirst
    rw [if_neg hheader] at hfirst
    have hread : c.readFirst l first (first :: rest) = c := by
      rw [readFirst, if_neg hheader, readToken_eq, hfirst]
      rfl
    simp only [hread]
    exact foldl_readToken_of_unmarked c (List.filterMap_eq_nil_iff.mp hrest)

/-- If the last mark is a header, its frame is the innermost one and waits: the tokens after it have
no mark and change nothing. -/
theorem head_waits_foldl {line n : Nat} {ts : List Token} (c : Collector)
    (h : (ts.filterMap (tokenMark? line)).getLast? = some (.header n)) :
    (ts.foldl (readToken line) c).waits.head? = some (true, line) := by
  induction ts using List.reverseRecOn with
  | nil => simp at h
  | append_singleton ts t ih =>
    rw [List.filterMap_append, List.getLast?_append] at h
    rw [List.foldl_append, List.foldl_cons, List.foldl_nil, readToken_eq]
    cases hmark : tokenMark? line t with
    | none =>
      simp only [List.filterMap_cons, hmark] at h
      exact ih h
    | some mark =>
      have hline := line_of_tokenMark? hmark
      obtain rfl : mark = .header n := by simpa [hmark] using h
      simp only [BraceMark.line] at hline
      subst hline
      rfl

/-- The same for a whole line, on which the last header may be the first token: then it is a `fun`
or a `class`, and what it does besides opening its frame is quiet. -/
theorem head_waits_afterTokens (c : Collector) {l : Line} {n : Nat}
    (h : (lineMarks l).getLast? = some (.header n)) :
    (c.afterTokens l).waits.head? = some (true, l.index) := by
  unfold lineMarks at h
  unfold afterTokens
  cases hscan : Token.scan l.code with
  | nil => simp [hscan] at h
  | cons first rest =>
    simp only [hscan, List.getLast?_append] at h ⊢
    cases hrest : (rest.filterMap (tokenMark? l.index)).getLast? with
    | some mark =>
      rw [hrest, Option.some_or, Option.some.injEq] at h
      exact head_waits_foldl _ (h ▸ hrest)
    | none =>
      -- the header is the first token of the line
      rw [hrest, Option.none_or] at h
      have hfirst : firstMark? l.index first = some (.header n) := by
        cases hmark : firstMark? l.index first <;> simp_all
      have hline := line_of_firstMark? hfirst
      simp only [BraceMark.line] at hline
      subst hline
      rw [foldl_readToken_of_unmarked _
        (List.filterMap_eq_nil_iff.mp (List.getLast?_eq_none_iff.mp hrest)),
        ← performAll_firstActions]
      obtain ⟨kind, quiet, hactions, hquiet⟩ := firstActions_eq c l first (first :: rest)
      rw [hactions, hfirst, performAll_append, waits_performAll_of_isQuiet _ hquiet]
      rfl

/-- A header that is the last mark of its line waits after it. The expiry spares it since it is of
this line, and the statement does not change which frames wait. -/
theorem exists_waiting_readLine (c : Collector) {l : Line} (hcode : l.isCode) {n : Nat}
    (h : (lineMarks l).getLast? = some (.header n)) :
    ∃ f frames, (c.readLine l).frames = f :: frames ∧ f.awaitsBrace ∧ f.openedAt = l.index := by
  have htokens := head_waits_afterTokens c h
  have hkept : (c.settled l).waits.head? = some (true, l.index) := by
    rw [settled]
    rcases expireHeader_cases (c.afterTokens l) l.index with
      ⟨hkept, -⟩ | ⟨frame, frames, hframes, -, hne, -⟩
    · rw [hkept]
      exact htokens
    · simp only [waits, hframes, List.map_cons, List.head?_cons, Option.some.injEq,
        Prod.mk.injEq] at htokens
      exact absurd htokens.2 hne
  rw [← waits_readLine c hcode, waits, List.head?_map, Option.map_eq_some_iff] at hkept
  obtain ⟨f, hf, heq⟩ := hkept
  obtain ⟨frames, hframes⟩ := List.head?_eq_some_iff.mp hf
  exact ⟨f, frames, hframes, (Prod.mk.inj heq).1, (Prod.mk.inj heq).2⟩

/-- On a line without marks a header of an earlier line is closed on its own. This is how a header
that gets no brace ends: by the first line after it that has no mark. -/
theorem settled_of_unmarked (c : Collector) {l : Line} (h : lineMarks l = []) {frame : Frame}
    {frames : List Frame} (hframes : c.frames = frame :: frames) (hwaits : frame.awaitsBrace)
    (hne : frame.openedAt ≠ l.index) : c.settled l = c.closeFrame frame.openedAt := by
  rw [settled, afterTokens_of_unmarked c h, expireHeader, hframes]
  simp [hwaits, hne]

/-! ## 4. Documents -/

/-- Lines that are all code are read one after the other, with none skipped. -/
theorem readLines_eq_foldl {ls : List Line} (h : ∀ l ∈ ls, l.isCode) :
    readLines ls = ls.foldl readLine {} := by
  rw [readLines, List.filter_eq_self.mpr h]

/-- **With clear headers no header is left waiting**: the ones that wait after a line are of that
line. -/
theorem waits_own_of_headersClear {before after : List Line} {l : Line}
    (hclear : headersClear (before ++ l :: after))
    (hlines : (before ++ [l]).Pairwise fun k l => k.index < l.index)
    (hcode : ∀ k ∈ before ++ [l], k.isCode) :
    ∀ f ∈ (readLines (before ++ [l])).frames, f.awaitsBrace → f.openedAt = l.index := by
  obtain ⟨hbefore, hlt⟩ := Line.index_lt_of_concat hlines
  have hcode' : ∀ k ∈ before, k.isCode := fun k hk => hcode k (by simp [hk])
  have hready := readyFor_lines hclear hbefore hcode' hlt (nextMarks after)
  rw [readLines_concat before (hcode l (by simp)), readLines_eq_foldl hcode']
  exact hready.openedAt_readLine (hcode l (by simp)) (clearOnLine_of_headersClear hclear)

end Collector

open Collector in
/-- **Headers without a brace**, in every document. After a code line no header of an earlier line
waits if and only if none of those below the innermost frame did when its tokens were read. A header
with no mark after it, on its own line or the next code line, is closed on its own line before that
next line declares anything. A scope that has an end starts by it, unless the symbol was put into
the frame of an earlier header that had been left waiting. With clear headers none is left waiting,
so that every scope that has an end starts by it. -/
theorem Symbol.Table.headers_left_waiting (t : Text) :
    (∀ before l after, (Line.ofText t).filter Line.isCode = before ++ l :: after →
      ((∀ f ∈ (readLines (before ++ [l])).frames, f.awaitsBrace → f.openedAt = l.index) ↔
        ∀ f ∈ ((readLines before).afterTokens l).frames.tail, f.awaitsBrace →
          f.openedAt = l.index)) ∧
    (∀ before k l after n, (Line.ofText t).filter Line.isCode = before ++ k :: l :: after →
      (lineMarks k).getLast? = some (.header n) → lineMarks l = [] →
      ∃ f frames, (readLines (before ++ [k])).frames = f :: frames ∧ f.awaitsBrace ∧
        f.openedAt = k.index ∧
        (readLines (before ++ [k])).settled l = (readLines (before ++ [k])).closeFrame k.index) ∧
    (∀ (i : Nat) (s : Symbol) (start stop : Nat), (ofText t).symbols[i]? = some s →
      s.scope = .block start (some stop) →
      start ≤ stop ∨ LeftWaiting ((Line.ofText t).filter Line.isCode) i start stop) ∧
    (headersClear ((Line.ofText t).filter Line.isCode) →
      (∀ before l after, (Line.ofText t).filter Line.isCode = before ++ l :: after →
        ∀ f ∈ (readLines (before ++ [l])).frames, f.awaitsBrace → f.openedAt = l.index) ∧
      ∀ (i : Nat) (s : Symbol) (start stop : Nat), (ofText t).symbols[i]? = some s →
        s.scope = .block start (some stop) → start ≤ stop) := by
  obtain ⟨hlines, hlast⟩ := Line.codeLines_ofText t
  have hcode : ∀ l ∈ (Line.ofText t).filter Line.isCode, l.isCode := fun l hl => (hlast l hl).1
  have htable : ofText t = (readLines ((Line.ofText t).filter Line.isCode)).table := by
    rw [readLines_eq_foldl hcode]
    rfl
  rw [htable]
  -- all that is used of the document is that its code lines are in order, and are code
  generalize (Line.ofText t).filter Line.isCode = ls at hlines hcode hlast
  have hstart := (inTime_lines hlines hcode fun l hl => (hlast l hl).2).closed
  -- with clear headers the frames that wait after a line are of that line
  have hown (hclear : headersClear ls) (before : List Line) (l : Line) (after : List Line)
      (hls : ls = before ++ l :: after) :
      ∀ f ∈ (readLines (before ++ [l])).frames, f.awaitsBrace → f.openedAt = l.index := by
    subst hls
    have hfront : before ++ [l] <+: before ++ l :: after := ⟨after, by simp⟩
    exact waits_own_of_headersClear hclear (hlines.sublist hfront.sublist) fun k hk =>
      hcode k (hfront.subset hk)
  refine ⟨?_, ?_, hstart, fun hclear => ⟨hown hclear, ?_⟩⟩
  · rintro before l after rfl
    rw [readLines_concat before (hcode l (by simp))]
    exact waits_own_iff _ (hcode l (by simp))
  · rintro before k l after n rfl hheader hunmarked
    rw [readLines_concat before (hcode k (by simp))]
    obtain ⟨f, frames, hframes, hwaits, hopened⟩ :=
      exists_waiting_readLine (readLines before) (hcode k (by simp)) hheader
    -- the header is of an earlier line, so that the line without marks closes it
    have hlt : k.index < l.index :=
      List.rel_of_pairwise_cons (List.pairwise_append.mp hlines).2.1 (by simp)
    have hclosed := settled_of_unmarked _ hunmarked hframes hwaits (by omega)
    rw [hopened] at hclosed
    exact ⟨f, frames, hframes, hwaits, hopened, hclosed⟩
  · intro i s start stop hs hscope
    rcases hstart i s start stop hs hscope with hle | hleft
    · exact hle
    · -- a header that was left waiting is of its own line by now, and that is not before the start
      obtain ⟨before, l, after, f, hls, rfl, hf, -, hf', rfl⟩ := hleft
      exact (hown hclear before l after hls f hf hf').ge

/-- Two headers without a brace, one right after the other. -/
def headersInARow : Text :=
  "fun f(a)\nfun g(b)\nvar x = 1;\nprint(x);".toList

/-- After the second line the first header still waits, and so it does after the third. What that
declares starts on line 2 and ends on line 0. -/
theorem headersInARow_left_waiting :
    ((Collector.readLines ((Line.ofText headersInARow).take 2)).frames.map
      fun f => (f.awaitsBrace, f.openedAt)) = [(true, 1), (true, 0)] ∧
    ((Collector.readLines ((Line.ofText headersInARow).take 3)).frames.map
      fun f => (f.awaitsBrace, f.openedAt)) = [(true, 0)] ∧
    (Symbol.Table.ofText headersInARow).symbols.map (fun s => (s.name, s.scope)) =
      [(['a'], .block 0 (some 0)), (['b'], .block 1 (some 1)), (['x'], .block 2 (some 0))] := by
  decide +kernel

end MacroScript
