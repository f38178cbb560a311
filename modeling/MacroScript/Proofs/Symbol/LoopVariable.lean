import MacroScript.Proofs.Symbol.Bare

/-!
# The scope of a loop variable

A `for` header declares its variable when all braces of its line have been read. So **the variable
lives in the innermost block that is open at the end of the line**, which is the loop's own block if
its brace is the last on that line. If the brace is the first token of the next code line, or the
block is closed on the line of the header, the variable lives in the block around the loop, and is
global if there is none.
-/
namespace MacroScript

/-! ## 1. What a statement puts in -/

namespace Collector

/-- A symbol is put in by one action of one code line. The actions before and after it are given as
well, so that the state at that point and what becomes of the symbol can both be told. -/
theorem exists_insert_of_ofLines {lines : List Line} {i : Nat} {s : Symbol}
    (hs : (Symbol.Table.ofLines lines).symbols[i]? = some s) :
    ∃ before l after front name value tag origin back, lines = before ++ l :: after ∧ l.isCode ∧
      (readLines before).lineActions l = front ++ .insert name value tag origin l.index :: back ∧
      i = ((readLines before).performAll front).table.symbols.length ∧
      performAll {} (actions before ++ front) = (readLines before).performAll front ∧
      actions lines = actions before ++ front ++ .insert name value tag origin l.index :: (back ++
        ((readLines before).readLine l).actionsFrom (after.filter Line.isCode)) := by
  obtain ⟨before, l, after, rfl, hcode, hfree, hput⟩ :=
    exists_codeLine_of_lt (List.getElem?_eq_some_iff.mp hs).1
  rw [Symbol.Table.ofLines, readLines_concat before hcode, ← performAll_lineActions] at hput
  obtain ⟨front, name, value, tag, origin, line, back, hactions, hi⟩ :=
    exists_insert_of_performAll hfree hput
  obtain ⟨rfl, -⟩ := insert_of_lineActions hactions
  refine ⟨before, l, after, front, name, value, tag, origin, back, rfl, hcode, hactions, hi, ?_, ?_⟩
  · rw [performAll_append, performAll_actions]
  · rw [actions_codeLine hcode, hactions]
    simp

/-- A symbol that is no parameter is put in by the statement of one code line, as its last action.
The state that it is put into is the one in which the frames of the line are settled. -/
theorem exists_declared {lines : List Line} {i : Nat} {s : Symbol}
    (hs : (Symbol.Table.ofLines lines).symbols[i]? = some s) (horigin : s.origin ≠ .parameter) :
    ∃ before l after first rest name value tag origin, lines = before ++ l :: after ∧ l.isCode ∧
      Token.scan l.code = first :: rest ∧
      (origin = .variable ∧ l.startsWith "var" ∨ origin = .loopVariable ∧ l.startsWith "for") ∧
      (readLines before).lineActions l = (readLines before).frameActions l first rest ++
        [.insert name value tag origin l.index] ∧
      i = ((readLines before).settled l).table.symbols.length ∧
      (((readLines before).settled l).newSymbol name value tag origin l.index).GrowsTo
        (fun _ => True) s := by
  obtain ⟨before, l, after, front, name, value, tag, origin, back, rfl, hcode, hactions, rfl,
    hstate, hall⟩ := exists_insert_of_ofLines hs
  rw [Symbol.Table.ofLines, ← performAll_actions, hall, ← hstate] at hs
  have hgrows := growsTo_of_inserted _ _ name value tag origin l.index hs
  rw [hstate] at hgrows
  rcases (insert_of_lineActions hactions).2 with ⟨hparameter, -⟩ | ⟨hword, first, rest, hscan, rfl⟩
  · exact absurd (hgrows.origin.trans hparameter) horigin
  · rw [performAll_frameActions _ hscan] at hgrows ⊢
    refine ⟨before, l, after, first, rest, name, value, tag, origin, rfl, hcode, hscan, hword, ?_,
      rfl, hgrows⟩
    -- the statement is one action, and this is it
    simp only [lineActions, hscan, List.append_cancel_left_eq] at hactions ⊢
    rcases statementActions_cases ((readLines before).performAll
      ((readLines before).frameActions l first rest)) l first (first :: rest) with
      hnil | ⟨a, hone, -⟩
    · rw [hnil] at hactions
      contradiction
    · rw [hone] at hactions ⊢
      rw [(List.cons.inj hactions).1]

/-- A symbol is global if no frame was open when it was put in, and else its scope starts there:
growing can only give it an end. -/
theorem scope_of_growsTo {isFurther : Nat → Prop} {c : Collector} {name value : Text} {tag : Tag}
    {origin : Origin} {line : Nat} {s : Symbol}
    (h : (c.newSymbol name value tag origin line).GrowsTo isFurther s) :
    c.frames = [] ∧ s.scope = .global ∨ c.frames ≠ [] ∧ ∃ stop, s.scope = .block line stop := by
  have hscope := h.scope
  simp only [newSymbol] at hscope
  generalize s.scope = scope at hscope
  cases hframes : c.frames with
  | nil =>
    rw [hframes, List.isEmpty_nil, if_pos rfl] at hscope
    cases hscope
    exact .inl ⟨rfl, rfl⟩
  | cons frame frames =>
    simp only [hframes, List.isEmpty_cons, Bool.false_eq_true, if_false] at hscope
    refine .inr ⟨by simp, ?_⟩
    cases hscope with
    | same => exact ⟨none, rfl⟩
    | closed _ stop => exact ⟨some stop, rfl⟩

/-- With clear headers, no frame waits when the statement of a line is read, unless the last mark of
the line is a header. An earlier header has its brace by then, or has expired. -/
theorem idle_settled {c : Collector} {l : Line} {next : List BraceMark} (hcode : l.isCode)
    (h : c.ReadyFor l.index [] (lineMarks l) next) (hclear : clearOnLine next (lineMarks l))
    (hlast : ∀ n, (lineMarks l).getLast? ≠ some (.header n)) : (c.settled l).Idle := by
  obtain ⟨first, rest, hscan⟩ := Line.exists_scan_of_isCode hcode
  have hready := (h.reads_frameActions hscan hclear).ready
  rw [performAll_frameActions c hscan] at hready
  refine hready.idle_of_head fun f hf => ?_
  by_contra hnot
  have hwaits : f.awaitsBrace := by simpa using hnot
  have hopened := h.openedAt_settled hcode hclear f (List.mem_of_mem_head? hf) hwaits
  rcases hready.innermost f hf hwaits with ⟨hlt, -⟩ | ⟨-, -, n, hn⟩
  · omega
  · exact hlast n hn

/-- **What a statement declares lives in the innermost brace that is open at the end of its line**,
if the headers are clear and the line does not end with one. It is put in after all braces of the
line have been read, and no header waits then. -/
theorem scope_of_declared {before after : List Line} {l : Line} {first : Token}
    {rest : List Token} {name value : Text} {tag : Tag} {origin : Origin}
    (hscan : Token.scan l.code = first :: rest)
    (hactions : (before.foldl readLine {}).lineActions l =
      (before.foldl readLine {}).frameActions l first rest ++
        [.insert name value tag origin l.index])
    (hlines : (before ++ [l] ++ after).Pairwise fun k l => k.index < l.index)
    (hcode : ∀ k ∈ before ++ [l] ++ after, k.isCode)
    (hclear : headersClear (before ++ l :: after))
    (hlast : ∀ n, (lineMarks l).getLast? ≠ some (.header n)) :
    ∃ s, ((before ++ [l] ++ after).foldl readLine {}).table.symbols[
        ((before.foldl readLine {}).settled l).table.symbols.length]? = some s ∧
      s.scope = (Nesting.ofEdges (((before ++ [l] ++ after).flatMap lineMarks).filterMap
        BraceMark.braceEdge?)).scopeOf (Nesting.ofEdges (((before ++ [l]).flatMap
          lineMarks).filterMap BraceMark.braceEdge?)).innermost? l.index := by
  obtain ⟨hbefore, hlt⟩ := Line.index_lt_of_concat (List.pairwise_append.mp hlines).1
  have hcodes : ∀ k ∈ before, k.isCode := fun k hk => hcode k (by simp [hk])
  have hl : l.isCode := hcode l (by simp)
  have hclear' := clearOnLine_of_headersClear hclear
  have hready := readyFor_lines hclear hbefore hcodes hlt (nextMarks after)
  have hframes := hready.reads_frameActions hscan hclear'
  -- at the end of the line the braced frames are the unmatched braces
  have haligned := (aligned_lines hclear hbefore hcodes).steps
    (hframes.steps.imp fun _ _ hstep => ⟨_, hstep⟩)
  have hline : before.flatMap lineMarks ++ lineMarks l = (before ++ [l]).flatMap lineMarks := by
    rw [List.flatMap_append, List.flatMap_singleton]
  rw [hframes.edges_eq, ← Nesting.ofEdges_append, ← List.filterMap_append, hline,
    performAll_frameActions _ hscan] at haligned
  -- the rest of the document is read from where the symbol is put in
  have hput : (before ++ [l]).foldl readLine {} = ((before.foldl readLine {}).settled l).perform
      (.insert name value tag origin l.index) := by
    rw [List.foldl_append, List.foldl_cons, List.foldl_nil, ← performAll_lineActions, hactions,
      performAll_append, performAll_frameActions _ hscan]
    rfl
  rw [List.append_cons, ← List.append_nil after] at hclear
  obtain ⟨hsteps, hedges⟩ := steps_actionsFrom hclear hlines hcode
  rw [hput] at hsteps hedges
  have hidle := idle_settled hl hready hclear' hlast
  obtain ⟨s, hs, hscope⟩ := scope_of_braced haligned hidle name value tag origin l.index hsteps
  rw [hedges] at hscope
  refine ⟨s, ?_, ?_⟩
  · rw [List.foldl_append, hput, ← performAll_actionsFrom]
    exact hs
  · have hall : (before ++ [l] ++ after).flatMap lineMarks =
        (before ++ [l]).flatMap lineMarks ++ after.flatMap lineMarks := List.flatMap_append
    rw [hscope, hall, List.filterMap_append, Nesting.ofEdges_append]

end Collector

/-! ## 2. The block of a loop -/

/-- The token is an opening brace. -/
def Token.opensBlock (t : Token) : Bool :=
  t.kind = .opener .curly

/-- The brace right after the brackets of the `for` header on a line, as the index of its token. The
opening bracket is the token after the keyword, and its partner ends the header. -/
def Line.blockBeside? (l : Line) : Option Nat :=
  ((Token.partner? (Token.scan l.code) 1).map (· + 1)).filter fun k =>
    (Token.scan l.code)[k]?.any Token.opensBlock

/-- The brackets of the `for` header end the line, and the first of the code lines after it starts
with a brace. -/
def Line.blockBelow (l : Line) (after : List Line) : Bool :=
  Token.partner? (Token.scan l.code) 1 = some ((Token.scan l.code).length - 1) &&
    ((after.filter Line.isCode).head?.bind fun next => (Token.scan next.code).head?).any
      Token.opensBlock

/-- The brace of the block of the `for` header on a line, by its number among the braces of the
document: the one right after the brackets of the header, or the one that the next code line starts
with. -/
def loopBlock? (before : List Line) (l : Line) (after : List Line) : Option Nat :=
  match l.blockBeside? with
  | some k => some ((bareNesting before).opened +
      ((Token.scan l.code).take k).countP Token.opensBlock)
  | none => if l.blockBelow after then some (bareNesting (before ++ [l])).opened else none

namespace Nesting

/-- The number of the next opener is that of the openers so far: closers do not count. -/
theorem opened_foldl_read (m : Nesting) (edges : List ScopeEdge) :
    (edges.foldl read m).opened = m.opened + edges.count .opener := by
  induction edges generalizing m with
  | nil => rfl
  | cons e edges ih =>
    rw [List.foldl_cons, ih]
    cases e with
    | opener =>
      rw [List.count_cons_self]
      simp only [read]
      omega
    | closer line =>
      rw [List.count_cons_of_ne (by simp)]
      cases hstack : m.unmatched <;> simp [read, hstack]

/-- The scope in a brace is that of a block if and only if they are closed on the same line. (They
need not be the same brace: the scope is a pair of lines.) -/
theorem scopeOf_eq_block_iff (m : Nesting) (home? : Option Nat) (line o : Nat) :
    m.scopeOf home? line = .block line (m.closeLine? o) ↔
      ∃ home, home? = some home ∧ m.closeLine? home = m.closeLine? o := by
  cases home? <;> simp [scopeOf]

end Nesting

/-- The openers among the marks of some tokens are their braces, so that a brace can be numbered by
counting tokens. -/
theorem count_opener_tokenMarks (line : Nat) (ts : List Token) :
    ((ts.filterMap (tokenMark? line)).filterMap BraceMark.braceEdge?).count .opener =
      ts.countP Token.opensBlock := by
  rw [List.filterMap_filterMap, List.count, List.countP_filterMap]
  congr 1
  funext t
  fun_cases tokenMark? line t <;>
    simp_all [BraceMark.braceEdge?, Token.opensBlock]

/-- The marks of a line that starts with `for` are those of its tokens: `for` is no header of a
frame. -/
theorem lineMarks_of_for {l : Line} (h : l.startsWith "for") :
    lineMarks l = (Token.scan l.code).filterMap (tokenMark? l.index) := by
  unfold lineMarks
  unfold Line.startsWith at h
  cases hscan : Token.scan l.code with
  | nil => rfl
  | cons first rest =>
    rw [hscan, List.head?_cons, Option.any_some, Token.isWord, Bool.and_eq_true,
      decide_eq_true_eq, decide_eq_true_eq] at h
    have hfirst : firstMark? l.index first = tokenMark? l.index first := by
      rw [firstMark?, if_neg]
      simp [Token.isWord, h.2]
    simp only [hfirst, List.filterMap_cons]
    cases tokenMark? l.index first <;> rfl

/-- If the loop's brace stands beside its header and no mark comes after it, it is the innermost one
at the end of the line: it is the last opener, and nothing closes it there. -/
theorem innermost_of_blockBeside {before : List Line} {l : Line} (hcode : l.isCode)
    (hfor : l.startsWith "for") {k : Nat} (hk : l.blockBeside? = some k)
    (hafter : ((Token.scan l.code).drop (k + 1)).filterMap (tokenMark? l.index) = []) :
    (bareNesting (before ++ [l])).innermost? =
      some ((bareNesting before).opened +
        ((Token.scan l.code).take k).countP Token.opensBlock) := by
  obtain ⟨-, hbrace⟩ := Option.filter_eq_some_iff.mp hk
  cases ht : (Token.scan l.code)[k]? with
  | none => simp [ht] at hbrace
  | some t =>
    rw [ht, Option.any_some, Token.opensBlock, decide_eq_true_eq] at hbrace
    obtain ⟨hlt, hget⟩ := List.getElem?_eq_some_iff.mp ht
    have hmark : tokenMark? l.index t = some (.brace l.index) := by simp [tokenMark?, hbrace]
    -- the brace is the last mark of its line
    have hmarks : lineMarks l =
        ((Token.scan l.code).take k).filterMap (tokenMark? l.index) ++ [.brace l.index] := by
      rw [lineMarks_of_for hfor]
      conv_lhs => rw [← List.take_append_drop k (Token.scan l.code)]
      rw [List.drop_eq_getElem_cons hlt, hget, List.filterMap_append, List.filterMap_cons, hmark,
        hafter]
    rw [bareNesting, List.filter_append, List.filter_cons_of_pos hcode, List.filter_nil,
      List.flatMap_append, List.flatMap_singleton, hmarks, List.filterMap_append,
      List.filterMap_append, Nesting.ofEdges_append, List.foldl_append]
    show some _ = some _
    rw [Nesting.opened_foldl_read, count_opener_tokenMarks]
    rfl

/-! ## 3. Documents -/

open Collector in
/-- The symbol is put in by a line that starts with `for`, and its scope starts there, or is global
if no frame is open when the braces of that line have been read. With clear headers, and unless the
line ends with one, its scope ends with the closing brace that is matched with the innermost brace
open at the end of the line. So it is the scope of the loop's block if and only if there is such a
brace and it is closed on the line where the block is, and in particular if the block's brace stands
beside the header with no mark after it. -/
def ScopedByLoop (t : Text) (s : Symbol) : Prop :=
  ∃ before l after, Line.ofText t = before ++ l :: after ∧ l.isCode ∧ l.startsWith "for" ∧
    s.declaredLine = l.index ∧
    (((readLines before).settled l).frames = [] ∧ s.scope = .global ∨
      ((readLines before).settled l).frames ≠ [] ∧ ∃ stop, s.scope = .block l.index stop) ∧
    (headersClear ((Line.ofText t).filter Line.isCode) →
      (∀ n, (lineMarks l).getLast? ≠ some (.header n)) →
      s.scope = (bareNesting (Line.ofText t)).scopeOf
        (bareNesting (before ++ [l])).innermost? l.index ∧
      ∀ o, loopBlock? before l after = some o →
        (s.scope = .block l.index ((bareNesting (Line.ofText t)).closeLine? o) ↔
          ∃ home, (bareNesting (before ++ [l])).innermost? = some home ∧
            (bareNesting (Line.ofText t)).closeLine? home =
              (bareNesting (Line.ofText t)).closeLine? o) ∧
        ∀ k, l.blockBeside? = some k →
          ((Token.scan l.code).drop (k + 1)).filterMap (tokenMark? l.index) = [] →
          s.scope = .block l.index ((bareNesting (Line.ofText t)).closeLine? o))

open Collector in
/-- **A loop variable lives in the innermost block that is open at the end of its header's line.**
-/
theorem Symbol.Table.loop_variables_live_where_line_ends (t : Text) (i : Nat) (s : Symbol)
    (hs : (ofText t).symbols[i]? = some s) (horigin : s.origin = .loopVariable) :
    ScopedByLoop t s := by
  obtain ⟨before, l, after, first, rest, name, value, tag, origin, hlines, hcode, hscan, hword,
    hactions, rfl, hgrows⟩ := exists_declared hs (by simp [horigin])
  -- only a `for` line declares a symbol of this origin
  have hfor : l.startsWith "for" := by
    rcases hword with ⟨hvariable, -⟩ | ⟨-, hfor⟩
    · have hsame : s.origin = .variable := hgrows.origin.trans hvariable
      simp [hsame] at horigin
    · exact hfor
  refine ⟨before, l, after, hlines, hcode, hfor, hgrows.declaredLine, scope_of_growsTo hgrows,
    fun hclear hlast => ?_⟩
  have hscope : s.scope = (bareNesting (Line.ofText t)).scopeOf
      (bareNesting (before ++ [l])).innermost? l.index := by
    obtain ⟨hpairs, hcodes⟩ := Line.codeLines_ofText t
    -- the line is code, so it is among the code lines, between those before it and those after it
    have hbefore : (before ++ [l]).filter Line.isCode = before.filter Line.isCode ++ [l] := by
      rw [List.filter_append, List.filter_cons_of_pos hcode, List.filter_nil]
    have hsplit : (Line.ofText t).filter Line.isCode =
        before.filter Line.isCode ++ [l] ++ after.filter Line.isCode := by
      rw [hlines, List.append_cons, List.filter_append, hbefore]
    rw [hsplit] at hpairs hcodes hclear
    obtain ⟨s', hs', hscope⟩ := scope_of_declared hscan hactions hpairs
      (fun k hk => (hcodes k hk).1) (by rwa [List.append_cons]) hlast
    rw [← hsplit] at hs'
    obtain rfl : s = s' := Option.some.inj (hs.symm.trans hs')
    rw [bareNesting, bareNesting, hsplit, hbefore]
    exact hscope
  rw [hscope]
  refine ⟨rfl, fun o ho => ⟨Nesting.scopeOf_eq_block_iff _ _ _ _, fun k hk hafter => ?_⟩⟩
  rw [loopBlock?, hk, Option.some.injEq] at ho
  rw [innermost_of_blockBeside hcode hfor hk hafter, ← ho]
  rfl

/-- A loop in the body of a function, with its brace beside its header. -/
def loopBeside : Text :=
  "fun f(xs)\n\x7b\nfor (var x : xs) \x7b\nprint(x);\n\x7d\n\x7d".toList

/-- Its variable. -/
def loopBesideVariable : Symbol :=
  { id := 1, name := ['x'], tag := .any, origin := .loopVariable, declaredLine := 2
    declaredValue := "xs".toList, reassignments := [], redeclaredLine := none
    scope := .block 2 (some 4) }

theorem Symbol.Table.loop_variable_of_loopBeside :
    headersClear ((Line.ofText loopBeside).filter Line.isCode) ∧
    (ofText loopBeside).symbols[1]? = some loopBesideVariable ∧
    loopBesideVariable.origin = .loopVariable ∧ ScopedByLoop loopBeside loopBesideVariable :=
  ⟨by decide +kernel, by decide +kernel, rfl,
    loop_variables_live_where_line_ends loopBeside 1 loopBesideVariable (by decide +kernel) rfl⟩

/-- With the brace on the next line the variable is global, and so it is if the block is closed on
the line of the header. If a `do` without a brace stands in the block, its closing brace is taken
for that of the `do`, and the variable lives on to the next one. -/
theorem Symbol.Table.loop_variables_beyond_block :
    (ofText "for (var i : items)\n\x7b\n\x7d".toList).symbols.map Symbol.scope = [.global] ∧
    (ofText "for (var i : items) \x7b \x7d".toList).symbols.map Symbol.scope = [.global] ∧
    (ofText "for (var i : items) \x7b\ndo\n\x7d\nprint(i);\n\x7d".toList).symbols.map
      Symbol.scope = [.block 0 (some 4)] := by
  decide +kernel

end MacroScript
