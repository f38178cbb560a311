import MacroScript.Proofs.Symbol.Braces
import MacroScript.Proofs.Symbol.Growth

/-!
# Scopes follow the braces of a document

Every symbol is put in by the reading of one line, as a parameter of the header that the line starts
with or as what its `var` or `for` declares. The parameters come in right after the header's frame
was opened, and the others after all braces of the line have been read. With the reader in step with
the braces (`InStep`), the innermost frame at that point is an opener of the document, and **the
scope of the symbol ends with the brace that is matched with it** (`scopes_follow_braces`).
-/
namespace MacroScript

/-! ## 1. Where a symbol is put in -/

namespace Collector

/-- A symbol that comes in during some actions is put in by one of them, and its place is the number
of symbols that were there before that one. -/
theorem exists_insert_of_performAll {c : Collector} {as : List Action} {i : Nat}
    (hfree : c.table.symbols.length ≤ i) (hput : i < (c.performAll as).table.symbols.length) :
    ∃ front name value tag origin line back,
      as = front ++ .insert name value tag origin line :: back ∧
        i = (c.performAll front).table.symbols.length := by
  induction as generalizing c with
  | nil =>
    rw [performAll_nil] at hput
    omega
  | cons a as ih =>
    rcases Nat.lt_or_ge i (c.perform a).table.symbols.length with hnow | hlater
    · obtain ⟨name, value, tag, origin, line, rfl, hi, -⟩ :=
        perform_newSymbol hfree (List.getElem?_eq_getElem hnow)
      exact ⟨[], name, value, tag, origin, line, as, rfl, hi⟩
    · obtain ⟨front, name, value, tag, origin, line, back, rfl, hi⟩ := ih hlater hput
      exact ⟨a :: front, name, value, tag, origin, line, back, rfl, hi⟩

/-- The action puts in a symbol. -/
def Action.isInsert : Action → Bool
  | .insert .. => true
  | _ => false

/-- A token that is no header at the start of its line puts nothing in. -/
theorem not_isInsert_of_mem_tokenActions {line : Nat} {c : Collector} {t : Token} {a : Action}
    (h : a ∈ tokenActions line c t) : a.isInsert = false := by
  unfold tokenActions at h
  split at h
  · rw [List.mem_singleton.mp h]; rfl
  · rw [List.mem_singleton.mp h, braceAction]
    split <;> rfl
  · split at h
    · rw [List.mem_singleton.mp h]; rfl
    · simp at h
  · simp at h

theorem not_isInsert_of_mem_tokensActions {line : Nat} {c : Collector} {ts : List Token}
    {a : Action} (h : a ∈ tokensActions line c ts) : a.isInsert = false := by
  induction ts generalizing c with
  | nil => simp [tokensActions] at h
  | cons t ts ih =>
    rcases List.mem_append.mp h with h | h
    · exact not_isInsert_of_mem_tokenActions h
    · exact ih h

/-- The expiry of a header closes a frame and puts nothing in. -/
theorem not_isInsert_of_mem_expiryActions {c : Collector} {line : Nat} {a : Action}
    (h : a ∈ c.expiryActions line) : a.isInsert = false := by
  unfold expiryActions at h
  split at h
  · split at h
    · rw [List.mem_singleton.mp h]; rfl
    · simp at h
  · simp at h

/-- An insertion among actions of which the last ones put in nothing is among the first. With it the
parts of a line that put nothing in are taken off from the right. -/
theorem exists_eq_of_append_eq {xs ys front back : List Action} {a : Action}
    (h : xs ++ ys = front ++ a :: back) (hys : ∀ y ∈ ys, y.isInsert = false)
    (ha : a.isInsert) : ∃ more, xs = front ++ a :: more := by
  rcases List.append_eq_append_iff.mp h with ⟨more, -, hys'⟩ | ⟨more, hxs, hmore⟩
  · have hnot := hys a (by rw [hys']; simp)
    rw [ha] at hnot
    contradiction
  · cases more with
    | nil =>
      have hnot := hys a (by rw [List.nil_append] at hmore; rw [← hmore]; simp)
      rw [ha] at hnot
      contradiction
    | cons b more =>
      obtain ⟨rfl, -⟩ := List.cons.inj hmore
      exact ⟨more, hxs⟩

end Collector

/-- The line starts with the word. -/
def Line.startsWith (l : Line) (word : String) : Bool :=
  (Token.scan l.code).head?.any fun t => t.isWord word

namespace Collector

/-- An insertion among the frame actions of a line is that of a parameter: the line starts with a
header, and so far has opened the header's frame only. That its edges are a single opener is what
makes the header's own frame the innermost one. -/
theorem insert_of_frameActions {c : Collector} {l : Line} {first : Token} {rest : List Token}
    (hscan : Token.scan l.code = first :: rest) {front back : List Action} {name value : Text}
    {tag : Tag} {origin : Origin} {line : Nat}
    (h : c.frameActions l first rest = front ++ .insert name value tag origin line :: back) :
    origin = .parameter ∧ line = l.index ∧ (l.startsWith "fun" ∨ l.startsWith "class") ∧
      edges front = [.opener] := by
  unfold frameActions at h
  -- expiries and the tokens after the first put nothing in
  obtain ⟨more, h⟩ :=
    exists_eq_of_append_eq h (fun _ => not_isInsert_of_mem_expiryActions) rfl
  obtain ⟨more, h⟩ :=
    exists_eq_of_append_eq h (fun _ => not_isInsert_of_mem_tokensActions) rfl
  unfold firstActions at h
  split at h
  · next hheader =>
    obtain ⟨kind, quiet, hactions, hquiet, hparameter⟩ := headerActions_eq l first (first :: rest)
    rw [hactions] at h
    cases front with
    | nil => simp at h
    | cons a front =>
      obtain ⟨rfl, rfl⟩ := List.cons.inj h
      obtain ⟨horigin, hline⟩ := hparameter name value tag origin line (by simp)
      refine ⟨horigin, hline, ?_, ?_⟩
      · simpa [Line.startsWith, hscan] using hheader
      · have hfront : edges front = [] :=
          edges_of_isQuiet fun a ha => hquiet a (List.mem_append_left _ ha)
        show .opener :: edges front = [.opener]
        rw [hfront]
  · have hnot : (Action.insert name value tag origin line).isInsert = false :=
      not_isInsert_of_mem_tokenActions (by rw [h]; simp)
    contradiction

/-- **How a line puts in a symbol**: as a parameter of the header it starts with, right after the
header's frame was opened, or as what its `var` or `for` declares, after all frames of the line. -/
theorem insert_of_lineActions {c : Collector} {l : Line} {front back : List Action}
    {name value : Text} {tag : Tag} {origin : Origin} {line : Nat}
    (h : c.lineActions l = front ++ .insert name value tag origin line :: back) :
    line = l.index ∧
      ((origin = .parameter ∧ (l.startsWith "fun" ∨ l.startsWith "class") ∧
          edges front = [.opener]) ∨
        (origin = .variable ∧ l.startsWith "var" ∨ origin = .loopVariable ∧ l.startsWith "for") ∧
          ∃ first rest, Token.scan l.code = first :: rest ∧
            front = c.frameActions l first rest) := by
  unfold lineActions at h
  cases hscan : Token.scan l.code with
  | nil => simp [hscan] at h
  | cons first rest =>
    rw [hscan] at h
    simp only at h
    have hstarts (word : String) : l.startsWith word = first.isWord word := by
      simp [Line.startsWith, hscan]
    have hparameter {back : List Action}
        (hframe : c.frameActions l first rest =
          front ++ .insert name value tag origin line :: back) :=
      insert_of_frameActions hscan hframe
    rcases statementActions_cases (c.performAll (c.frameActions l first rest)) l first
      (first :: rest) with hnil | ⟨a, hone, ha⟩
    · rw [hnil, List.append_nil] at h
      obtain ⟨horigin, hline, hheader, hedges⟩ := hparameter h
      exact ⟨hline, .inl ⟨horigin, hheader, hedges⟩⟩
    · rw [hone] at h
      rcases List.eq_nil_or_concat back with rfl | ⟨back, b, rfl⟩
      · -- the insertion is the last action of the line, which is that of the statement
        obtain ⟨hframe, heq⟩ := List.append_inj' h rfl
        obtain rfl := (List.cons.inj heq).1
        cases ha with
        | insert _ _ _ _ hword =>
          refine ⟨rfl, .inr ⟨?_, first, rest, rfl, hframe.symm⟩⟩
          rw [hstarts, hstarts]
          exact hword
      · rw [List.concat_eq_append, ← List.cons_append, ← List.append_assoc] at h
        obtain ⟨horigin, hline, hheader, hedges⟩ := hparameter (List.append_inj' h rfl).1
        exact ⟨hline, .inl ⟨horigin, hheader, hedges⟩⟩

/-- What is put in grows into the symbol at its place. It can be changed only by the actions that
come after it, so on the lines that these are written on. -/
theorem growsTo_of_inserted_on {isFurther : Nat → Prop} {as bs : List Action} {name value : Text}
    {tag : Tag} {origin : Origin} {line : Nat} {s : Symbol}
    (hbs : ∀ a ∈ bs, ∀ n, a.writtenOn? = some n → isFurther n)
    (hs : (performAll {} (as ++ .insert name value tag origin line :: bs)).table.symbols[
      (performAll {} as).table.symbols.length]? = some s) :
    (newSymbol (performAll {} as) name value tag origin line).GrowsTo isFurther s := by
  have hwell := (wellFormed_empty.performAll as).perform (.insert name value tag origin line)
  have hput : (Collector.perform (performAll {} as)
      (.insert name value tag origin line)).table.symbols[
        (performAll {} as).table.symbols.length]? =
      some (newSymbol (performAll {} as) name value tag origin line) := by
    rw [Collector.perform, insert_table, List.getElem?_concat_length]
  obtain ⟨s', hs', hgrows⟩ := (hwell.growsTo_performAll hbs).symbols _ _ hput
  rw [performAll_append, performAll_cons, hs', Option.some.injEq] at hs
  subst hs
  exact hgrows

/-- The same where it does not matter on which lines the symbol is changed. -/
theorem growsTo_of_inserted (as bs : List Action) (name value : Text) (tag : Tag) (origin : Origin)
    (line : Nat) {s : Symbol}
    (hs : (performAll {} (as ++ .insert name value tag origin line :: bs)).table.symbols[
      (performAll {} as).table.symbols.length]? = some s) :
    (newSymbol (performAll {} as) name value tag origin line).GrowsTo (fun _ => True) s :=
  growsTo_of_inserted_on (fun _ _ _ _ => trivial) hs

/-- What is put in keeps its origin and its line. -/
theorem origin_of_inserted (as bs : List Action) (name value : Text) (tag : Tag) (origin : Origin)
    (line : Nat) {s : Symbol}
    (hs : (performAll {} (as ++ .insert name value tag origin line :: bs)).table.symbols[
      (performAll {} as).table.symbols.length]? = some s) :
    s.origin = origin ∧ s.declaredLine = line := by
  have hgrows := growsTo_of_inserted as bs name value tag origin line hs
  exact ⟨hgrows.origin, hgrows.declaredLine⟩

end Collector

/-! ## 2. Scopes -/

/-- The openers and closers of the code lines, matched. The reader is not needed for it: the marks
are told from the tokens of the lines. -/
def braceNesting (lines : List Line) : Nesting :=
  Nesting.ofEdges (scopeEdges ((lines.filter Line.isCode).flatMap lineMarks))

namespace Collector

/-- With every header braced, the nesting of the reader's frames is that of the document's braces.
-/
theorem nesting_actions {lines : List Line} (h : HeadersBraced (lines.filter Line.isCode)) :
    nesting (actions lines) = braceNesting lines := by
  rw [← List.append_nil (lines.filter Line.isCode)] at h
  have hstep := inStep_lines h
  rw [nesting, braceNesting, ← hstep.edges_eq]
  rfl

/-- Every symbol is put in by the reading of one code line: the table grows line by line, and the
place of the symbol is passed on exactly one of them. -/
theorem exists_codeLine_of_lt {lines : List Line} {i : Nat}
    (h : i < (Symbol.Table.ofLines lines).symbols.length) :
    ∃ before l after, lines = before ++ l :: after ∧ l.isCode ∧
      (Symbol.Table.ofLines before).symbols.length ≤ i ∧
      i < (Symbol.Table.ofLines (before ++ [l])).symbols.length := by
  induction lines using List.reverseRecOn with
  | nil => simp [Symbol.Table.ofLines, readLines] at h
  | append_singleton lines l ih =>
    rcases Nat.lt_or_ge i (Symbol.Table.ofLines lines).symbols.length with hbefore | hnow
    · obtain ⟨before, l', after, rfl, hcode, hfree, hput⟩ := ih hbefore
      exact ⟨before, l', after ++ [l], by simp, hcode, hfree, hput⟩
    · refine ⟨lines, l, [], rfl, ?_, hnow, h⟩
      by_contra hcode
      rw [Symbol.Table.ofLines, readLines, List.filter_append, List.filter_cons_of_neg hcode,
        List.filter_nil, List.append_nil] at h
      exact absurd h (Nat.not_lt.mpr hnow)

/-- The actions of a document, taken apart at one of its code lines. -/
theorem actions_codeLine {before after : List Line} {l : Line} (hcode : l.isCode) :
    actions (before ++ l :: after) = actions before ++ ((readLines before).lineActions l ++
      ((readLines before).readLine l).actionsFrom (after.filter Line.isCode)) := by
  rw [actions_append, List.filter_cons_of_pos hcode, actionsFrom]

end Collector

/-- The symbol at place `i` is put in by one code line and has the scope that the braces give it.
A parameter is put in by the `fun` or `class` that the line starts with, and its scope reaches from
there to the brace that is matched with that header. What a `var` or `for` declares is global if no
brace is open at the end of its line, and otherwise its scope reaches from the line to the brace
that is matched with the innermost one open there. -/
def ScopedByBraces (lines : List Line) (i : Nat) (s : Symbol) : Prop :=
  ∃ before l after, lines = before ++ l :: after ∧ l.isCode ∧
    (Symbol.Table.ofLines before).symbols.length ≤ i ∧
    i < (Symbol.Table.ofLines (before ++ [l])).symbols.length ∧
    s.declaredLine = l.index ∧
    (s.origin = .parameter ∧ (l.startsWith "fun" ∨ l.startsWith "class") ∧
        s.scope = .block l.index ((braceNesting lines).closeLine? (braceNesting before).opened) ∨
      (s.origin = .variable ∧ l.startsWith "var" ∨
          s.origin = .loopVariable ∧ l.startsWith "for") ∧
        s.scope =
          (braceNesting lines).scopeOf (braceNesting (before ++ [l])).innermost? l.index)

open Collector in
/-- **Scopes follow the braces**, in every document whose headers all get their brace. -/
theorem Symbol.Table.scopes_follow_braces (lines : List Line)
    (hbraced : HeadersBraced (lines.filter Line.isCode)) :
    ∀ i s, (ofLines lines).symbols[i]? = some s → ScopedByBraces lines i s := by
  intro i s hs
  obtain ⟨before, l, after, rfl, hcode, hfree, hput⟩ :=
    exists_codeLine_of_lt (List.getElem?_eq_some_iff.mp hs).1
  refine ⟨before, l, after, rfl, hcode, hfree, hput, ?_⟩
  rw [List.filter_append, List.filter_cons_of_pos hcode] at hbraced
  -- the line's actions put the symbol in
  have hline : readLines (before ++ [l]) =
      (readLines before).performAll ((readLines before).lineActions l) := by
    rw [← performAll_actions, actions_codeLine hcode, performAll_append, performAll_actions]
    simp [actionsFrom]
  rw [Symbol.Table.ofLines, hline] at hput
  obtain ⟨front, name, value, tag, origin, line, back, hactions, rfl⟩ :=
    exists_insert_of_performAll hfree hput
  obtain ⟨hindex, hcases⟩ := insert_of_lineActions hactions
  -- all that is done before the insertion, the insertion, and all that is done after it
  have hall : actions (before ++ l :: after) = actions before ++ front ++
      .insert name value tag origin line :: (back ++
        ((readLines before).readLine l).actionsFrom (after.filter Line.isCode)) := by
    rw [actions_codeLine hcode, hactions]
    simp
  have hplace : (performAll {} (actions before ++ front)).table.symbols.length =
      ((readLines before).performAll front).table.symbols.length := by
    rw [performAll_append, performAll_actions]
  rw [Symbol.Table.ofLines, ← performAll_actions, hall, ← hplace] at hs
  obtain ⟨s', hs', hscope⟩ :=
    scope_of_inserted (actions before ++ front) _ name value tag origin line
  obtain ⟨horigin, hdeclared⟩ := origin_of_inserted _ _ name value tag origin line hs
  rw [hs, Option.some.injEq] at hs'
  subst hs'
  have hdocument : HeadersBraced ((before ++ l :: after).filter Line.isCode) := by
    rw [List.filter_append, List.filter_cons_of_pos hcode]
    exact hbraced
  rw [← hall, nesting_actions hdocument] at hscope
  have hbefore := inStep_lines hbraced
  have hedges : edges (actions before) =
      scopeEdges ((before.filter Line.isCode).flatMap lineMarks) := hbefore.edges_eq
  rw [horigin, hscope, hdeclared, hindex]
  refine ⟨rfl, ?_⟩
  rcases hcases with ⟨hparameter, hheader, hopener⟩ | ⟨hword, first, rest, hscan, rfl⟩
  · -- the header's own opener is the next after those of the lines before
    refine .inl ⟨hparameter, hheader, ?_⟩
    rw [nesting, edges_append, hopener, hedges, Nesting.ofEdges_append]
    rfl
  · refine .inr ⟨hword, ?_⟩
    -- the statement comes after all frames of its line, so the openers are those up to that line
    have hend := (hbefore.frameActions hbraced hscan).edges_eq
    have hlines : (before ++ [l]).filter Line.isCode = before.filter Line.isCode ++ [l] := by
      rw [List.filter_append, List.filter_cons_of_pos hcode, List.filter_nil]
    rw [braceNesting, braceNesting, hlines, ← hend]
    rfl

/-- A header with its brace after a blank line and a comment, a `do` with its brace on the line
after it, and braces beyond those that are open. -/
def bracedBelow : List Line :=
  [⟨0, 0, "fun outer(a)".toList⟩, ⟨1, 13, []⟩, ⟨2, 14, "// body".toList⟩, ⟨3, 22, "\x7b do".toList⟩,
    ⟨4, 27, "\x7b".toList⟩, ⟨5, 29, "var x = 1".toList⟩, ⟨6, 39, "\x7d".toList⟩,
    ⟨7, 41, "var y = 2 \x7d \x7d".toList⟩, ⟨8, 55, "for (var i = 0; i < y; i++) \x7b".toList⟩]

theorem headersBraced_bracedBelow : HeadersBraced (bracedBelow.filter Line.isCode) :=
  headersBraced_of_check (by decide +kernel)

theorem Symbol.Table.scopes_of_bracedBelow :
    (ofLines bracedBelow).symbols.map (fun s => (s.name, s.scope)) =
      [(['a'], .block 0 (some 7)), (['x'], .block 5 (some 6)), (['y'], .global),
        (['i'], .block 8 none)] ∧
    HeadersBraced (bracedBelow.filter Line.isCode) ∧
    ∀ i s, (ofLines bracedBelow).symbols[i]? = some s → ScopedByBraces bracedBelow i s :=
  ⟨by decide +kernel, headersBraced_bracedBelow,
    scopes_follow_braces bracedBelow headersBraced_bracedBelow⟩

end MacroScript
