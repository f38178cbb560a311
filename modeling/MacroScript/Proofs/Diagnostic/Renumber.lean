import MacroScript.Analysis
import MacroScript.Proofs.Diagnostic.Range
import MacroScript.Proofs.Symbol.Renumber

/-!
# Blank and comment lines only renumber

Lines without code take no part in the analysis. Where some are put into a document, the lines of
code keep their characters and their order and get other numbers, and by `readLine_renumber` the
table only changes in these numbers. A rule sees a line, the nearest lines of code around it and the
table, and asks nothing of a number but how it compares (`RuleView.IsMoved.findings_eq`). So **the
diagnostics are the same ones, on the lines that have moved** (`analysis_of_spreads`).
-/
namespace MacroScript

/-! ## 1. What a rule sees -/

/-- Two views in which every rule finds the same. This lists all that the rules take from a view:
the code of the line, the code of the next one, what is known of names on the line, and whether the
line ends a `do` loop. -/
structure RuleView.IsAlike (view view' : RuleView) : Prop where
  code : view'.line.code = view.line.code
  next : view'.next.map Line.code = view.next.map Line.code
  names : view'.table.namesOn view'.line.index = view.table.namesOn view.line.index
  declares : ∀ name, view'.table.declaresBy name view'.line.index =
    view.table.declaresBy name view.line.index
  doWhile : endsDoWhile view' = endsDoWhile view

namespace RuleView.IsAlike

variable {view view' : RuleView} (h : view.IsAlike view')

include h

theorem code_eq : view'.code = view.code := h.code

theorem tokens_eq : view'.tokens = view.tokens := congrArg Token.scan h.code

theorem codeEnd_eq : view'.codeEnd = view.codeEnd := by
  rw [codeEnd, codeEnd, h.code]

theorem rest_eq (offset : Nat) : view'.rest offset = view.rest offset := by
  rw [rest, rest, h.code]

/-- A block may open on the next line, of which the code is looked at. -/
theorem blockFollows_eq (offset : Nat) : view'.blockFollows offset = view.blockFollows offset := by
  have hnext (p : Text → Bool) :
      (view'.next.any fun next => p next.code) = view.next.any fun next => p next.code := by
    have := congrArg (Option.any p) h.next
    simpa [Option.any_map] using this
  simp only [blockFollows, h.rest_eq, hnext fun code => ['{'].isPrefixOf (Text.trimStart code)]

theorem blockFindings_eq (closer : Option Token) :
    view'.blockFindings closer = view.blockFindings closer := by
  cases closer <;> simp only [blockFindings, h.blockFollows_eq, h.codeEnd_eq]

theorem terminatorFindings_eq : terminatorFindings view' = terminatorFindings view := by
  simp only [terminatorFindings, h.code_eq]

theorem operatorFindings_eq : operatorFindings view' = operatorFindings view := by
  simp only [operatorFindings, h.tokens_eq]

/-- A value is recognised by what is known of its names. -/
theorem varStatementFindings_eq (t : Text) (base : Nat) :
    varStatementFindings view' t base = varStatementFindings view t base := by
  simp only [varStatementFindings, valueFindings, isRecognised, h.names, h.declares]

theorem declarationFindings_eq : declarationFindings view' = declarationFindings view := by
  simp only [declarationFindings, selfCopyFindings, selfCopyIssue, h.code_eq, h.tokens_eq,
    h.varStatementFindings_eq, h.declares]

theorem strayFollows_eq (offset : Nat) : strayFollows view' offset = strayFollows view offset := by
  rw [strayFollows, strayFollows, h.rest_eq]

theorem conditionHeaderFindings_eq (site : ConditionSite) (keyword opener closer : Token) :
    conditionHeaderFindings view' site keyword opener closer =
      conditionHeaderFindings view site keyword opener closer := by
  simp only [conditionHeaderFindings, h.code_eq, h.strayFollows_eq, h.codeEnd_eq, h.doWhile]

theorem conditionFindings_eq : conditionFindings view' = conditionFindings view := by
  simp only [conditionFindings, h.tokens_eq, h.strayFollows_eq, h.codeEnd_eq,
    h.conditionHeaderFindings_eq]

theorem headerFindings_eq : headerFindings view' = headerFindings view := by
  simp only [headerFindings, headerLineFindings, h.code_eq, h.tokens_eq, h.codeEnd_eq,
    h.blockFindings_eq]

theorem loopHeaderFindings_eq (keyword opener : Token) (rest : List Token) :
    loopHeaderFindings view' keyword opener rest = loopHeaderFindings view keyword opener rest := by
  simp only [loopHeaderFindings, clauseFindings, firstClauseFindings, h.code_eq, h.codeEnd_eq,
    h.varStatementFindings_eq, h.blockFindings_eq]

theorem loopFindings_eq : loopFindings view' = loopFindings view := by
  simp only [loopFindings, h.tokens_eq, h.loopHeaderFindings_eq]

/-- **Every rule finds the same.** The rules are gone through one by one, each by the parts it
consists of. -/
theorem findings_eq : view'.findings = view.findings := by
  simp only [findings, Rule.all, List.flatMap_cons, List.flatMap_nil, Rule.findings,
    h.terminatorFindings_eq, h.declarationFindings_eq, h.operatorFindings_eq,
    h.conditionFindings_eq, h.headerFindings_eq, h.loopFindings_eq]

end RuleView.IsAlike

/-! ## 2. Moved views -/

/-- The view of the same line of code elsewhere. The lines around it have moved along, and the table
has the new numbers. -/
structure RuleView.IsMoved (f : Nat → Nat) (view view' : RuleView) : Prop where
  line : view.line.IsMoved f view'.line
  previous : Option.Rel (Line.IsMoved f) view.previous view'.previous
  next : Option.Rel (Line.IsMoved f) view.next view'.next
  table : view'.table = view.table.renumber f

variable {f : Nat → Nat}

/-- **A moved view is alike**: the numbers are compared with each other only, and a strictly
increasing map keeps the outcome. -/
theorem RuleView.IsMoved.isAlike (hf : StrictMono f) {view view' : RuleView}
    (h : view.IsMoved f view') : view.IsAlike view' := by
  obtain ⟨line, previous, next, table⟩ := view
  obtain ⟨line', previous', next', table'⟩ := view'
  obtain ⟨hline, hprevious, hnext, htable⟩ := h
  simp only at hline hprevious hnext htable
  refine ⟨hline.code, ?_, ?_, fun name => ?_, ?_⟩
  · cases hnext with
    | none => rfl
    | some hl => exact congrArg some hl.code
  · rw [htable, hline.index, Symbol.Table.namesOn_renumber hf]
  · rw [htable, hline.index, Symbol.Table.declaresBy_renumber hf]
  · simp only [endsDoWhile, htable, hline.index, Symbol.Table.endsDoBlockOn_renumber hf]
    cases hprevious with
    | none => rfl
    | some hl =>
      simp only [Option.any_some, hl.code, hl.index, Symbol.Table.endsDoBlockOn_renumber hf]

/-- Lines that have moved have views that have moved, one by one. -/
theorem RuleView.isMoved_ofLines {ls ls' : List Line} (h : List.Forall₂ (Line.IsMoved f) ls ls')
    {previous previous' : Option Line} (hprevious : Option.Rel (Line.IsMoved f) previous previous')
    (table : Symbol.Table) :
    List.Forall₂ (RuleView.IsMoved f) (ofLines table previous ls)
      (ofLines (table.renumber f) previous' ls') := by
  induction h generalizing previous previous' with
  | nil => exact .nil
  | cons hl hls ih =>
    refine .cons ⟨hl, hprevious, ?_, rfl⟩ (ih (.some hl))
    cases hls with
    | nil => exact .none
    | cons hnext _ => exact .some hnext

/-- The diagnostic on another line, in the same columns. -/
def Diagnostic.onLine (n : Nat) (d : Diagnostic) : Diagnostic :=
  { d with
    range :=
      { start := ⟨n.toUInt32, d.range.start.character⟩
        stop := ⟨n.toUInt32, d.range.stop.character⟩ } }

/-- A finding is shown on the line to which its line has moved, in the same columns. -/
theorem Finding.inLine_of_isMoved {l l' : Line} (h : l.IsMoved f l') (finding : Finding) :
    finding.inLine l' = (finding.inLine l).onLine (f l.index) := by
  simp only [inLine, Line.range, Diagnostic.onLine, h.index, h.raw]

/-- The second diagnostic is the first one on the line to which that one's line has moved. The lines
are numbered below `count`, so that the line is one of the document. -/
def Diagnostic.IsMoved (f : Nat → Nat) (count : Nat) (d d' : Diagnostic) : Prop :=
  ∃ n < count, d.onLine n = d ∧ d' = d.onLine (f n)

/-- **Moved lines of code have the same diagnostics**, on the lines to which they have moved. The
views have moved one by one, and each has the findings that it had. -/
theorem Diagnostic.isMoved_ofLines (hf : StrictMono f) {lines lines' : List Line}
    (h : List.Forall₂ (Line.IsMoved f) (lines.filter Line.isCode) (lines'.filter Line.isCode))
    {count : Nat} (hcount : ∀ l ∈ lines, l.index < count) (table : Symbol.Table) :
    List.Forall₂ (Diagnostic.IsMoved f count) (ofLines lines table)
      (ofLines lines' (table.renumber f)) := by
  have hlines : ∀ view ∈ RuleView.ofLines table none (lines.filter Line.isCode),
      view.line.index < count := by
    intro view hview
    have hline : view.line ∈ lines.filter Line.isCode := by
      rw [← map_line_ofLines table none (lines.filter Line.isCode)]
      exact List.mem_map_of_mem hview
    exact hcount view.line (List.mem_of_mem_filter hline)
  have hviews := (List.forall₂_and_left _ _).mpr ⟨hlines, RuleView.isMoved_ofLines h .none table⟩
  refine List.rel_flatMap hviews ?_
  rintro view view' ⟨hlt, hview⟩
  beta_reduce
  rw [(hview.isAlike hf).findings_eq, List.forall₂_map_left_iff, List.forall₂_map_right_iff,
    List.forall₂_same]
  intro finding _
  exact ⟨view.line.index, hlt, rfl, finding.inLine_of_isMoved hview.line⟩

/-! ## 3. Lines put into a document -/

/-- The characters of each line. -/
def Text.rawLines (t : Text) : List Text :=
  (Line.ofText t).map Line.raw

/-- A line of white space only, or one that holds a comment and nothing else. -/
def Text.isBlankOrComment (raw : Text) : Bool :=
  isAllBlank raw || ['/', '/'].isPrefixOf (trimStart raw)

/-- `t'` is `t` with blank and comment lines put in, and `f` maps the number of each line of `t` to
the one that it has in `t'`. Every line of `t` is kept as it is, and every other line of `t'` is
blank or a comment. -/
structure Text.Spreads (f : Nat → Nat) (t t' : Text) : Prop where
  strictMono : StrictMono f
  kept : ∀ i raw, t.rawLines[i]? = some raw → t'.rawLines[f i]? = some raw
  added : ∀ j raw, t'.rawLines[j]? = some raw →
    (∃ i < t.rawLines.length, f i = j) ∨ isBlankOrComment raw

/-- White space is code, all of it. -/
theorem codeOf_of_isAllBlank {raw : Text} (h : Text.isAllBlank raw) : codeOf raw = raw := by
  induction raw with
  | nil => rfl
  | cons c cs ih =>
    rw [Text.isAllBlank, List.all_cons, Bool.and_eq_true] at h
    have hslash : c ≠ '/' := by rintro rfl; exact absurd h.1 (by decide)
    have hquote : c ≠ '"' := by rintro rfl; exact absurd h.1 (by decide)
    have hnext : Quoting.outside.next isDoubleQuote c = .outside := by
      simp [Quoting.next, isDoubleQuote, hquote]
    rw [codeOf, codeFrom, hnext]
    simp only [hslash, decide_false, Bool.false_and, Bool.false_eq_true, if_false]
    exact congrArg (c :: ·) (ih h.2)

/-- Blank and comment lines take no part in the analysis: there is nothing on them that a scan could
read. -/
theorem Line.isCode_of_isBlankOrComment {l : Line} (h : l.raw.isBlankOrComment) :
    l.isCode = false := by
  rw [Text.isBlankOrComment, Bool.or_eq_true] at h
  unfold isCode
  rcases h with hblank | hcomment
  · rw [isEmpty, code, codeOf_of_isAllBlank hblank, hblank, Bool.not_true, Bool.and_false]
  · rw [isComment, hcomment, Bool.not_true, Bool.false_and]

/-- Two lists of lines in ascending order whose lines are moved to each other correspond one to one.
The order is what makes the first of the one list the partner of the first of the other. -/
theorem Line.forall₂_isMoved (hf : StrictMono f) {ls ls' : List Line}
    (horder : ls.Pairwise fun l l' => l.index < l'.index)
    (horder' : ls'.Pairwise fun l l' => l.index < l'.index)
    (hkept : ∀ l ∈ ls, ∃ l' ∈ ls', l.IsMoved f l') (hold : ∀ l' ∈ ls', ∃ l ∈ ls, l.IsMoved f l') :
    List.Forall₂ (Line.IsMoved f) ls ls' := by
  induction ls generalizing ls' with
  | nil =>
    cases ls' with
    | nil => exact .nil
    | cons l' ls' =>
      obtain ⟨l, hl, -⟩ := hold l' List.mem_cons_self
      simp at hl
  | cons l ls ih =>
    obtain ⟨hfirst, horder⟩ := List.pairwise_cons.mp horder
    obtain ⟨m, hm, hlm⟩ := hkept l List.mem_cons_self
    cases ls' with
    | nil => simp at hm
    | cons l' ls' =>
      obtain ⟨hfirst', horder'⟩ := List.pairwise_cons.mp horder'
      -- the first lines belong together: any other partner would come too late
      have hll' : l.IsMoved f l' := by
        rcases List.mem_cons.mp hm with rfl | hm
        · exact hlm
        · obtain ⟨k, hk, hkl'⟩ := hold l' List.mem_cons_self
          rcases List.mem_cons.mp hk with rfl | hk
          · exact hkl'
          · have hlater := hf (hfirst k hk)
            have hsooner := hfirst' m hm
            rw [hkl'.index, hlm.index] at hsooner
            omega
      -- and no later line has one of them as its partner, for the same reason
      refine .cons hll' (ih horder horder' (fun k hk => ?_) fun k' hk' => ?_)
      · obtain ⟨k', hk', hkk'⟩ := hkept k (List.mem_cons_of_mem _ hk)
        rcases List.mem_cons.mp hk' with rfl | hk'
        · have hlater := hf (hfirst k hk)
          rw [← hkk'.index, ← hll'.index] at hlater
          omega
        · exact ⟨k', hk', hkk'⟩
      · obtain ⟨k, hk, hkk'⟩ := hold k' (List.mem_cons_of_mem _ hk')
        rcases List.mem_cons.mp hk with rfl | hk
        · have hlater := hfirst' k' hk'
          rw [hkk'.index, hll'.index] at hlater
          omega
        · exact ⟨k, hk, hkk'⟩

/-- The lines of code of a document have moved, one to one, when lines without code are put in. The
lines put in drop out, since none of them is code. -/
theorem Text.Spreads.isMoved_code {t t' : Text} (h : t.Spreads f t') :
    List.Forall₂ (Line.IsMoved f) ((Line.ofText t).filter Line.isCode)
      ((Line.ofText t').filter Line.isCode) := by
  have horder (s : Text) : (Line.ofText s).Pairwise fun l l' => l.index < l'.index :=
    (Line.number_index 0 0 _).1
  have hraw {s : Text} {k : Nat} {l : Line} (hk : (Line.ofText s)[k]? = some l) :
      s.rawLines[k]? = some l.raw := by
    rw [Text.rawLines, List.getElem?_map, hk, Option.map_some]
  have hisCode {l l' : Line} (hl : l.IsMoved f l') : l'.isCode = l.isCode := by
    simp only [Line.isCode, Line.isComment, Line.isEmpty, hl.code, hl.raw]
  refine Line.forall₂_isMoved h.strictMono ((horder t).filter _) ((horder t').filter _) ?_ ?_
  · -- a line keeps its text, so it is code where it has moved to
    intro l hl
    obtain ⟨hmem, hcode⟩ := List.mem_filter.mp hl
    obtain ⟨i, hi⟩ := List.mem_iff_getElem?.mp hmem
    have hnew := h.kept i l.raw (hraw hi)
    rw [Text.rawLines, List.getElem?_map, Option.map_eq_some_iff] at hnew
    obtain ⟨l', hl', hsame⟩ := hnew
    have hmoved : l.IsMoved f l' := ⟨by rw [Line.index_ofText hl', Line.index_ofText hi], hsame⟩
    exact ⟨l', List.mem_filter.mpr ⟨List.mem_of_getElem? hl', by rw [hisCode hmoved, hcode]⟩,
      hmoved⟩
  · -- a line of code is not one of those put in, so it has moved from somewhere
    intro l' hl'
    obtain ⟨hmem, hcode⟩ := List.mem_filter.mp hl'
    obtain ⟨j, hj⟩ := List.mem_iff_getElem?.mp hmem
    rcases h.added j l'.raw (hraw hj) with ⟨i, hi, rfl⟩ | hquiet
    · rw [Text.rawLines, List.length_map] at hi
      have hold := List.getElem?_eq_getElem hi
      have hnew := h.kept i _ (hraw hold)
      have hmoved : (Line.ofText t)[i].IsMoved f l' := by
        refine ⟨by rw [Line.index_ofText hj, Line.index_ofText hold], ?_⟩
        rw [hraw hj, Option.some.injEq] at hnew
        exact hnew
      exact ⟨_, List.mem_filter.mpr ⟨List.getElem_mem hi, by rw [← hisCode hmoved, hcode]⟩, hmoved⟩
    · rw [Line.isCode_of_isBlankOrComment hquiet] at hcode
      contradiction

/-- **Blank and comment lines only renumber.** Where such lines are put into a document, the table
changes in the numbers of its lines only, and the diagnostics are those that there were, in their
order, each on the line to which its line has moved. -/
theorem analysis_of_spreads {t t' : Text} (h : t.Spreads f t') :
    Symbol.Table.ofText t' = (Symbol.Table.ofText t).renumber f ∧
      List.Forall₂ (Diagnostic.IsMoved f (Line.ofText t).length) (diagnose t) (diagnose t') := by
  have hcode := h.isMoved_code
  have htable : Symbol.Table.ofText t' = (Symbol.Table.ofText t).renumber f :=
    congrArg Collector.table (Collector.foldl_readLine_renumber h.strictMono hcode {})
  refine ⟨htable, ?_⟩
  have hcount : ∀ l ∈ Line.ofText t, l.index < (Line.ofText t).length := by
    intro l hl
    have hbounds := (Line.number_index 0 0 (List.splitOn '\n' t)).2 l hl
    rw [Nat.zero_add] at hbounds
    exact hbounds.2
  have hmoved := Diagnostic.isMoved_ofLines h.strictMono hcode hcount (Symbol.Table.ofText t)
  rw [← htable] at hmoved
  exact hmoved

/-- A loop with an assignment to itself and a wrong condition. -/
def denseLoop : Text :=
  "do \x7b\n  x = x;\n\x7d while (x = 1);".toList

/-- The loop with a comment above it and a blank line in it. -/
def spreadLoop : Text :=
  "// twice\ndo \x7b\n\n  x = x;\n\x7d while (x = 1);".toList

/-- Where the lines of the loop have moved. -/
def denseToSpread : Nat → Nat
  | 0 => 1
  | i + 1 => i + 3

/-- The `do` block ends two lines later, and so do both diagnostics. -/
theorem analysis_of_spreadLoop :
    denseLoop.Spreads denseToSpread spreadLoop ∧ (diagnose denseLoop).length = 2 ∧
      Symbol.Table.ofText spreadLoop = (Symbol.Table.ofText denseLoop).renumber denseToSpread ∧
      List.Forall₂ (Diagnostic.IsMoved denseToSpread (Line.ofText denseLoop).length)
        (diagnose denseLoop) (diagnose spreadLoop) := by
  have hlines : denseLoop.rawLines =
      ["do \x7b".toList, "  x = x;".toList, "\x7d while (x = 1);".toList] := by decide +kernel
  have hlines' : spreadLoop.rawLines =
      ["// twice".toList, "do \x7b".toList, [], "  x = x;".toList,
        "\x7d while (x = 1);".toList] := by
    decide +kernel
  have hspreads : denseLoop.Spreads denseToSpread spreadLoop := by
    refine ⟨strictMono_nat_of_lt_succ fun n => ?_, fun i raw hi => ?_, fun j raw hj => ?_⟩
    · cases n <;> simp [denseToSpread]
    · rw [hlines] at hi
      rw [hlines']
      match i with
      | 0 | 1 | 2 => exact hi
      | i + 3 => simp at hi
    · rw [hlines'] at hj
      rw [hlines]
      -- the first line and the third are those put in
      rcases j with _ | _ | _ | _ | _ | j
      · rw [← Option.some.inj hj]
        exact .inr (by decide +kernel)
      · exact .inl ⟨0, by simp, rfl⟩
      · rw [← Option.some.inj hj]
        exact .inr (by decide)
      · exact .inl ⟨1, by simp, rfl⟩
      · exact .inl ⟨2, by simp, rfl⟩
      · simp at hj
  exact ⟨hspreads, by decide +kernel, analysis_of_spreads hspreads⟩

end MacroScript
