import MacroScript.Proofs.Diagnostic.Renumber
import MacroScript.Proofs.Symbol.Value

/-!
# Comments take no part in the analysis

The reader of symbols and the rules go by the code of the lines. Where they turn to a line as it was
typed, for the characters of a value or for a column, the place is one of the code, in front of any
comment. So **comments can be removed, and replaced by others, and the table and the diagnostics
stay as they are** (`analysis_of_recomments`).
-/
namespace MacroScript

open Text

/-! ## 1. Views of lines that read alike -/

namespace RuleView

/-- A rule finds the same in the views of lines that read alike, since it looks at the code of the
line and of its neighbours. -/
theorem isAlike_of_readsAlike (table : Symbol.Table) {l l' : Line} (hline : l.ReadsAlike l')
    {previous previous' next next' : Option Line}
    (hprevious : Option.Rel Line.ReadsAlike previous previous')
    (hnext : Option.Rel Line.ReadsAlike next next') :
    IsAlike ⟨l, previous, next, table⟩ ⟨l', previous', next', table⟩ := by
  refine ⟨hline.code, ?_, ?_, fun name => ?_, ?_⟩
  · cases hnext with
    | none => rfl
    | some hl => exact congrArg some hl.code
  · simp only [hline.index]
  · simp only [hline.index]
  · simp only [endsDoWhile, hline.index]
    cases hprevious with
    | none => rfl
    | some hl => simp only [Option.any_some, hl.code, hl.index]

end RuleView

/-- The range of a placed finding is the same in a line that reads alike. The finding lies within
the code, where the two lines have the same columns. -/
theorem Finding.Placed.inLine_eq {l l' : Line} (h : l.ReadsAlike l') {finding : Finding}
    (hplaced : finding.Placed l.code) : finding.inLine l' = finding.inLine l := by
  simp only [inLine, Line.range, h.index, h.columnOf _ hplaced.start.le,
    h.columnOf _ hplaced.stop.le]

/-- What the rules find in lines that read alike, where the lines before them do so, too. The line
before the first is left open for the induction, which hands each line on to the next. -/
theorem flatMap_findings_eq (table : Symbol.Table) {ls ls' : List Line}
    (h : List.Forall₂ Line.ReadsAlike ls ls') {previous previous' : Option Line}
    (hprevious : Option.Rel Line.ReadsAlike previous previous') :
    ((RuleView.ofLines table previous' ls').flatMap fun view =>
        view.findings.map fun finding => finding.inLine view.line) =
      (RuleView.ofLines table previous ls).flatMap fun view =>
        view.findings.map fun finding => finding.inLine view.line := by
  induction h generalizing previous previous' with
  | nil => rfl
  | @cons l l' ls ls' hl hls ih =>
    have hnext : Option.Rel Line.ReadsAlike ls.head? ls'.head? := by
      cases hls with
      | nil => exact .none
      | cons hnext _ => exact .some hnext
    have hview := RuleView.isAlike_of_readsAlike table hl hprevious hnext
    rw [RuleView.ofLines, RuleView.ofLines, List.flatMap_cons, List.flatMap_cons, ih (.some hl),
      hview.findings_eq]
    congr 1
    refine List.map_congr_left fun finding hfinding => ?_
    exact (allPlaced_findings ⟨l, previous, ls.head?, table⟩ finding hfinding).inLine_eq hl

/-! ## 2. Documents of lines that read alike -/

/-- The reader is in the same state after lines that read alike, whichever state it set out from. -/
theorem Collector.foldl_readLine_eq {ls ls' : List Line} (h : List.Forall₂ Line.ReadsAlike ls ls')
    (c : Collector) : ls'.foldl readLine c = ls.foldl readLine c := by
  induction h generalizing c with
  | nil => rfl
  | cons hl hls ih => rw [List.foldl_cons, List.foldl_cons, hl.readLine, ih]

/-- **Comments take no part in the analysis.** Where on some lines of a list the comment is removed,
or replaced by another, the table is the same one, with the values that it holds, and so are the
diagnostics, with their ranges and in their order. -/
theorem analysis_of_recomments {lines lines' : List Line}
    (h : List.Forall₂ Line.Recomments lines lines') :
    Symbol.Table.ofLines lines' = Symbol.Table.ofLines lines ∧
      ∀ table, Diagnostic.ofLines lines' table = Diagnostic.ofLines lines table := by
  have halike : List.Forall₂ Line.ReadsAlike lines lines' := h.imp fun _ _ hl => hl.readsAlike
  have hcode := List.rel_filter (p := Line.isCode) (q := Line.isCode)
    (fun l l' hl => iff_of_eq (congrArg (· = true) hl.isCode.symm)) halike
  refine ⟨congrArg Collector.table (Collector.foldl_readLine_eq hcode {}), fun table => ?_⟩
  exact flatMap_findings_eq table hcode .none

/-- A string that holds slashes, a comment that holds a quote, and a line with a comment only. -/
def commentedLines : List Line :=
  [⟨0, 0, "var s = \"//\" // a \"".toList⟩, ⟨1, 19, "  // only".toList⟩,
    ⟨2, 29, "s = s;//x = 1".toList⟩]

/-- The lines with the first comment replaced by a longer one and the others removed. -/
def recommentedLines : List Line :=
  [⟨0, 0, "var s = \"//\" ///* é */; \x7b".toList⟩, ⟨1, 27, "  ".toList⟩, ⟨2, 30, "s = s;".toList⟩]

theorem analysis_of_recommentedLines :
    List.Forall₂ Line.Recomments commentedLines recommentedLines ∧
      (Symbol.Table.ofLines commentedLines).symbols.map (fun s => s.declaredValue) =
        ["\"//\"".toList] ∧
      (Diagnostic.ofLines commentedLines (Symbol.Table.ofLines commentedLines)).length = 2 ∧
      Symbol.Table.ofLines recommentedLines = Symbol.Table.ofLines commentedLines ∧
      ∀ table, Diagnostic.ofLines recommentedLines table =
        Diagnostic.ofLines commentedLines table := by
  have hlines : List.Forall₂ Line.Recomments commentedLines recommentedLines := by
    refine .cons ?_ (.cons ?_ (.cons ?_ .nil))
    · exact .replaced ⟨0, 0, "var s = \"//\" // a \"".toList⟩ 0 "///* é */; \x7b".toList
        (by decide +kernel) (by decide +kernel)
    · exact .removed ⟨1, 19, "  // only".toList⟩ 27 (by decide +kernel)
    · exact .removed ⟨2, 29, "s = s;//x = 1".toList⟩ 30 (by decide +kernel)
  exact ⟨hlines, by decide +kernel, by decide +kernel, analysis_of_recomments hlines⟩

end MacroScript
