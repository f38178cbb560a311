import MacroScript.Analysis
import MacroScript.Proofs.Diagnostic.Header

/-!
# Ranges of diagnostics

Every finding of every rule is placed, so **every diagnostic is about a stretch of one code line,
not empty, that ends before a trailing comment and comes back from its columns**
(`Diagnostic.IsAbout`). The diagnostics of a document are in the order of its lines
(`ranges_of_diagnose`).

Lines and columns are 32-bit words. The statements are about documents with fewer than `UInt32.size`
lines of fewer than `UInt32.size` units each, so no number wraps around.
-/
namespace MacroScript

open Text

/-! ## 1. Diagnostics of a line -/

/-- **Every finding of a line is placed**, whichever rule has found it. -/
theorem allPlaced_findings (view : RuleView) : AllPlaced view.code view.findings := by
  intro finding h
  obtain ⟨rule, -, h⟩ := List.mem_flatMap.mp h
  cases rule with
  | termination => exact allPlaced_terminator view finding h
  | declaration => exact allPlaced_declaration view finding h
  | operators => exact allPlaced_operators view finding h
  | condition => exact allPlaced_condition view finding h
  | header => exact allPlaced_header view finding h
  | loop => exact allPlaced_loop view finding h

/-- The diagnostic is about the bytes from `start` to `stop` of the line: these are boundaries of
the line in this order, within its code, and the range is theirs. It lies on the one line, its
columns are in the same order and give the bytes back, and what follows the code is a comment or
nothing. -/
structure Diagnostic.IsAbout (l : Line) (start stop : Nat) (d : Diagnostic) : Prop where
  lt : start < stop
  stop_le : stop ≤ byteSize l.code
  isBoundary_start : isBoundary start l.raw
  isBoundary_stop : isBoundary stop l.raw
  range_eq : d.range = l.range start stop
  startLine_eq : d.range.start.line.toNat = l.index
  stopLine_eq : d.range.stop.line.toNat = l.index
  column_lt : d.range.start.character < d.range.stop.character
  offsetOf_start : offsetOf l.raw d.range.start.character = start
  offsetOf_stop : offsetOf l.raw d.range.stop.character = stop
  comment : ∃ body comment, l.raw = body ++ comment ∧ byteSize body = byteSize l.code ∧
    (comment = [] ∨ ['/', '/'] <+: comment)

/-- A placed finding is a diagnostic about its span. Its ends are boundaries of the line, so the
columns give them back, and no number wraps around. -/
theorem Finding.Placed.isAbout {l : Line} {finding : Finding} (h : finding.Placed l.code)
    (hindex : l.index < UInt32.size) (hunits : utf16Length l.raw < UInt32.size) :
    (finding.inLine l).IsAbout l finding.start finding.stop := by
  have hstart := h.start.isBoundary
  have hstop := h.stop.isBoundary
  have hline : l.index.toUInt32.toNat = l.index := by
    rw [Nat.toUInt32_eq, UInt32.toNat_ofNat_of_lt' hindex]
  exact
    { lt := h.lt
      stop_le := h.stop.le
      isBoundary_start := hstart
      isBoundary_stop := hstop
      range_eq := rfl
      startLine_eq := hline
      stopLine_eq := hline
      column_lt := columnOf_lt_columnOf hunits hstart hstop h.lt
      offsetOf_start := offsetOf_columnOf hunits hstart
      offsetOf_stop := offsetOf_columnOf hunits hstop
      comment := l.aligned.exists_stop }

/-! ## 2. Diagnostics of a document -/

/-- Each code line has one view, in the order of the lines. -/
theorem map_line_ofLines (table : Symbol.Table) (previous : Option Line) (ls : List Line) :
    (RuleView.ofLines table previous ls).map RuleView.line = ls := by
  induction ls generalizing previous with
  | nil => rfl
  | cons l ls ih => rw [RuleView.ofLines, List.map_cons, ih]

/-- All rules look up names in the one table of the document, which is finished before the first of
them is run. -/
theorem table_of_mem_ofLines {table : Symbol.Table} {previous : Option Line} {ls : List Line}
    {view : RuleView} (h : view ∈ RuleView.ofLines table previous ls) : view.table = table := by
  induction ls generalizing previous with
  | nil => simp [RuleView.ofLines] at h
  | cons l ls ih =>
    rcases List.mem_cons.mp h with rfl | h
    · rfl
    · exact ih h

/-- A diagnostic comes from a placed finding on a line of code. -/
theorem Diagnostic.exists_of_mem_ofLines {lines : List Line} {table : Symbol.Table}
    {d : Diagnostic} (h : d ∈ Diagnostic.ofLines lines table) :
    ∃ l ∈ lines, l.isCode ∧ ∃ finding : Finding, finding.Placed l.code ∧ d = finding.inLine l := by
  obtain ⟨view, hview, h⟩ := List.mem_flatMap.mp h
  obtain ⟨finding, hfinding, rfl⟩ := List.mem_map.mp h
  have hline : view.line ∈ lines.filter Line.isCode := by
    rw [← map_line_ofLines table none (lines.filter Line.isCode)]
    exact List.mem_map_of_mem hview
  obtain ⟨hmem, hcode⟩ := List.mem_filter.mp hline
  exact ⟨view.line, hmem, hcode, finding, allPlaced_findings view finding hfinding, rfl⟩

/-- Diagnostics are in the order of the lines, whatever the numbers of these are. Those of one line
are not sorted. -/
theorem Diagnostic.pairwise_ofLines {lines : List Line} (table : Symbol.Table)
    (h : lines.Pairwise fun l l' => l.index.toUInt32 ≤ l'.index.toUInt32) :
    (Diagnostic.ofLines lines table).Pairwise
      fun d d' => d.range.start.line ≤ d'.range.start.line := by
  unfold Diagnostic.ofLines
  rw [List.pairwise_flatMap]
  refine ⟨fun view _ => ?_, ?_⟩
  · rw [List.pairwise_map]
    exact List.pairwise_of_forall fun finding finding' => UInt32.le_refl _
  · have hviews := h.filter Line.isCode
    rw [← map_line_ofLines table none (lines.filter Line.isCode), List.pairwise_map] at hviews
    refine hviews.imp fun hle d hd d' hd' => ?_
    obtain ⟨finding, -, rfl⟩ := List.mem_map.mp hd
    obtain ⟨finding', -, rfl⟩ := List.mem_map.mp hd'
    exact hle

/-- **The ranges of the diagnostics of a document are well formed.** Each diagnostic is about a
stretch of a line that is neither a comment nor blank, and the diagnostics are in the order of the
lines. -/
theorem ranges_of_diagnose (t : Text) (hlines : (Line.ofText t).length < UInt32.size)
    (hunits : ∀ l ∈ Line.ofText t, utf16Length l.raw < UInt32.size) :
    (∀ d ∈ diagnose t, ∃ l ∈ Line.ofText t, l.isComment = false ∧ l.isEmpty = false ∧
      ∃ start stop, d.IsAbout l start stop) ∧
    (diagnose t).Pairwise fun d d' => d.range.start.line ≤ d'.range.start.line := by
  obtain ⟨hpairwise, hbounds⟩ := Line.number_index 0 0 (List.splitOn '\n' t)
  have hindex {l : Line} (hl : l ∈ Line.ofText t) : l.index < UInt32.size := by
    have hlt := (hbounds l hl).2
    rw [Nat.zero_add] at hlt
    exact Nat.lt_trans hlt hlines
  refine ⟨fun d hd => ?_, Diagnostic.pairwise_ofLines _ ?_⟩
  · obtain ⟨l, hl, hcode, finding, hplaced, rfl⟩ := Diagnostic.exists_of_mem_ofLines hd
    rw [Line.isCode, Bool.and_eq_true, Bool.not_eq_true', Bool.not_eq_true'] at hcode
    exact ⟨l, hl, hcode.1, hcode.2, finding.start, finding.stop,
      hplaced.isAbout (hindex hl) (hunits l hl)⟩
  · refine hpairwise.imp_of_mem fun {l l'} hl hl' hlt => ?_
    rw [UInt32.le_iff_toNat_le, Nat.toUInt32_eq, Nat.toUInt32_eq,
      UInt32.toNat_ofNat_of_lt' (hindex hl), UInt32.toNat_ofNat_of_lt' (hindex hl')]
    exact Nat.le_of_lt hlt

/-- A condition after a string of characters of several bytes and before a comment, and a name with
spaces in it. -/
def strayText : Text :=
  "// x\nif (\"é😀\" =! a) // é\nvar a  b = 1;".toList

theorem ranges_of_strayText :
    (diagnose strayText).map (fun d => d.range) =
      [⟨⟨1, 0⟩, ⟨1, 15⟩⟩, ⟨⟨1, 10⟩, ⟨1, 12⟩⟩, ⟨⟨2, 5⟩, ⟨2, 6⟩⟩] ∧
    (Line.ofText strayText).length < UInt32.size ∧
    (∀ l ∈ Line.ofText strayText, utf16Length l.raw < UInt32.size) ∧
    (∀ d ∈ diagnose strayText, ∃ l ∈ Line.ofText strayText, l.isComment = false ∧
      l.isEmpty = false ∧ ∃ start stop, d.IsAbout l start stop) ∧
    (diagnose strayText).Pairwise fun d d' => d.range.start.line ≤ d'.range.start.line :=
  ⟨by decide +kernel, by decide +kernel, by decide +kernel,
    ranges_of_diagnose strayText (by decide +kernel) (by decide +kernel)⟩

end MacroScript
