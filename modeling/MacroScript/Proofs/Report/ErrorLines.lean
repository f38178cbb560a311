import MacroScript.Encoding
import MacroScript.Proofs.Diagnostic.Issue
import Mathlib.Data.List.Basic

/-!
# The lines of the error report

The report on the errors of a document is their messages, each behind its position, joined by line
feeds. A message can hold a line feed of its own: the advice on five foreign operators goes over two
lines, and no other message does (`Issue.isOneLine_message`). So **the report has a line for each
error exactly if none of the errors is about one of the five operators** (`one_line_per_error_iff`),
and otherwise one more line for each that is.
-/
namespace MacroScript

/-! ## 1. Lines -/

namespace Text

/-- The parts of texts joined by the separator are the parts of the texts. With no texts there would
still be one part, an empty one. -/
theorem splitOn_intercalate (sep : Char) {ts : List Text} (h : ts ≠ []) :
    List.splitOn sep (List.intercalate [sep] ts) = ts.flatMap (List.splitOn sep) := by
  induction ts with
  | nil => exact absurd rfl h
  | cons t ts ih =>
    cases ts with
    | nil => simp
    | cons next ts =>
      rw [List.intercalate_cons_cons, List.append_assoc, List.singleton_append,
        List.splitOn_append_cons_self, ih (by simp), List.flatMap_cons (x := t)]

/-- There is one part more than there are separators. -/
theorem length_splitOn (sep : Char) (t : Text) :
    (List.splitOn sep t).length = t.count sep + 1 := by
  induction t with
  | nil => rfl
  | cons c cs ih =>
    rw [splitOn_cons]
    split
    · next hc => simp [hc, ih]
    · next hc => simp [hc, ih]

end Text

/-! ## 2. Messages -/

/-- The string goes over one line. -/
def IsOneLine (s : String) : Prop :=
  '\n' ∉ s.toList

namespace IsOneLine

/-- A string literal is the list of its characters, which is looked through without decoding it.
(Evaluating the string itself is slow.) -/
theorem literal {cs : List Char} (h : cs.all (· != '\n')) : IsOneLine (String.ofList cs) := by
  rw [IsOneLine, String.toList_ofList]
  intro hmem
  simpa using List.all_eq_true.mp h _ hmem

theorem append {s t : String} (hs : IsOneLine s) (ht : IsOneLine t) : IsOneLine (s ++ t) := by
  rw [IsOneLine, String.toList_append, List.mem_append, not_or]
  exact ⟨hs, ht⟩

end IsOneLine

/-- The foreign operators whose advice goes over two lines: those that combine an assignment with
another operator. -/
def wordyOperators : List ForeignOperator :=
  [.plusEquals, .minusEquals, .powerEquals, .timesEquals, .overEquals]

theorem ForeignOperator.count_advice {operator : ForeignOperator} (h : operator ∈ wordyOperators) :
    operator.advice.toList.count '\n' = 1 := by
  have hcount {cs ds : List Char} (h : (cs ++ ds).count '\n' = 1) :
      (String.ofList cs ++ String.ofList ds).toList.count '\n' = 1 := by
    rwa [String.toList_append, String.toList_ofList, String.toList_ofList]
  simp only [wordyOperators, List.mem_cons, List.not_mem_nil, or_false] at h
  rcases h with rfl | rfl | rfl | rfl | rfl <;> exact hcount rfl

theorem ForeignOperator.isOneLine_advice {operator : ForeignOperator}
    (h : operator ∉ wordyOperators) : IsOneLine operator.advice := by
  cases operator with
  | plusEquals | minusEquals | powerEquals | timesEquals | overEquals => exact absurd h (by decide)
  | _ => exact .literal rfl

/-- An operator that is quoted is one of the language, and so it is on one line. -/
theorem mem_comparisonOperators_of_mem_issues {rule : Rule} {operator : Text}
    (h : .missingOperand operator ∈ rule.issues) : operator ∈ comparisonOperators := by
  cases rule <;> simp [Rule.issues, conditionIssues, valueIssues] at h <;> exact h

/-- A separator that is quoted is one of two words. -/
theorem eq_of_wrongSeparator_mem_issues {rule : Rule} {word : Text}
    (h : .wrongSeparator word ∈ rule.issues) : word = "of".toList ∨ word = "in".toList := by
  cases rule <;> simp [Rule.issues, conditionIssues, valueIssues] at h
  exact h

/-- **Whatever a rule says, it says it on one line**, unless it gives advice on one of the five
operators. The issues are gone through; those that quote the document quote one of a few words. -/
theorem Issue.isOneLine_message {rule : Rule} {issue : Issue} (h : issue ∈ rule.issues)
    (hplain : ∀ operator ∈ wordyOperators, issue ≠ .foreignOperator operator) :
    IsOneLine issue.message := by
  cases issue with
  | foreignOperator operator =>
    exact ForeignOperator.isOneLine_advice fun hmem => hplain operator hmem rfl
  | missingOperand operator =>
    have hword : ∀ operator ∈ comparisonOperators, operator.all (· != '\n') := by decide
    have hone := IsOneLine.literal (hword operator (mem_comparisonOperators_of_mem_issues h))
    exact ((IsOneLine.literal rfl).append hone).append (.literal rfl)
  | wrongSeparator word =>
    have hone : IsOneLine (String.ofList word) := by
      rcases eq_of_wrongSeparator_mem_issues h with rfl | rfl <;> exact .literal rfl
    exact ((IsOneLine.literal rfl).append hone).append (.literal rfl)
  | variableName | unknownValue => exact (IsOneLine.literal rfl).append (.literal rfl)
  | skippedName header =>
    cases header <;> exact ((IsOneLine.literal rfl).append (.literal rfl)).append (.literal rfl)
  | headerName header =>
    cases header <;>
      exact (((IsOneLine.literal rfl).append (.literal rfl)).append (.literal rfl)).append
        (.literal rfl)
  | alwaysTrue site | alwaysFalse site | singleEquals site =>
    cases site <;> exact .literal rfl
  | _ => exact .literal rfl

/-- The diagnostic is the advice on one of the five operators. It is known by its message, which is
all that is left of the issue. -/
def Diagnostic.isWordy (d : Diagnostic) : Bool :=
  wordyOperators.any fun operator => d.message = operator.advice

/-- The line feeds in a message: one in an advice on the five operators, and none otherwise. -/
theorem Diagnostic.count_message {t : Text} {d : Diagnostic} (h : d ∈ diagnose t) :
    d.message.toList.count '\n' = if d.isWordy then 1 else 0 := by
  obtain ⟨view, -, h⟩ := List.mem_flatMap.mp h
  obtain ⟨f, hf, rfl⟩ := List.mem_map.mp h
  obtain ⟨rule, -, hf⟩ := List.mem_flatMap.mp hf
  split
  · next hwordy =>
    obtain ⟨operator, hmem, hadvice⟩ := List.any_eq_true.mp hwordy
    rw [of_decide_eq_true hadvice, ForeignOperator.count_advice hmem]
  · next hwordy =>
    refine List.count_eq_zero.mpr (Issue.isOneLine_message (Rule.issue_mem hf) ?_)
    rintro operator hmem hissue
    refine hwordy (List.any_eq_true.mpr ⟨operator, hmem, decide_eq_true ?_⟩)
    simp only [Finding.inLine, hissue]
    rfl

theorem newline_not_mem_toDigits (n : Nat) : '\n' ∉ Nat.toDigits 10 n := by
  intro h
  exact absurd (Nat.isDigit_of_mem_toDigits (by decide) (by decide) h) (by decide)

/-- The position and the words before it add no line, as numbers are written in digits. -/
theorem Report.count_errorLine (d : Diagnostic) :
    (errorLine d).toList.count '\n' = d.message.toList.count '\n' := by
  have hnumber (n : Nat) := List.count_eq_zero.mpr (newline_not_mem_toDigits n)
  simp [errorLine, Position.display, hnumber]

/-! ## 3. The report -/

/-- The errors of a document, in order. -/
def errorsOf (t : Text) : List Diagnostic :=
  (diagnose t).filter fun d => d.severity = .error

/-- The lines of the report on the errors of a document. -/
def errorReportLines (t : Text) : List Text :=
  List.splitOn '\n' (Report.render (Analysis.ofText t) true).toList

/-- The report has the lines of each error, one error after the other. -/
theorem errorReportLines_eq (t : Text) :
    errorReportLines t =
      if errorsOf t = [] then ["No errors found".toList]
      else (errorsOf t).flatMap fun d => List.splitOn '\n' (Report.errorLine d).toList := by
  have hrender : Report.render (Analysis.ofText t) true =
      if errorsOf t = [] then "No errors found"
      else String.intercalate "\n" ((errorsOf t).map Report.errorLine) := by
    rw [Report.render, if_pos rfl, Report.errors]
    simp [errorsOf, diagnose, List.filter_eq_nil_iff]
  rw [errorReportLines, hrender]
  split
  · exact List.splitOn_eq_singleton (by decide)
  · next hne =>
    rw [String.toList_intercalate, List.map_map]
    have hmap : (errorsOf t).map (String.toList ∘ Report.errorLine) ≠ [] := by
      simpa using hne
    exact (Text.splitOn_intercalate '\n' hmap).trans (List.flatMap_map ..)

/-- So an error has one line, or two. -/
theorem length_errorLine {t : Text} {d : Diagnostic} (h : d ∈ errorsOf t) :
    (List.splitOn '\n' (Report.errorLine d).toList).length = if d.isWordy then 2 else 1 := by
  rw [Text.length_splitOn, Report.count_errorLine,
    Diagnostic.count_message (List.mem_of_mem_filter h)]
  split <;> rfl

/-- An error has a line feed in its line if and only if it is the advice on one of the operators. -/
theorem newline_mem_errorLine_iff {t : Text} {d : Diagnostic} (h : d ∈ errorsOf t) :
    '\n' ∈ (Report.errorLine d).toList ↔ d.isWordy := by
  rw [← List.count_pos_iff, Report.count_errorLine,
    Diagnostic.count_message (List.mem_of_mem_filter h)]
  split <;> simp_all

/-- **The lines of the error report.** The report on a document without errors is one line. Any
other has the lines of the errors in their order: one for each, or two if it is the advice on one of
five operators. So there is the line `Line L:C: message` for each error, and no other line, if and
only if no error is such an advice. -/
theorem one_line_per_error_iff (t : Text) :
    (errorReportLines t =
      if errorsOf t = [] then ["No errors found".toList]
      else (errorsOf t).flatMap fun d => List.splitOn '\n' (Report.errorLine d).toList) ∧
    (∀ d ∈ errorsOf t,
      (List.splitOn '\n' (Report.errorLine d).toList).length = if d.isWordy then 2 else 1) ∧
    ((errorReportLines t =
      if errorsOf t = [] then ["No errors found".toList]
      else (errorsOf t).map fun d => ("Line " ++ toString (d.range.start.line.toNat + 1) ++ ":" ++
        toString (d.range.start.character.toNat + 1) ++ ": " ++ d.message).toList) ↔
      ∀ d ∈ errorsOf t, d.isWordy = false) := by
  have hline (d : Diagnostic) : "Line " ++ toString (d.range.start.line.toNat + 1) ++ ":" ++
      toString (d.range.start.character.toNat + 1) ++ ": " ++ d.message = Report.errorLine d := by
    simp [Report.errorLine, Position.display, String.append_assoc]
  simp only [hline]
  refine ⟨errorReportLines_eq t, fun d hd => length_errorLine hd, fun hlines d hd => ?_,
    fun hplain => ?_⟩
  · -- a line of the report holds no line feed
    have hmem : (Report.errorLine d).toList ∈ errorReportLines t := by
      rw [hlines, if_neg (List.ne_nil_of_mem hd)]
      exact List.mem_map_of_mem hd
    have hnot := Text.not_mem_of_mem_splitOn hmem
    rwa [newline_mem_errorLine_iff hd, Bool.not_eq_true] at hnot
  · have hsingle : ∀ d ∈ errorsOf t,
        List.splitOn '\n' (Report.errorLine d).toList = [(Report.errorLine d).toList] := by
      intro d hd
      refine List.splitOn_eq_singleton ?_
      rw [newline_mem_errorLine_iff hd, hplain d hd]
      decide
    rw [errorReportLines_eq, List.flatMap_congr hsingle, List.map_eq_flatMap]

/-- A line with one of the five operators. -/
def incrementText : Text :=
  "i += 1;".toList

/-- The error about the operator. -/
def incrementError : Diagnostic :=
  ⟨⟨⟨0, 2⟩, ⟨0, 4⟩⟩, .error, ForeignOperator.plusEquals.advice⟩

theorem errorsOf_incrementText : errorsOf incrementText = [incrementError] := by
  decide +kernel

/-- **One error, two lines.** -/
theorem two_lines_for_one_error :
    (errorsOf incrementText).length = 1 ∧ (errorReportLines incrementText).length = 2 := by
  have herrors := errorsOf_incrementText
  have hmem : incrementError ∈ errorsOf incrementText := by
    rw [herrors]
    exact List.mem_singleton_self _
  have hwordy : incrementError.isWordy :=
    List.any_eq_true.mpr ⟨.plusEquals, by decide, decide_eq_true rfl⟩
  refine ⟨by rw [herrors]; rfl, ?_⟩
  rw [errorReportLines_eq, if_neg (List.ne_nil_of_mem hmem), herrors, List.flatMap_singleton,
    length_errorLine hmem, if_pos hwordy]

end MacroScript
