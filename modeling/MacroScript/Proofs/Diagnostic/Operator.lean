import MacroScript.Proofs.Diagnostic.Issue

/-!
# Foreign operators

An operator token is a run of operator characters, so foreign operators can overlap in it and
contain each other, as `--` and `-=` do in `--=`. The operators are looked for one after the other,
and one that overlaps what was reported before is passed over.

What is reported after each operator is described by `ReportsOf`, which one step keeps
(`ReportsOf.step`) and therefore the whole search (`ReportsOf.run`): the reports are exact and apart
from each other, and **an operator that is not reported is hidden by the others wherever it
occurs**. So nothing is lost: a line with a foreign operator in it gets a report
(`foreign_operators_reported`).
-/
namespace MacroScript

open Text

/-! ## 1. Occurrences -/

/-- Where a word is to be found, the search finds it somewhere. It may pass over an occurrence that
overlaps an earlier one, but not over the first. -/
theorem Text.occurrencesFrom_ne_nil {needle t : Text} (hne : needle ≠ []) (h : needle <:+: t)
    (offset : Nat) : occurrencesFrom needle offset 0 t ≠ [] := by
  induction t generalizing offset with
  | nil => exact absurd (List.infix_nil.mp h) hne
  | cons c cs ih =>
    rw [occurrencesFrom]
    rcases List.infix_cons_iff.mp h with hprefix | hlater
    · simp [List.isPrefixOf_iff_prefix.mpr hprefix]
    · split
      · simp
      · exact ih hlater _

/-- The operator occurs in an operator token. -/
theorem mem_foreignOccurrences {tokens : List Token} {operator : ForeignOperator} {n : Nat} :
    n ∈ foreignOccurrences tokens operator ↔ ∃ t ∈ tokens, t.kind = .operator ∧
      ∃ k ∈ occurrences operator.spelling.toList t.text, t.offset + k = n := by
  simp [foreignOccurrences, and_assoc]

/-! ## 2. One operator after the other -/

/-- The two findings have no byte in common and are about different operators. -/
def Finding.IsApart (f g : Finding) : Prop :=
  (f.stop ≤ g.start ∨ g.stop ≤ f.start) ∧ f.issue ≠ g.issue

/-- What is reported when the operators `done` have been looked for. Each report is an occurrence of
one of them, the reports are apart from each other, and the occurrences of an operator without a
report overlap the reports. The last condition is the one that makes sure that nothing is lost. -/
structure ReportsOf (tokens : List Token) (done : List ForeignOperator)
    (reported : List Finding) : Prop where
  occurs : ∀ f ∈ reported, ∃ operator ∈ done, ∃ start ∈ foreignOccurrences tokens operator,
    f = ⟨start, start + byteSize operator.spelling.toList, .foreignOperator operator⟩
  apart : reported.Pairwise Finding.IsApart
  hidden : ∀ operator ∈ done, (∀ f ∈ reported, f.issue ≠ .foreignOperator operator) →
    ∀ start ∈ foreignOccurrences tokens operator, ∃ f ∈ reported,
      overlaps start (start + byteSize operator.spelling.toList) f

namespace ReportsOf

variable {tokens : List Token} {done : List ForeignOperator} {reported : List Finding}

/-- Nothing has been looked for, and nothing is reported. -/
theorem nil (tokens : List Token) : ReportsOf tokens [] [] := by
  refine ⟨?_, .nil, ?_⟩ <;> simp

/-- **Looking for one more operator** keeps the description, with the operator among those done.
Either all of its occurrences overlap earlier reports, or the first one that does not is reported.
-/
theorem step (h : ReportsOf tokens done reported) {operator : ForeignOperator}
    (hnew : operator ∉ done) :
    ReportsOf tokens (done ++ [operator])
      (reported ++ (foreignFinding? tokens reported operator).toList) := by
  rw [foreignFinding?]
  cases hfree : (foreignOccurrences tokens operator).find? fun start =>
      !reported.any (overlaps start (start + byteSize operator.spelling.toList)) with
  | none =>
    -- every occurrence is hidden, and nothing is added
    rw [Option.map_none, Option.toList_none, List.append_nil]
    refine ⟨fun f hf => ?_, h.apart, fun other hother hsilent start hstart => ?_⟩
    · obtain ⟨op, hop, hspan⟩ := h.occurs f hf
      exact ⟨op, List.mem_append_left _ hop, hspan⟩
    · rcases List.mem_append.mp hother with hother | hother
      · exact h.hidden other hother hsilent start hstart
      · rw [List.mem_singleton.mp hother] at hstart ⊢
        have hany := List.find?_eq_none.mp hfree start hstart
        simpa using hany
  | some start =>
    have hmem := List.mem_of_find?_eq_some hfree
    have hclear : ∀ g ∈ reported,
        overlaps start (start + byteSize operator.spelling.toList) g = false := by
      simpa using List.find?_some hfree
    rw [Option.map_some, Option.toList_some]
    refine ⟨fun f hf => ?_, ?_, fun other hother hsilent start' hstart' => ?_⟩
    · rcases List.mem_append.mp hf with hf | hf
      · obtain ⟨op, hop, hspan⟩ := h.occurs f hf
        exact ⟨op, List.mem_append_left _ hop, hspan⟩
      · exact ⟨operator, by simp, start, hmem, List.mem_singleton.mp hf⟩
    · refine List.pairwise_append.mpr ⟨h.apart, List.pairwise_singleton _ _, fun g hg f hf => ?_⟩
      rw [List.mem_singleton.mp hf]
      refine ⟨?_, ?_⟩
      · have hg := hclear g hg
        simp only [overlaps, Bool.and_eq_false_iff, decide_eq_false_iff_not] at hg
        simp only
        omega
      · obtain ⟨op, hop, -, -, rfl⟩ := h.occurs g hg
        rintro ⟨⟩
        exact hnew hop
    · rcases List.mem_append.mp hother with hother | hother
      · have hsilent' := fun f hf => hsilent f (List.mem_append_left _ hf)
        obtain ⟨f, hf, hover⟩ := h.hidden other hother hsilent' start' hstart'
        exact ⟨f, List.mem_append_left _ hf, hover⟩
      · -- the operator itself has its report
        rw [List.mem_singleton.mp hother] at hsilent
        exact absurd rfl (hsilent _ (List.mem_append_right _ (List.mem_singleton_self _)))

/-- **Looking for the operators of a list** describes what is reported in the end, by induction on
the list. No operator may be looked for twice, since each has one report at most. -/
theorem run (h : ReportsOf tokens done reported) {operators : List ForeignOperator}
    (hnodup : (done ++ operators).Nodup) :
    ReportsOf tokens (done ++ operators) (foreignFindings tokens reported operators) := by
  induction operators generalizing done reported with
  | nil => rwa [List.append_nil]
  | cons operator operators ih =>
    have hnew : operator ∉ done := fun hmem =>
      (List.nodup_append.mp hnodup).2.2 operator hmem operator List.mem_cons_self rfl
    have hassoc : done ++ operator :: operators = done ++ [operator] ++ operators := by simp
    rw [hassoc] at hnodup ⊢
    exact ih (h.step hnew) hnodup

end ReportsOf

/-! ## 3. The reports of a line -/

/-- The issue is about an operator of another language. -/
def Issue.isForeignOperator : Issue → Bool
  | foreignOperator _ => true
  | _ => false

/-- What is said about foreign operators in a line, by all rules together. -/
def RuleView.foreignReports (view : RuleView) : List Finding :=
  view.findings.filter fun f => f.issue.isForeignOperator

/-- Only one rule speaks of foreign operators, as the lists of the others show. -/
theorem Rule.filter_isForeignOperator {rule : Rule} (hrule : rule ≠ .operators)
    (view : RuleView) : (rule.findings view).filter (fun f => f.issue.isForeignOperator) = [] := by
  have hlists : ∀ issue ∈ rule.issues, issue.isForeignOperator = false := by
    cases rule with
    | operators => exact absurd rfl hrule
    | _ => decide
  rw [List.filter_eq_nil_iff]
  intro f hf
  simp [hlists f.issue (Rule.issue_mem hf)]

theorem filter_operatorFindings (view : RuleView) :
    (operatorFindings view).filter (fun f => f.issue.isForeignOperator) =
      foreignFindings view.tokens [] ForeignOperator.all := by
  have hforeign : (foreignFindings view.tokens [] ForeignOperator.all).filter
        (fun f => f.issue.isForeignOperator) =
      foreignFindings view.tokens [] ForeignOperator.all := by
    rw [List.filter_eq_self]
    intro f hf
    rcases foreignFindings_issue hf with hnil | ⟨operator, hissue⟩
    · simp at hnil
    · rw [hissue]
      rfl
  rw [operatorFindings, List.filter_append, hforeign]
  split <;> simp [Issue.isForeignOperator]

/-- So the reports of all rules together are what the search finds. -/
theorem RuleView.foreignReports_eq (view : RuleView) :
    view.foreignReports = foreignFindings view.tokens [] ForeignOperator.all := by
  have hother (rule : Rule) (hrule : rule ≠ .operators) :=
    Rule.filter_isForeignOperator hrule view
  simp only [foreignReports, findings, Rule.all, List.flatMap_cons, List.flatMap_nil,
    List.filter_append, List.filter_nil]
  rw [hother .termination (by decide), hother .declaration (by decide),
    hother .condition (by decide), hother .header (by decide), hother .loop (by decide)]
  simpa [Rule.findings] using filter_operatorFindings view

theorem RuleView.reportsOf_foreignReports (view : RuleView) :
    ReportsOf view.tokens ForeignOperator.all view.foreignReports := by
  rw [foreignReports_eq]
  exact (ReportsOf.nil view.tokens).run (by decide)

theorem ne_space_of_mem_spelling (operator : ForeignOperator) :
    operator.spelling.toList ≠ [] ∧ ∀ c ∈ operator.spelling.toList, c ≠ ' ' := by
  have hall : operator.spelling.toList ≠ [] ∧ operator.spelling.toList.all (· != ' ') := by
    cases operator <;> decide
  refine ⟨hall.1, fun c hc => ?_⟩
  simpa using List.all_eq_true.mp hall.2 c hc

/-- An occurrence in a token is a stretch of the code and of the line, within the token. An operator
has no space in it, so it stands in the line as it does in the code. -/
theorem standsAt_occurrence {view : RuleView} {operator : ForeignOperator} {t : Token} {k : Nat}
    (ht : t ∈ view.tokens) (hk : k ∈ occurrences operator.spelling.toList t.text) :
    StandsAt view.code (t.offset + k) operator.spelling.toList ∧
      StandsAt view.line.raw (t.offset + k) operator.spelling.toList ∧
      t.offset + k + byteSize operator.spelling.toList ≤ t.stop := by
  obtain ⟨hne, hspace⟩ := ne_space_of_mem_spelling operator
  have hstands := (standsAt_token ht).trans (standsAt_of_mem_occurrences hk)
  have hle := (standsAt_of_mem_occurrences hk).stop_le
  refine ⟨hstands, view.line.aligned.standsAt hstands hne hspace, ?_⟩
  rw [Token.stop]
  omega

/-- **Foreign operators are reported exactly, apart from each other, and whenever there are any.**
Each report is about a single operator token and covers just the text of its operator, as the line
was typed. No two reports overlap or are about the same operator. There is a report if and only if
an operator token holds a foreign operator, and where an operator has no report of its own, others
overlap each of its occurrences. -/
theorem foreign_operators_reported (view : RuleView) :
    (∀ f ∈ view.foreignReports, ∃ operator, f.issue = .foreignOperator operator ∧
      f.issue.severity = .error ∧
      (∃ t ∈ view.tokens, t.kind = .operator ∧ t.offset ≤ f.start ∧ f.stop ≤ t.stop) ∧
      slice? f.start f.stop view.code = some operator.spelling.toList ∧
      slice? f.start f.stop view.line.raw = some operator.spelling.toList) ∧
    view.foreignReports.Pairwise (fun f g =>
      (f.stop ≤ g.start ∨ g.stop ≤ f.start) ∧ f.issue ≠ g.issue) ∧
    (view.foreignReports ≠ [] ↔ ∃ t ∈ view.tokens, t.kind = .operator ∧
      ∃ operator : ForeignOperator, operator.spelling.toList <:+: t.text) ∧
    ∀ operator, (∀ f ∈ view.foreignReports, f.issue ≠ .foreignOperator operator) →
      ∀ t ∈ view.tokens, t.kind = .operator →
        ∀ k ∈ occurrences operator.spelling.toList t.text, ∃ f ∈ view.foreignReports,
          t.offset + k < f.stop ∧
            f.start < t.offset + k + byteSize operator.spelling.toList := by
  have hreports := view.reportsOf_foreignReports
  have hhidden : ∀ operator, (∀ f ∈ view.foreignReports, f.issue ≠ .foreignOperator operator) →
      ∀ t ∈ view.tokens, t.kind = .operator →
        ∀ k ∈ occurrences operator.spelling.toList t.text, ∃ f ∈ view.foreignReports,
          t.offset + k < f.stop ∧
            f.start < t.offset + k + byteSize operator.spelling.toList := by
    intro operator hsilent t ht hkind k hk
    obtain ⟨f, hf, hover⟩ := hreports.hidden operator operator.mem_all hsilent _
      (mem_foreignOccurrences.mpr ⟨t, ht, hkind, k, hk, rfl⟩)
    rw [overlaps, Bool.and_eq_true, decide_eq_true_eq, decide_eq_true_eq] at hover
    exact ⟨f, hf, hover⟩
  refine ⟨fun f hf => ?_, hreports.apart, ⟨fun hne => ?_, ?_⟩, hhidden⟩
  · obtain ⟨operator, -, start, hstart, rfl⟩ := hreports.occurs f hf
    obtain ⟨t, ht, hkind, k, hk, rfl⟩ := mem_foreignOccurrences.mp hstart
    obtain ⟨hcode, hraw, hstop⟩ := standsAt_occurrence ht hk
    exact ⟨operator, rfl, rfl, ⟨t, ht, hkind, Nat.le_add_right _ _, hstop⟩, hcode.slice?_eq,
      hraw.slice?_eq⟩
  · obtain ⟨f, hf⟩ := List.exists_mem_of_ne_nil _ hne
    obtain ⟨operator, -, start, hstart, rfl⟩ := hreports.occurs f hf
    obtain ⟨t, ht, hkind, k, hk, rfl⟩ := mem_foreignOccurrences.mp hstart
    obtain ⟨front, back, htext, -⟩ := standsAt_of_mem_occurrences hk
    exact ⟨t, ht, hkind, operator, front, back, htext.symm⟩
  · rintro ⟨t, ht, hkind, operator, hinfix⟩ hnil
    -- an operator that is there is reported, or another one that hides it
    obtain ⟨k, hk⟩ := List.exists_mem_of_ne_nil _
      (occurrencesFrom_ne_nil (ne_space_of_mem_spelling operator).1 hinfix 0)
    obtain ⟨f, hf, -⟩ := hhidden operator (by simp [hnil]) t ht hkind k hk
    simp [hnil] at hf

/-- A line in which `-=` hides `--`, and `+=` is found before `++`. -/
def fusedView : RuleView :=
  ⟨⟨0, 0, "x --= y+++=\"==\";".toList⟩, none, none, {}⟩

/-- Three operators are reported, and the fourth is overlapped by one of them. -/
theorem foreign_operators_in_fusedView :
    fusedView.foreignReports =
      [⟨9, 11, .foreignOperator .plusEquals⟩, ⟨3, 5, .foreignOperator .minusEquals⟩,
        ⟨7, 9, .foreignOperator .increment⟩] ∧
    ∃ f ∈ fusedView.foreignReports, 2 < f.stop ∧ f.start < 4 := by
  have hreports : fusedView.foreignReports =
      [⟨9, 11, .foreignOperator .plusEquals⟩, ⟨3, 5, .foreignOperator .minusEquals⟩,
        ⟨7, 9, .foreignOperator .increment⟩] := by
    rw [RuleView.foreignReports_eq]
    decide +kernel
  have hhidden := (foreign_operators_reported fusedView).2.2.2 .decrement
    (by rw [hreports]; decide) ⟨.operator, "--=".toList, 2⟩ (by decide +kernel) rfl 0
    (by decide +kernel)
  exact ⟨hreports, hhidden⟩

end MacroScript
