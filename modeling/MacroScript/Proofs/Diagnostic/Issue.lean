import MacroScript.Proofs.Diagnostic.Placement
import Mathlib.Tactic.SplitIfs

/-!
# What the rules can say

Each rule raises issues out of a list of its own (`Rule.issues`). The lists are finite: an issue
that quotes the document quotes a comparison operator or the separator `of` or `in`, since nothing
else leads to it. So **a fact about all that can be said of a document is a fact about the entries
of six lists** (`Rule.issue_mem`), whatever the document is.
-/
namespace MacroScript

/-! ## 1. The lists -/

/-- What can be said about the value of a `var` statement. -/
def valueIssues : List Issue :=
  [.missingValue, .objectValue, .functionValue, .undefinedValue, .singleQuotedValue, .unknownValue]

/-- What can be said about a condition. An operator that lacks an operand is quoted, and there are
as many of these as there are operators. -/
def conditionIssues (site : ConditionSite) : List Issue :=
  [.alwaysTrue site, .alwaysFalse site, .singleEquals site, .bangGreater, .bangLess, .equalsBang,
    .trailingBang, .selfComparison] ++ comparisonOperators.map .missingOperand

/-- What a rule can say. An issue with a parameter stands there once for each value that the
parameter can have. -/
def Rule.issues : Rule → List Issue
  | termination => [.missingSemicolon]
  | declaration =>
    [.loneVar, .letKeyword, .constKeyword, .variableName, .selfDeclaration, .selfAssignment,
      .undeclaredAssignment] ++ valueIssues
  | operators => .foreignQuotes :: ForeignOperator.all.map .foreignOperator
  | condition =>
    [.missingBraces, .emptyCondition] ++ conditionIssues .branch ++ conditionIssues .whileLoop
  | header =>
    [.functionKeyword, .loneHeader, .missingBlock, .skippedName .function,
      .skippedName .classDefinition, .headerName .function, .headerName .classDefinition]
  | loop =>
    [.loneFor, .missingClauses, .wrongSeparator "of".toList, .wrongSeparator "in".toList,
      .undeclaredLoopVariable, .doubledSemicolon, .trailingSemicolon, .tooManyClauses,
      .skippedDeclaration, .missingBlock, .variableName] ++ valueIssues ++
      conditionIssues .forClause

theorem ForeignOperator.mem_all (operator : ForeignOperator) : operator ∈ all := by
  cases operator <;> decide

/-! ## 2. Parts of the rules -/

section Parts

variable {view : RuleView} {f : Finding}

theorem issue_of_mem_singleton {start stop : Nat} {issue : Issue} {issues : List Issue}
    (h : f ∈ [⟨start, stop, issue⟩]) (hissue : issue ∈ issues) : f.issue ∈ issues := by
  rwa [List.mem_singleton.mp h]

/-- The search adds to what was reported before, and adds nothing but foreign operators. -/
theorem foreignFindings_issue {tokens : List Token} {operators : List ForeignOperator}
    {reported : List Finding} {f : Finding} (h : f ∈ foreignFindings tokens reported operators) :
    f ∈ reported ∨ ∃ operator, f.issue = .foreignOperator operator := by
  induction operators generalizing reported with
  | nil => exact .inl h
  | cons operator operators ih =>
    rcases ih h with hmem | hissue
    · rcases List.mem_append.mp hmem with hmem | hmem
      · exact .inl hmem
      · obtain ⟨start, -, rfl⟩ := Option.map_eq_some_iff.mp (Option.mem_toList.mp hmem)
        exact .inr ⟨operator, rfl⟩
    · exact .inr hissue

theorem issue_of_mem_terminatorFindings (h : f ∈ terminatorFindings view) :
    f.issue = .missingSemicolon := by
  unfold terminatorFindings at h
  split at h
  · simp at h
  · rw [List.mem_singleton.mp h]

theorem issue_of_mem_operatorFindings (h : f ∈ operatorFindings view) :
    f.issue ∈ Rule.operators.issues := by
  rcases List.mem_append.mp h with h | h
  · rcases foreignFindings_issue h with hnil | ⟨operator, hissue⟩
    · simp at hnil
    · rw [hissue]
      exact List.mem_cons_of_mem _ (List.mem_map_of_mem operator.mem_all)
  · split at h
    · exact issue_of_mem_singleton h List.mem_cons_self
    · simp at h

theorem issue_of_mem_loneVarFindings {code : Text} (h : f ∈ loneVarFindings code) :
    f.issue = .loneVar := by
  unfold loneVarFindings at h
  split at h
  · rw [List.mem_singleton.mp h]
  · simp at h

theorem issue_of_mem_keywordFindings {keyword code : Text} {issue : Issue}
    (h : f ∈ keywordFindings keyword issue code) : f.issue = issue := by
  unfold keywordFindings at h
  split at h
  · rw [List.mem_singleton.mp h]
  · simp at h

theorem issue_of_mem_selfCopyFindings (h : f ∈ selfCopyFindings view) :
    f.issue ∈ [.selfDeclaration, .selfAssignment, .undeclaredAssignment] := by
  unfold selfCopyFindings at h
  split at h
  · rw [List.mem_singleton.mp h, selfCopyIssue]
    split
    · simp
    · split <;> simp
  · simp at h

theorem issue_of_mem_variableNameFindings {t : Text} {base : Nat} {statement : VarStatement}
    (h : f ∈ variableNameFindings t base statement) : f.issue = .variableName := by
  unfold variableNameFindings at h
  split at h
  · rw [List.mem_singleton.mp h]
  · simp at h

theorem issue_of_mem_valueFindings {t : Text} {base assignment : Nat} {statement : VarStatement}
    (h : f ∈ valueFindings view t base statement assignment) : f.issue ∈ valueIssues := by
  unfold valueFindings at h
  dsimp only at h
  split_ifs at h
  iterate 6 · exact issue_of_mem_singleton h (by decide)
  · simp at h

theorem issue_of_mem_varStatementFindings {t : Text} {base : Nat}
    (h : f ∈ varStatementFindings view t base) : f.issue ∈ .variableName :: valueIssues := by
  rcases List.mem_append.mp h with h | h
  · rw [issue_of_mem_variableNameFindings h]
    exact List.mem_cons_self
  · split at h
    · exact List.mem_cons_of_mem _ (issue_of_mem_valueFindings h)
    · simp at h

theorem issue_of_mem_functionKeywordFindings {code : Text} (h : f ∈ functionKeywordFindings code) :
    f.issue = .functionKeyword := by
  unfold functionKeywordFindings at h
  split at h
  · simp at h
  · rw [List.mem_singleton.mp h]

theorem issue_of_mem_blockFindings {closer : Option Token} (h : f ∈ view.blockFindings closer) :
    f.issue = .missingBlock := by
  unfold RuleView.blockFindings at h
  split at h
  · split at h
    · simp at h
    · rw [List.mem_singleton.mp h]
  · simp at h

theorem issue_of_mem_constantFindings {site : ConditionSite} {base : Nat} {t : Text}
    (h : f ∈ constantFindings site base t) : f.issue ∈ [.alwaysTrue site, .alwaysFalse site] := by
  unfold constantFindings at h
  dsimp only at h
  split_ifs at h
  · exact issue_of_mem_singleton h (by simp)
  · exact issue_of_mem_singleton h (by simp)
  · simp at h

/-- A spelling is reported with the issue of its row. -/
theorem issue_of_mem_spellingFindings {site : ConditionSite} {base : Nat} {t : Text}
    (h : f ∈ spellingFindings site base t) : ∃ row ∈ misspelledOperators site, f.issue = row.2 := by
  unfold spellingFindings at h
  split at h
  · simp at h
  · obtain ⟨row, hrow, hsome⟩ := List.mem_filterMap.mp h
    dsimp only at hsome
    split at hsome
    · exact ⟨row, hrow, by rw [← Option.some.inj hsome]⟩
    · simp at hsome

/-- The operator that is quoted is one of the language: it was found by going through them. -/
theorem issue_of_mem_operandFindings {base : Nat} {t : Text} (h : f ∈ operandFindings base t) :
    ∃ operator ∈ comparisonOperators, f.issue = .missingOperand operator := by
  unfold operandFindings at h
  split at h
  · next start operator hfound =>
    exact ⟨operator, (standsAt_of_danglingOperator? hfound).2, by rw [List.mem_singleton.mp h]⟩
  · simp at h

theorem issue_of_mem_selfComparisonFindings {base : Nat} {t : Text}
    (h : f ∈ selfComparisonFindings base t) : f.issue = .selfComparison := by
  unfold selfComparisonFindings at h
  split at h
  · simp at h
  · split at h
    · rw [List.mem_singleton.mp h]
    · simp at h

/-- **What is said about a condition is on the list of its site**, by whichever of the four
searches. -/
theorem issue_of_mem_conditionTextFindings {site : ConditionSite} {base : Nat} {t : Text}
    (h : f ∈ conditionTextFindings site base t) : f.issue ∈ conditionIssues site := by
  have hspellings : ∀ row ∈ misspelledOperators site, row.2 ∈ conditionIssues site := by
    cases site <;> decide
  simp only [conditionTextFindings, List.mem_append] at h
  rcases h with ((h | h) | h) | h
  · have hsub : [.alwaysTrue site, .alwaysFalse site] ⊆ conditionIssues site := by
      cases site <;> decide
    exact hsub (issue_of_mem_constantFindings h)
  · obtain ⟨row, hrow, hissue⟩ := issue_of_mem_spellingFindings h
    exact hissue ▸ hspellings row hrow
  · obtain ⟨operator, hoperator, hissue⟩ := issue_of_mem_operandFindings h
    exact hissue ▸ List.mem_append_right _ (List.mem_map_of_mem hoperator)
  · rw [issue_of_mem_selfComparisonFindings h]
    cases site <;> decide

end Parts

/-! ## 3. Rules -/

section Rules

variable {view : RuleView} {f : Finding}

theorem issue_of_mem_declarationFindings (h : f ∈ declarationFindings view) :
    f.issue ∈ Rule.declaration.issues := by
  have hstatement : .variableName :: valueIssues ⊆ Rule.declaration.issues := by decide
  have hcopy : [.selfDeclaration, .selfAssignment, .undeclaredAssignment] ⊆
      Rule.declaration.issues := by decide
  simp only [declarationFindings, List.mem_append] at h
  rcases h with (((h | h) | h) | h) | h
  · rw [issue_of_mem_loneVarFindings h]
    decide
  · rw [issue_of_mem_keywordFindings h]
    decide
  · rw [issue_of_mem_keywordFindings h]
    decide
  · split at h
    · split at h
      · exact hstatement (issue_of_mem_varStatementFindings h)
      · simp at h
    · simp at h
  · exact hcopy (issue_of_mem_selfCopyFindings h)

theorem issue_of_mem_conditionHeaderFindings {site : ConditionSite} {keyword opener closer : Token}
    (h : f ∈ conditionHeaderFindings view site keyword opener closer) :
    f.issue ∈ [.missingBraces, .emptyCondition] ++ conditionIssues site := by
  have hbraces {b : Bool}
      (h : f ∈ if b then [⟨keyword.offset, view.codeEnd, .missingBraces⟩] else []) :
      f.issue = .missingBraces := by
    cases b with
    | false => simp at h
    | true => rw [List.mem_singleton.mp h]
  unfold conditionHeaderFindings at h
  dsimp only at h
  split at h
  · rcases List.mem_cons.mp h with rfl | h
    · simp
    · simp [hbraces h]
  · rcases List.mem_append.mp h with h | h
    · simp [hbraces h]
    · exact List.mem_append_right _ (issue_of_mem_conditionTextFindings h)

theorem issue_of_mem_conditionFindings (h : f ∈ conditionFindings view) :
    f.issue ∈ Rule.condition.issues := by
  have hbranch : [.missingBraces, .emptyCondition] ++ conditionIssues .branch ⊆
      Rule.condition.issues := by decide
  have hloop : [.missingBraces, .emptyCondition] ++ conditionIssues .whileLoop ⊆
      Rule.condition.issues := by decide
  unfold conditionFindings at h
  split at h
  · simp at h
  · split at h
    · split at h
      · exact issue_of_mem_singleton h (by decide)
      · simp at h
    · split at h
      · dsimp only at h
        split at h
        · split at h
          · have hissue := issue_of_mem_conditionHeaderFindings h
            split at hissue
            · exact hbranch hissue
            · exact hloop hissue
          · simp at h
        · simp at h
      · simp at h

theorem issue_of_mem_headerFindings (h : f ∈ headerFindings view) :
    f.issue ∈ Rule.header.issues := by
  -- one header at a time; the issues of both kinds of headers are in the list of the rule
  have hline {header : HeaderKind} {keyword : Token} {rest : List Token}
      (h : f ∈ headerLineFindings view header keyword rest) :
      f.issue ∈ [.loneHeader, .missingBlock, .skippedName header, .headerName header] := by
    unfold headerLineFindings at h
    dsimp only at h
    split at h
    · exact issue_of_mem_singleton h (by simp)
    · split at h
      · simp at h
      · split at h
        · simp at h
        · rcases List.mem_append.mp h with h | h
          · unfold headerNameFindings at h
            dsimp only at h
            split_ifs at h
            · exact issue_of_mem_singleton h (by simp)
            · exact issue_of_mem_singleton h (by simp)
            · simp at h
          · simp [issue_of_mem_blockFindings h]
  have hsub (header : HeaderKind) : [.loneHeader, .missingBlock, .skippedName header,
      .headerName header] ⊆ Rule.header.issues := by
    cases header <;> decide
  rcases List.mem_append.mp h with h | h
  · rw [issue_of_mem_functionKeywordFindings h]
    decide
  · split at h
    · simp at h
    · split at h
      · exact hsub _ (hline h)
      · split at h
        · exact hsub _ (hline h)
        · simp at h

/-- The separator between a loop variable and its items is a colon or one of two words. This bounds
what an issue can quote. -/
theorem separatorFrom_eq_some {depth : Int} {tokens : List Token} {t : Token}
    (h : separatorFrom depth tokens = some t) :
    t.kind = .colon ∨ t.text = "of".toList ∨ t.text = "in".toList := by
  fun_induction separatorFrom depth tokens with
  | case1 => simp at h
  | case2 depth u ts depth' hu =>
    obtain rfl := Option.some.inj h
    simp only [Token.isWord, Bool.and_eq_true, Bool.or_eq_true, decide_eq_true_eq] at hu
    rcases hu.2 with (hcolon | hof) | hin
    · exact .inl hcolon
    · exact .inr (.inl hof.2)
    · exact .inr (.inr hin.2)
  | case3 depth u ts depth' hu ih => exact ih h

theorem issue_of_mem_itemLoopFindings {header : LoopHeader} {tokens : List Token}
    (h : f ∈ itemLoopFindings header tokens) : f.issue ∈ Rule.loop.issues := by
  have hof : Issue.wrongSeparator "of".toList ∈ Rule.loop.issues := by decide
  have hin : Issue.wrongSeparator "in".toList ∈ Rule.loop.issues := by decide
  unfold itemLoopFindings at h
  split at h
  · exact issue_of_mem_singleton h (by decide)
  · next separator hseparator =>
    dsimp only at h
    rcases List.mem_append.mp h with h | h
    · split at h
      · simp at h
      · next hcolon =>
        rcases separatorFrom_eq_some hseparator with hkind | htext | htext
        · exact absurd hkind hcolon
        · exact issue_of_mem_singleton h (htext ▸ hof)
        · exact issue_of_mem_singleton h (htext ▸ hin)
    · split at h
      · simp at h
      · exact issue_of_mem_singleton h (by decide)

theorem issue_of_mem_clauseCountFindings {header : LoopHeader} {clauses : List (Nat × Text)}
    (h : f ∈ clauseCountFindings header clauses) :
    f.issue ∈ [.missingClauses, .doubledSemicolon, .trailingSemicolon, .tooManyClauses] := by
  unfold clauseCountFindings at h
  dsimp only at h
  generalize twinSemicolons? 0 header.inner = doubled at h
  cases doubled with
  | some found =>
    simp only [Option.isNone_some, Bool.and_false, Bool.false_eq_true, if_false] at h
    rcases List.mem_cons.mp h with rfl | h
    · simp
    · split_ifs at h
      · exact issue_of_mem_singleton h (by decide)
      · simp at h
  | none =>
    dsimp only at h
    split_ifs at h
    · exact issue_of_mem_singleton h (by decide)
    · split at h
      · split at h
        · exact issue_of_mem_singleton h (by decide)
        · exact issue_of_mem_singleton h (by decide)
      · exact issue_of_mem_singleton h (by decide)
    · simp at h

theorem issue_of_mem_clauseFindings {header : LoopHeader} {clauses : List (Nat × Text)}
    (h : f ∈ clauseFindings view header clauses) : f.issue ∈ Rule.loop.issues := by
  have hcount : [.missingClauses, .doubledSemicolon, .trailingSemicolon, .tooManyClauses] ⊆
      Rule.loop.issues := by decide
  have hstatement : .variableName :: valueIssues ⊆ Rule.loop.issues := by decide
  have hcondition : conditionIssues .forClause ⊆ Rule.loop.issues := by decide
  rcases List.mem_append.mp h with h | h
  · exact hcount (issue_of_mem_clauseCountFindings h)
  · split at h
    · simp at h
    · rcases List.mem_append.mp h with h | h
      · unfold firstClauseFindings at h
        dsimp only at h
        split_ifs at h
        · exact hstatement (issue_of_mem_varStatementFindings h)
        · exact issue_of_mem_singleton h (by decide)
        · exact issue_of_mem_singleton h (by decide)
      · unfold secondClauseFindings at h
        split at h
        · split at h
          · simp at h
          · exact hcondition (issue_of_mem_conditionTextFindings h)
        · simp at h

theorem issue_of_mem_loopHeaderFindings {keyword opener : Token} {rest : List Token}
    (h : f ∈ loopHeaderFindings view keyword opener rest) : f.issue ∈ Rule.loop.issues := by
  unfold loopHeaderFindings at h
  dsimp only at h
  rcases List.mem_append.mp h with h | h
  · split_ifs at h
    · exact issue_of_mem_itemLoopFindings h
    · exact issue_of_mem_clauseFindings h
  · rw [issue_of_mem_blockFindings h]
    decide

theorem issue_of_mem_loopFindings (h : f ∈ loopFindings view) : f.issue ∈ Rule.loop.issues := by
  unfold loopFindings at h
  split at h
  · simp at h
  · split at h
    · split at h
      · split at h
        · exact issue_of_mem_loopHeaderFindings h
        · exact issue_of_mem_singleton h (by decide)
      · exact issue_of_mem_singleton h (by decide)
    · simp at h

/-- **A rule says nothing but what is on its list.** Facts about all that can be said are from here
on settled by going through the lists. -/
theorem Rule.issue_mem {rule : Rule} (h : f ∈ rule.findings view) : f.issue ∈ rule.issues := by
  cases rule with
  | termination => exact List.mem_singleton.mpr (issue_of_mem_terminatorFindings h)
  | declaration => exact issue_of_mem_declarationFindings h
  | operators => exact issue_of_mem_operatorFindings h
  | condition => exact issue_of_mem_conditionFindings h
  | header => exact issue_of_mem_headerFindings h
  | loop => exact issue_of_mem_loopFindings h

end Rules

end MacroScript
