import MacroScript.Diagnostic.Condition
import MacroScript.Proofs.Diagnostic.Comparison
import MacroScript.Proofs.Diagnostic.Issue

/-!
# What is found in a condition

The same text is searched for a constant, for an operator that is spelled wrongly, for one that
lacks an operand and for a comparison of a value with itself, and none of the searches knows of the
others. A constant has no operator in it, a comparison has both of its operands, and an operator
that is spelled wrongly is spelled wrongly in one way. So **at most one thing is found in a
condition**, and if the strings of the condition are blank, an operator that is spelled wrongly is
reported where it stands between its operands (`one_finding_at_operator`).
-/
namespace MacroScript

open Text

/-! ## 1. Constants -/

theorem forall_of_all {t : Text} (h : t.all (!isComparisonChar ·)) :
    ∀ c ∈ t, isComparisonChar c = false := by
  simpa using h

/-- A number, with or without its sign, has no operator in it. -/
theorem forall_of_dropMinus {t : Text} (h : ∀ c ∈ dropMinus t, c.isDigit) :
    ∀ c ∈ t, isComparisonChar c = false := by
  intro c hc
  cases t with
  | nil => simp at hc
  | cons d ds =>
    by_cases hd : d = '-'
    · subst hd
      rcases List.mem_cons.mp hc with rfl | hc
      · rfl
      · exact isComparisonChar_of_isDigit (h c (by simpa [dropMinus] using hc))
    · exact isComparisonChar_of_isDigit (h c (by simpa [dropMinus, hd] using hc))

/-- What is always true is the word for it or a number. -/
theorem forall_of_isAlwaysTrue {t : Text} (h : isAlwaysTrue t) :
    ∀ c ∈ t, isComparisonChar c = false := by
  rw [isAlwaysTrue, Bool.or_eq_true, decide_eq_true_eq] at h
  rcases h with rfl | h
  · exact forall_of_all (by decide)
  · apply forall_of_dropMinus
    split at h
    · contradiction
    · next d ds hnumber =>
      rw [hnumber]
      simp only [Bool.and_eq_true, List.all_eq_true] at h
      intro c hc
      rcases List.mem_cons.mp hc with rfl | hc
      · exact h.1.1
      · exact h.2 c hc

/-- What is always false is one of two words, the empty string or a zero. -/
theorem forall_of_isAlwaysFalse {t : Text} (h : isAlwaysFalse t) :
    ∀ c ∈ t, isComparisonChar c = false := by
  simp only [isAlwaysFalse, Bool.or_eq_true, decide_eq_true_eq, Bool.and_eq_true,
    List.all_eq_true, beq_iff_eq] at h
  rcases h with ((rfl | rfl) | rfl) | ⟨-, hzeros⟩
  · exact forall_of_all (by decide)
  · exact forall_of_all (by decide)
  · exact forall_of_all (by decide)
  · apply forall_of_dropMinus
    intro c hc
    rw [hzeros c hc]
    decide

/-- **A constant has no operator in it.** So it is no comparison, and no operator lacks an operand
in it. -/
theorem constantFindings_eq_nil_or (site : ConditionSite) (base : Nat) (t : Text) :
    constantFindings site base t = [] ∨ ∀ c ∈ t, isComparisonChar c = false := by
  unfold constantFindings
  dsimp only
  split
  · next htrue => exact .inr (forall_of_isAlwaysTrue htrue)
  · split
    · next hfalse => exact .inr (forall_of_isAlwaysFalse hfalse)
    · exact .inl rfl

theorem length_constantFindings (site : ConditionSite) (base : Nat) (t : Text) :
    (constantFindings site base t).length ≤ 1 := by
  unfold constantFindings
  dsimp only
  split
  · simp
  · split <;> simp

theorem length_operandFindings (base : Nat) (t : Text) : (operandFindings base t).length ≤ 1 := by
  unfold operandFindings
  split <;> simp

/-- **An operator between two operands lacks neither, and it makes the text no constant.** So of the
four searches two are left. -/
theorem Comparison.WellFormed.findings_written {k : Comparison} (hk : k.WellFormed)
    (gap gap' : Text) (site : ConditionSite) (base : Nat) :
    constantFindings site base (k.written gap gap') = [] ∧
      operandFindings base (k.written gap gap') = [] := by
  constructor
  · obtain ⟨c, cs, hcons, hc⟩ := hk.exists_operator
    -- a constant has no operator character in it
    rcases constantFindings_eq_nil_or site base (k.written gap gap') with hnil | hnone
    · exact hnil
    · have hnot := hnone c (by simp [written, hcons])
      rw [hc] at hnot
      contradiction
  · obtain ⟨c, cs, hhead, hc⟩ := hk.left.exists_head
    obtain ⟨ds, d, hlast, hd⟩ := hk.right.exists_last
    -- an operator that lacks an operand stands at an end, and here the ends are operands
    have hnone : danglingOperator? (k.written gap gap') = none := by
      apply danglingOperator?_eq_none
      · intro e he
        obtain rfl : c = e := by simpa [written, hhead] using he
        exact isComparisonChar_of_isOperandEnd hc
      · intro e he
        have hconcat : k.written gap gap' =
            (k.left ++ gap ++ k.operator ++ gap' ++ ds) ++ [d] := by
          simp [written, hlast]
        rw [hconcat, List.getLast?_concat] at he
        obtain rfl : d = e := Option.some.inj he
        exact isComparisonChar_of_isOperandEnd hd
    rw [operandFindings, hnone]

/-! ## 2. Spellings -/

/-- The spellings of a row can be searched for in any order. -/
theorem isSpelling_of_mem {site : ConditionSite} {row : List Text × Issue}
    (h : row ∈ misspelledOperators site) : IsSpelling row.1 := by
  simp only [misspelledOperators, List.mem_cons, List.not_mem_nil, or_false] at h
  rcases h with rfl | rfl | rfl | rfl | rfl
  all_goals
    dsimp only
    exact ⟨by decide, by decide, by decide⟩

/-- An operator stands in one row at most, and in none if it is an operator of the language. The two
are counted together, since a comparison of a value with itself is reported for operators of the
language only. -/
theorem countP_misspelledOperators (site : ConditionSite) (operator : Text) :
    (misspelledOperators site).countP (fun row => row.1.contains operator) +
      (if comparisonOperators.contains operator then 1 else 0) ≤ 1 := by
  by_cases hmem : operator ∈ (misspelledOperators site).flatMap Prod.fst
  · simp only [misspelledOperators, List.flatMap_cons, List.flatMap_nil, List.mem_append,
      List.mem_cons, List.not_mem_nil, or_false] at hmem
    rcases hmem with rfl | rfl | rfl | rfl | rfl | rfl | rfl | rfl <;> cases site <;> decide
  · have hnone : (misspelledOperators site).countP (fun row => row.1.contains operator) = 0 := by
      rw [List.countP_eq_zero]
      intro row hrow hcontains
      exact hmem (List.mem_flatMap.mpr ⟨row, hrow, by simpa using hcontains⟩)
    rw [hnone]
    split <;> omega

/-- The issues of operators that are spelled wrongly. No other search of a condition reports one of
them. -/
def Issue.isMisspelling : Issue → Bool
  | .singleEquals _ | .bangGreater | .bangLess | .equalsBang | .trailingBang => true
  | _ => false

theorem isMisspelling_of_mem {site : ConditionSite} {row : List Text × Issue}
    (h : row ∈ misspelledOperators site) : row.2.isMisspelling := by
  revert row
  cases site <;> decide

/-- Each row has an issue of its own, so that the issue of a finding tells its row. -/
theorem eq_of_issue_eq {site : ConditionSite} {row row' : List Text × Issue}
    (h : row ∈ misspelledOperators site) (h' : row' ∈ misspelledOperators site)
    (hissue : row.2 = row'.2) : row = row' := by
  have hall : ∀ row ∈ misspelledOperators site, ∀ row' ∈ misspelledOperators site,
      row.2 = row'.2 → row = row' := by
    cases site <;> decide
  exact hall row h row' h' hissue

theorem isMisspelling_of_mem_constantFindings {site : ConditionSite} {base : Nat} {t : Text}
    {f : Finding} (h : f ∈ constantFindings site base t) : f.issue.isMisspelling = false := by
  have hissue := issue_of_mem_constantFindings h
  rw [List.mem_cons, List.mem_singleton] at hissue
  rcases hissue with hissue | hissue <;> rw [hissue] <;> rfl

theorem isMisspelling_of_mem_operandFindings {base : Nat} {t : Text} {f : Finding}
    (h : f ∈ operandFindings base t) : f.issue.isMisspelling = false := by
  obtain ⟨operator, -, hissue⟩ := issue_of_mem_operandFindings h
  rw [hissue]
  rfl

theorem isMisspelling_of_mem_selfComparisonFindings {base : Nat} {t : Text} {f : Finding}
    (h : f ∈ selfComparisonFindings base t) : f.issue.isMisspelling = false := by
  rw [issue_of_mem_selfComparisonFindings h]
  rfl

/-- **A spelling is reported where the operator stands**, if the left operand has no operator
character in it. The search takes the first place where the operator is spelled, be it in a string.
-/
theorem mem_spellingFindings_written {k : Comparison} (hk : k.WellFormed) {gap gap' : Text}
    (hgap : isAllBlank gap) (hgap' : isAllBlank gap')
    (hleft : ∀ c ∈ k.left, isComparisonChar c = false) {site : ConditionSite} {base : Nat}
    {f : Finding} :
    f ∈ spellingFindings site base (k.written gap gap') ↔
      ∃ row ∈ misspelledOperators site, k.operator ∈ row.1 ∧
        f = ⟨base + byteSize (k.left ++ gap),
          base + byteSize (k.left ++ gap) + byteSize k.operator, row.2⟩ := by
  -- before the operator there is no operator character, so no spelling can be found too soon
  have hfront : ∀ c ∈ k.left ++ gap, isComparisonChar c = false := by
    intro c hc
    rcases List.mem_append.mp hc with hc | hc
    · exact hleft c hc
    · exact isComparisonChar_of_isBlank (List.all_eq_true.mp hgap c hc)
  have hfirst {row : List Text × Issue} (hrow : row ∈ misspelledOperators site)
      (hoperator : k.operator ∈ row.1) :
      firstOf? row.1 0 (k.written gap gap') =
        some (byteSize (k.left ++ gap), byteSize k.operator) := by
    have hwritten : k.written gap gap' = (k.left ++ gap) ++ (k.operator ++ (gap' ++ k.right)) := by
      simp [Comparison.written]
    rw [hwritten]
    exact (isSpelling_of_mem hrow).firstOf?_eq hfront hoperator (hk.head?_behind hgap')
  rw [spellingFindings, hk.ofText?_written hgap hgap', List.mem_filterMap]
  refine exists_congr fun row => and_congr_right fun hrow => ?_
  by_cases hoperator : k.operator ∈ row.1
  · simp [hoperator, hfirst hrow hoperator, eq_comm]
  · simp [hoperator]

/-- A comparison is reported as often as there are rows with its operator. -/
theorem length_spellingFindings {t : Text} {k : Comparison} (h : Comparison.ofText? t = some k)
    (site : ConditionSite) (base : Nat) :
    (spellingFindings site base t).length =
      (misspelledOperators site).countP (fun row => row.1.contains k.operator) := by
  rw [spellingFindings, h, List.length_filterMap_eq_countP]
  congr 1
  funext row
  dsimp only
  split <;> simp_all

/-- A comparison of a value with itself is reported once, and only with an operator of the language.
-/
theorem length_selfComparisonFindings {t : Text} {k : Comparison}
    (h : Comparison.ofText? t = some k) (base : Nat) :
    (selfComparisonFindings base t).length ≤
      if comparisonOperators.contains k.operator then 1 else 0 := by
  rw [selfComparisonFindings, h]
  dsimp only
  split
  · next hself =>
    simp only [Bool.and_eq_true] at hself
    rw [if_pos hself.1.1]
    exact Nat.le_refl 1
  · exact Nat.zero_le _

/-! ## 3. Strings of a condition -/

/-- What stands between the double quotes of each string, from a place outside of the strings
(`none`) or inside of one of which `inner` was read. A string that does not end is none. -/
def Text.stringInteriorsFrom : Option Text → Text → List Text
  | _, [] => []
  | none, c :: cs => stringInteriorsFrom (if c = '"' then some [] else none) cs
  | some inner, c :: cs =>
    if c = '"' then inner :: stringInteriorsFrom none cs
    else stringInteriorsFrom (some (inner ++ [c])) cs

/-- What stands between the double quotes of each string of the text. -/
def Text.stringInteriors (t : Text) : List Text :=
  stringInteriorsFrom none t

/-- What stands in front of the first double quote is in no string. -/
theorem Text.stringInteriorsFrom_append {front : Text} (h : '"' ∉ front) (rest : Text) :
    stringInteriorsFrom none (front ++ rest) = stringInteriorsFrom none rest := by
  induction front with
  | nil => rfl
  | cons c cs ih =>
    have hc : c ≠ '"' := fun heq => h (by simp [heq])
    rw [List.cons_append, stringInteriorsFrom, if_neg hc]
    exact ih fun hmem => h (List.mem_cons_of_mem _ hmem)

/-- A string goes up to the next double quote. -/
theorem Text.stringInteriorsFrom_string {inner : Text} (h : '"' ∉ inner) (read rest : Text) :
    stringInteriorsFrom (some read) (inner ++ '"' :: rest) =
      (read ++ inner) :: stringInteriorsFrom none rest := by
  induction inner generalizing read with
  | nil => simp [stringInteriorsFrom]
  | cons c cs ih =>
    have hc : c ≠ '"' := fun heq => h (by simp [heq])
    rw [List.cons_append, stringInteriorsFrom, if_neg hc,
      ih fun hmem => h (List.mem_cons_of_mem _ hmem)]
    simp

/-- **A blank operand has no operator character in it**: its own string is the first of the text. A
name has none in any case. -/
theorem IsOperand.isComparisonChar {front o rest : Text} (hfront : isAllBlank front)
    (ho : IsOperand o)
    (hblank : ∀ inner ∈ Text.stringInteriors (front ++ (o ++ rest)), isAllBlank inner) :
    ∀ c ∈ o, isComparisonChar c = false := by
  cases ho with
  | @literal inner h =>
    have hquote : '"' ∉ front := by
      intro hmem
      exact absurd (List.all_eq_true.mp hfront '"' hmem) (by decide)
    have hstrings : Text.stringInteriors (front ++ ('"' :: inner ++ ['"'] ++ rest)) =
        inner :: stringInteriorsFrom none rest := by
      rw [stringInteriors, stringInteriorsFrom_append hquote]
      simpa [stringInteriorsFrom] using stringInteriorsFrom_string h [] rest
    have hinner : isAllBlank inner := hblank inner (by rw [hstrings]; exact List.mem_cons_self)
    intro c hc
    simp only [List.mem_append, List.mem_cons, List.not_mem_nil, or_false] at hc
    rcases hc with (rfl | hc) | rfl
    · decide
    · exact isComparisonChar_of_isBlank (List.all_eq_true.mp hinner c hc)
    · decide
  | name hne h =>
    intro c hc
    exact isComparisonChar_of_isOperandEnd (by simp [isOperandEnd, h c hc])

/-! ## 4. One finding, at the operator -/

/-- At byte `start` of the text stands the operator of a comparison: there is an operand on either
side of it, and around the three there is white space at most. -/
def OperatorStands (t : Text) (start : Nat) (operator : Text) : Prop :=
  ∃ front left gap gap' right back : Text,
    t = front ++ left ++ gap ++ operator ++ gap' ++ right ++ back ∧
      isAllBlank front ∧ isAllBlank gap ∧ isAllBlank gap' ∧ isAllBlank back ∧
      IsOperand left ∧ IsOperand right ∧ start = byteSize (front ++ left ++ gap)

section Condition

variable (site : ConditionSite) (base : Nat)

/-- The searches see the core of the text, and what they find is moved by the white space in front.
-/
theorem conditionTextFindings_core {front core back : Text} (hfront : isAllBlank front)
    (hcore : core.isTrimmed) (hback : isAllBlank back) :
    conditionTextFindings site base (front ++ core ++ back) =
      constantFindings site (base + byteSize front) core ++
        spellingFindings site (base + byteSize front) core ++
        operandFindings (base + byteSize front) core ++
        selfComparisonFindings (base + byteSize front) core := by
  have hspan := coreSpan_core hfront hcore hback
  have hcut := (standsAt_core rfl hspan).2
  rw [hspan] at hcut
  simp only [conditionTextFindings, hspan, hcut]

/-- Nothing is found in white space: its core is empty. -/
theorem conditionTextFindings_of_isAllBlank {t : Text} (h : isAllBlank t) :
    conditionTextFindings site base t = [] := by
  have hcut : between (byteSize t) (byteSize t) t = [] := by
    simpa using between_append t [] []
  simp only [conditionTextFindings, coreSpan_of_isAllBlank h, hcut]
  rfl

/-- A comparison is only searched for its operator and for equal sides. -/
theorem conditionTextFindings_written {k : Comparison} (hk : k.WellFormed)
    {front gap gap' back : Text} (hfront : isAllBlank front) (hback : isAllBlank back) :
    conditionTextFindings site base (front ++ k.written gap gap' ++ back) =
      spellingFindings site (base + byteSize front) (k.written gap gap') ++
        selfComparisonFindings (base + byteSize front) (k.written gap gap') := by
  obtain ⟨hconstant, hoperand⟩ := hk.findings_written gap gap' site (base + byteSize front)
  rw [conditionTextFindings_core site base hfront (hk.isTrimmed_written gap gap') hback, hconstant,
    hoperand]
  simp

/-- A text that is no comparison is only searched for a constant and for an operator at its ends. A
text with the one does not have the other. -/
theorem conditionTextFindings_of_ofText?_eq_none {front core back : Text}
    (hfront : isAllBlank front) (hcore : core.isTrimmed) (hback : isAllBlank back)
    (h : Comparison.ofText? core = none) :
    conditionTextFindings site base (front ++ core ++ back) =
      constantFindings site (base + byteSize front) core ++
        operandFindings (base + byteSize front) core := by
  rw [conditionTextFindings_core site base hfront hcore hback]
  simp [spellingFindings, selfComparisonFindings, h]

/-- **At most one thing is found in a condition.** A comparison is counted by its operator, and any
other text by whether it is a constant. -/
theorem length_conditionTextFindings (t : Text) :
    (conditionTextFindings site base t).length ≤ 1 := by
  cases hblank : isAllBlank t with
  | true => simp [conditionTextFindings_of_isAllBlank site base hblank]
  | false =>
    obtain ⟨front, core, back, rfl, hfront, hback, hcore, -⟩ := exists_core hblank
    cases hcomparison : Comparison.ofText? core with
    | none =>
      rw [conditionTextFindings_of_ofText?_eq_none site base hfront hcore hback hcomparison]
      rcases constantFindings_eq_nil_or site (base + byteSize front) core with hnil | hnone
      · rw [hnil]
        exact length_operandFindings _ core
      · have hdangling : danglingOperator? core = none :=
          danglingOperator?_eq_none (fun c hc => hnone c (List.mem_of_mem_head? hc))
            fun c hc => hnone c (List.mem_of_mem_getLast? hc)
        rw [operandFindings, hdangling, List.append_nil]
        exact length_constantFindings site _ core
    | some k =>
      obtain ⟨hk, gap, gap', -, -, rfl⟩ := Comparison.ofText?_eq_some_iff.mp hcomparison
      have hspelling := length_spellingFindings hcomparison site (base + byteSize front)
      have hself := length_selfComparisonFindings hcomparison (base + byteSize front)
      have hcount := countP_misspelledOperators site k.operator
      rw [conditionTextFindings_written site base hk hfront hback, List.length_append]
      omega

/-- A finding about a spelling comes from a comparison, since the other searches have other issues.
-/
theorem exists_written_of_isMisspelling {t : Text} {f : Finding}
    (h : f ∈ conditionTextFindings site base t) (hissue : f.issue.isMisspelling) :
    ∃ (front gap gap' back : Text) (k : Comparison), isAllBlank front ∧ isAllBlank gap ∧
      isAllBlank gap' ∧ isAllBlank back ∧ k.WellFormed ∧
      t = front ++ k.written gap gap' ++ back := by
  cases hblank : isAllBlank t with
  | true => simp [conditionTextFindings_of_isAllBlank site base hblank] at h
  | false =>
    obtain ⟨front, core, back, rfl, hfront, hback, hcore, -⟩ := exists_core hblank
    cases hcomparison : Comparison.ofText? core with
    | none =>
      rw [conditionTextFindings_of_ofText?_eq_none site base hfront hcore hback hcomparison] at h
      rcases List.mem_append.mp h with h | h
      · simp [isMisspelling_of_mem_constantFindings h] at hissue
      · simp [isMisspelling_of_mem_operandFindings h] at hissue
    | some k =>
      obtain ⟨hk, gap, gap', hgap, hgap', rfl⟩ := Comparison.ofText?_eq_some_iff.mp hcomparison
      exact ⟨front, gap, gap', back, k, hfront, hgap, hgap', hback, hk, rfl⟩

/-- In a comparison whose strings are blank, a finding about a spelling is at the operator: the left
operand does not spell it. -/
theorem mem_conditionTextFindings_written {k : Comparison} (hk : k.WellFormed)
    {front gap gap' back : Text} (hfront : isAllBlank front) (hgap : isAllBlank gap)
    (hgap' : isAllBlank gap') (hback : isAllBlank back)
    (hstrings : ∀ inner ∈ stringInteriors (front ++ k.written gap gap' ++ back), isAllBlank inner)
    {f : Finding} (hissue : f.issue.isMisspelling) :
    f ∈ conditionTextFindings site base (front ++ k.written gap gap' ++ back) ↔
      ∃ row ∈ misspelledOperators site, k.operator ∈ row.1 ∧
        f = ⟨base + byteSize (front ++ k.left ++ gap),
          base + byteSize (front ++ k.left ++ gap) + byteSize k.operator, row.2⟩ := by
  have hleft : ∀ c ∈ k.left, isComparisonChar c = false := by
    simp only [Comparison.written, List.append_assoc] at hstrings
    exact hk.left.isComparisonChar hfront hstrings
  have hself : f ∉ selfComparisonFindings (base + byteSize front) (k.written gap gap') := by
    intro h
    simp [isMisspelling_of_mem_selfComparisonFindings h] at hissue
  rw [conditionTextFindings_written site base hk hfront hback, List.mem_append, or_iff_left hself,
    mem_spellingFindings_written hk hgap hgap' hleft]
  simp only [byteSize_append, Nat.add_assoc]

end Condition

/-- **One finding, at the operator.** At most one thing is found in a condition. If the strings of
the condition are blank, an operator that is spelled wrongly is reported exactly if it stands
between two operands, and what is reported is the operator. -/
theorem one_finding_at_operator (site : ConditionSite) (base : Nat) (t : Text) :
    (conditionTextFindings site base t).length ≤ 1 ∧
      ((∀ inner ∈ t.stringInteriors, isAllBlank inner) →
        ∀ spellings issue, (spellings, issue) ∈ misspelledOperators site → ∀ f : Finding,
          (f ∈ conditionTextFindings site base t ∧ f.issue = issue) ↔
            ∃ start, ∃ operator ∈ spellings, OperatorStands t start operator ∧
              f = ⟨base + start, base + start + byteSize operator, issue⟩) := by
  refine ⟨length_conditionTextFindings site base t, ?_⟩
  intro hstrings spellings issue hrow f
  constructor
  · rintro ⟨hf, rfl⟩
    have hissue := isMisspelling_of_mem hrow
    -- a finding about the spelling comes from a comparison, whose operator is the one that is found
    obtain ⟨front, gap, gap', back, k, hfront, hgap, hgap', hback, hk, rfl⟩ :=
      exists_written_of_isMisspelling site base hf hissue
    obtain ⟨row, hrow', hoperator, hf⟩ := (mem_conditionTextFindings_written site base hk hfront
      hgap hgap' hback hstrings hissue).mp hf
    obtain rfl : (spellings, f.issue) = row := eq_of_issue_eq hrow hrow' (congrArg Finding.issue hf)
    refine ⟨byteSize (front ++ k.left ++ gap), k.operator, hoperator, ?_, hf⟩
    exact ⟨front, k.left, gap, gap', k.right, back, by simp [Comparison.written], hfront, hgap,
      hgap', hback, hk.left, hk.right, rfl⟩
  · rintro ⟨start, operator, hoperator, hstands, rfl⟩
    obtain ⟨front, left, gap, gap', right, back, heq, hfront, hgap, hgap', hback, hleft, hright,
      rfl⟩ := hstands
    have hspelling := isSpelling_of_mem hrow
    -- an operator between two operands makes a comparison, and this is how the search finds it
    have hk : Comparison.WellFormed ⟨left, operator, right⟩ :=
      ⟨hleft, hright, hspelling.ne_nil _ hoperator, hspelling.isComparisonChar_of_mem hoperator⟩
    have hwritten : t = front ++ Comparison.written ⟨left, operator, right⟩ gap gap' ++ back := by
      rw [heq]
      simp [Comparison.written]
    rw [hwritten] at hstrings ⊢
    refine ⟨?_, rfl⟩
    rw [mem_conditionTextFindings_written site base hk hfront hgap hgap' hback hstrings
      (isMisspelling_of_mem hrow)]
    exact ⟨_, hrow, hoperator, rfl⟩

/-- A blank string is compared with an indexed name. -/
def blankComparison : Text :=
  " \"  \" <=! x[0] ".toList

theorem trailing_bang_reported_at_operator :
    (∀ inner ∈ blankComparison.stringInteriors, isAllBlank inner) ∧
      (["<=!".toList, ">=!".toList, "<!".toList, ">!".toList], Issue.trailingBang) ∈
        misspelledOperators .forClause ∧
      OperatorStands blankComparison 6 "<=!".toList ∧
      conditionTextFindings .forClause 4 blankComparison = [⟨10, 13, .trailingBang⟩] := by
  have hstrings : ∀ inner ∈ blankComparison.stringInteriors, isAllBlank inner := by decide
  have hrow : (["<=!".toList, ">=!".toList, "<!".toList, ">!".toList], Issue.trailingBang) ∈
      misspelledOperators .forClause := by decide
  have hstands : OperatorStands blankComparison 6 "<=!".toList := by
    refine ⟨[' '], "\"  \"".toList, [' '], [' '], "x[0]".toList, [' '], by decide, by decide,
      by decide, by decide, by decide, ?_, ?_, by decide⟩
    · exact @IsOperand.literal [' ', ' '] (by decide)
    · exact .name (by decide) (List.all_eq_true.mp (by decide))
  obtain ⟨hlength, hat⟩ := one_finding_at_operator .forClause 4 blankComparison
  have hmem := ((hat hstrings _ _ hrow ⟨10, 13, .trailingBang⟩).mpr
    ⟨6, "<=!".toList, by decide, hstands, by decide⟩).1
  refine ⟨hstrings, hrow, hstands, ?_⟩
  obtain ⟨f, hf⟩ := List.length_eq_one_iff.mp
    (Nat.le_antisymm hlength (List.length_pos_of_mem hmem))
  rw [hf] at hmem ⊢
  rw [List.mem_singleton.mp hmem]

end MacroScript
