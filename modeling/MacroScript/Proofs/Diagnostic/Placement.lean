import MacroScript.Analysis
import MacroScript.Proofs.Line.Code
import MacroScript.Proofs.Token.Span

/-!
# Where findings are placed

**Every finding is about a span that is not empty and whose two ends are in sight** (`Placed`): each
is the end of the code, or stands next to a character that was not blanked. A finding takes its
offsets from tokens, whole words, occurrences and trimmed parts, and from parts of these, so each
rule comes down to saying what stands where. Here are the rules about the ends of statements,
operators and conditions.
-/
namespace MacroScript

open Text

/-! ## 1. Placed findings -/

/-- The span of the finding is not empty, and its ends are in sight. So they are boundaries of the
line, and not only of its code. -/
structure Finding.Placed (code : Text) (finding : Finding) : Prop where
  lt : finding.start < finding.stop
  start : InSight code finding.start
  stop : InSight code finding.stop

/-- All findings are placed. It is told of lists, since a rule is a list of findings put together
from shorter ones. -/
def AllPlaced (code : Text) (findings : List Finding) : Prop :=
  ∀ finding ∈ findings, finding.Placed code

theorem allPlaced_nil (code : Text) : AllPlaced code [] := by
  intro finding h
  simp at h

theorem allPlaced_cons {code : Text} {finding : Finding} {findings : List Finding}
    (h : finding.Placed code) (hs : AllPlaced code findings) :
    AllPlaced code (finding :: findings) := by
  intro finding' h'
  rcases List.mem_cons.mp h' with rfl | h'
  · exact h
  · exact hs finding' h'

theorem allPlaced_singleton {code : Text} {finding : Finding} (h : finding.Placed code) :
    AllPlaced code [finding] :=
  allPlaced_cons h (allPlaced_nil code)

theorem allPlaced_append {code : Text} {findings more : List Finding}
    (h : AllPlaced code findings) (hmore : AllPlaced code more) :
    AllPlaced code (findings ++ more) := by
  intro finding h'
  rcases List.mem_append.mp h' with h' | h'
  · exact h finding h'
  · exact hmore finding h'

section Spans

variable {code t : Text} {n : Nat}

/-- **A finding about a solid part is placed.** Most findings are about such a part, so what is left
of a rule is to say what stands where. -/
theorem placed_of_standsAt (h : StandsAt code n t) (ht : t.isSolid) (issue : Issue) :
    Finding.Placed code ⟨n, n + byteSize t, issue⟩ := by
  have hpos := byteSize_pos_of_isSolid ht
  exact ⟨by simp only; omega, inSight_start h ht, inSight_stop h ht⟩

/-- The end of the core of a text is in sight, and in a text of white space it is the end of the
text. -/
theorem inSight_coreSpan (code : Text) : InSight code (coreSpan code).2 := by
  cases hblank : isAllBlank code with
  | true =>
    rw [coreSpan_of_isAllBlank hblank]
    exact .stop
  | false =>
    obtain ⟨front, core, back, heq, -, -, htrim, hspan⟩ := exists_core hblank
    rw [hspan]
    exact inSight_stop ⟨front, back, heq, rfl⟩ (isSolid_of_isTrimmed htrim)

/-- The core of a part is a solid part, which its span cuts out. It is told both in the part and in
the text around it. -/
theorem exists_core_of_standsAt (h : StandsAt code n t) (hblank : isAllBlank t = false) :
    ∃ core, core.isTrimmed ∧ StandsAt code (n + (coreSpan t).1) core ∧
      StandsAt t (coreSpan t).1 core ∧ between (coreSpan t).1 (coreSpan t).2 t = core ∧
      (coreSpan t).2 = (coreSpan t).1 + byteSize core := by
  obtain ⟨front, core, back, heq, -, -, htrim, hspan⟩ := exists_core hblank
  obtain ⟨hcore, hbetween⟩ := standsAt_core heq hspan
  exact ⟨core, htrim, h.trans hcore, hcore, hbetween, by rw [hspan]⟩

/-- A finding about the core of a part is placed. -/
theorem placed_core (h : StandsAt code n t) (hblank : isAllBlank t = false) (issue : Issue) :
    Finding.Placed code ⟨n + (coreSpan t).1, n + (coreSpan t).2, issue⟩ := by
  obtain ⟨core, htrim, hcore, -, -, hstop⟩ := exists_core_of_standsAt h hblank
  rw [hstop, ← Nat.add_assoc]
  exact placed_of_standsAt hcore (isSolid_of_isTrimmed htrim) issue

end Spans

section Tokens

variable {view : RuleView} {token : Token}

theorem standsAt_token (h : token ∈ view.tokens) :
    StandsAt view.code token.offset token.text :=
  Token.standsAt_of_mem_scan h

theorem isBoundary_tokenStart (h : token ∈ view.tokens) : isBoundary token.offset view.code :=
  (standsAt_token h).isBoundary_start

theorem isBoundary_tokenStop (h : token ∈ view.tokens) : isBoundary token.stop view.code :=
  (standsAt_token h).isBoundary_stop

/-- Every token starts with a character that is not white space. It may end with some, if it is a
string. -/
theorem inSight_offset (h : token ∈ view.tokens) : InSight view.code token.offset := by
  obtain ⟨c, hc, hstands, -⟩ := Token.exists_first_of_mem_scan h
  exact .before hstands (ne_space_of_not_isBlank hc)

/-- A finding about a token that is no string literal is placed: such a token is solid. -/
theorem placed_token (h : token ∈ view.tokens) (hkind : token.kind ≠ .string) (issue : Issue) :
    Finding.Placed view.code ⟨token.offset, token.stop, issue⟩ :=
  placed_of_standsAt (standsAt_token h) (Token.isSolid_of_mem_scan h hkind) issue

/-- So is one that goes from a token to the end of the code. What kind of token it is does not
matter. -/
theorem placed_toEnd (h : token ∈ view.tokens) (issue : Issue) :
    Finding.Placed view.code ⟨token.offset, view.codeEnd, issue⟩ :=
  ⟨Token.offset_lt_coreSpan h, inSight_offset h, inSight_coreSpan view.code⟩

theorem ne_string_of_isWord {word : String} (h : token.isWord word) : token.kind ≠ .string := by
  rw [Token.kind_of_isWord h]
  decide

end Tokens

/-! ## 2. Ends of statements -/

theorem allPlaced_terminator (view : RuleView) :
    AllPlaced view.code (terminatorFindings view) := by
  unfold terminatorFindings
  split
  · exact allPlaced_nil _
  · next h =>
    have hblank : isAllBlank view.code = false := by
      by_contra hblank
      rw [Bool.not_eq_false] at hblank
      exact h (by simp [isTerminated, trim_of_isAllBlank hblank])
    have hplaced := placed_core (standsAt_self view.code) hblank .missingSemicolon
    rw [Nat.zero_add, Nat.zero_add] at hplaced
    exact allPlaced_singleton hplaced

/-! ## 3. Operators and quotes -/

theorem isSolid_spelling (operator : ForeignOperator) : isSolid operator.spelling.toList := by
  cases operator <;> decide

/-- Each search adds an occurrence in a token to what was reported before. -/
theorem allPlaced_foreign (view : RuleView) (operators : List ForeignOperator)
    {reported : List Finding} (h : AllPlaced view.code reported) :
    AllPlaced view.code (foreignFindings view.tokens reported operators) := by
  induction operators generalizing reported with
  | nil => exact h
  | cons operator operators ih =>
    rw [foreignFindings]
    refine ih (allPlaced_append h fun finding hfinding => ?_)
    rw [Option.mem_toList, foreignFinding?] at hfinding
    obtain ⟨start, hfound, rfl⟩ := Option.map_eq_some_iff.mp hfinding
    obtain ⟨token, htoken, hstart⟩ := List.mem_flatMap.mp (List.mem_of_find?_eq_some hfound)
    obtain ⟨k, hk, rfl⟩ := List.mem_map.mp hstart
    have hstands := (Token.standsAt_of_mem_scan (List.mem_filter.mp htoken).1).trans
      (standsAt_of_mem_occurrences hk)
    exact placed_of_standsAt hstands (isSolid_spelling operator) _

theorem allPlaced_operators (view : RuleView) : AllPlaced view.code (operatorFindings view) := by
  unfold operatorFindings
  refine allPlaced_append (allPlaced_foreign view _ (allPlaced_nil _)) ?_
  split
  · next token hfound =>
    have htoken : token ∈ view.tokens := List.mem_of_find?_eq_some hfound
    refine allPlaced_singleton ⟨Token.offset_lt_stop htoken, inSight_offset htoken, ?_⟩
    -- a literal without its closing quote goes to the end of the code
    rcases Token.isSolid_or_stop_eq htoken with hsolid | hstop
    · exact inSight_stop (standsAt_token htoken) hsolid
    · simp only [hstop]
      exact .stop
  · exact allPlaced_nil _

/-! ## 4. Conditions -/

/-- What is found first stands where it is found. -/
theorem exists_of_firstOf? {words : List Text} {offset n size : Nat} {t : Text}
    (h : firstOf? words offset t = some (n, size)) :
    ∃ k, ∃ word ∈ words, n = offset + k ∧ size = byteSize word ∧ StandsAt t k word := by
  induction t generalizing offset with
  | nil => simp [firstOf?] at h
  | cons c cs ih =>
    rw [firstOf?] at h
    split at h
    · next word hfound =>
      obtain ⟨rfl, rfl⟩ : offset = n ∧ byteSize word = size := by simpa using h
      have hstarts := List.find?_some hfound
      refine ⟨0, word, List.mem_of_find?_eq_some hfound, rfl, rfl, ?_⟩
      exact (standsAt_self _).of_isPrefix (List.isPrefixOf_iff_prefix.mp hstarts)
    · obtain ⟨k, word, hword, rfl, hsize, hstands⟩ := ih h
      exact ⟨c.utf8Size + k, word, hword, Nat.add_assoc .., hsize, hstands.cons c⟩

/-- An operator at the end of a text is one of the language, and stands where it is found. -/
theorem exists_of_trailingOperator? {offset n : Nat} {t operator : Text}
    (h : trailingOperator? offset t = some (n, operator)) :
    ∃ k, n = offset + k ∧ StandsAt t k operator ∧ operator ∈ comparisonOperators := by
  induction t generalizing offset with
  | nil => simp [trailingOperator?] at h
  | cons c cs ih =>
    rw [trailingOperator?] at h
    split at h
    · next hmem =>
      obtain ⟨rfl, rfl⟩ : offset = n ∧ c :: cs = operator := by simpa using h
      exact ⟨0, rfl, standsAt_self _, List.contains_iff_mem.mp hmem⟩
    · obtain ⟨k, rfl, hstands, hmem⟩ := ih h
      exact ⟨c.utf8Size + k, Nat.add_assoc .., hstands.cons c, hmem⟩

/-- An operator that lacks an operand stands at the start or at the end. -/
theorem standsAt_of_danglingOperator? {t operator : Text} {n : Nat}
    (h : danglingOperator? t = some (n, operator)) :
    StandsAt t n operator ∧ operator ∈ comparisonOperators := by
  unfold danglingOperator? at h
  split at h
  · next found hfound =>
    obtain ⟨rfl, rfl⟩ : 0 = n ∧ found = operator := by simpa using h
    have hstarts := List.find?_some hfound
    refine ⟨?_, List.mem_of_find?_eq_some hfound⟩
    exact (standsAt_self _).of_isPrefix (List.isPrefixOf_iff_prefix.mp hstarts)
  · obtain ⟨k, rfl, hstands, hmem⟩ := exists_of_trailingOperator? h
    rw [Nat.zero_add]
    exact ⟨hstands, hmem⟩

theorem isSolid_comparisonOperator {operator : Text} (h : operator ∈ comparisonOperators) :
    operator.isSolid := by
  revert operator
  decide

theorem isSolid_misspelled {site : ConditionSite} {spellings : List Text} {issue : Issue}
    (h : (spellings, issue) ∈ misspelledOperators site) :
    ∀ word ∈ spellings, word.isSolid := by
  have hall : ∀ entry ∈ misspelledOperators site, ∀ word ∈ entry.1, isSolid word := by
    cases site <;> decide
  exact hall _ h

/-- A misspelled operator is placed where it stands first, or else with the whole condition. The
operator of the comparison is always found, but nothing here depends on that. -/
theorem allPlaced_spelling (site : ConditionSite) {code core : Text} {base : Nat}
    (hcore : StandsAt code base core) (htrim : core.isTrimmed) :
    AllPlaced code (spellingFindings site base core) := by
  unfold spellingFindings
  split
  · exact allPlaced_nil _
  · intro finding hfinding
    obtain ⟨⟨spellings, issue⟩, hentry, hsome⟩ := List.mem_filterMap.mp hfinding
    simp only at hsome
    split at hsome
    · obtain rfl := Option.some.inj hsome
      cases hfirst : firstOf? spellings 0 core with
      | none =>
        simp only [Option.getD_none, Nat.add_zero]
        exact placed_of_standsAt hcore (isSolid_of_isTrimmed htrim) issue
      | some found =>
        obtain ⟨n, size⟩ := found
        obtain ⟨k, word, hword, rfl, rfl, hk⟩ := exists_of_firstOf? hfirst
        simp only [Option.getD_some, Nat.zero_add]
        exact placed_of_standsAt (hcore.trans hk) (isSolid_misspelled hentry word hword) issue
    · simp at hsome

/-- The findings about a condition that holds more than white space are placed. Each of the four
searches reports the core or an operator in it. -/
theorem allPlaced_conditionText (site : ConditionSite) {code t : Text} {base : Nat}
    (h : StandsAt code base t) (hblank : isAllBlank t = false) :
    AllPlaced code (conditionTextFindings site base t) := by
  obtain ⟨core, htrim, hcore, -, hbetween, -⟩ := exists_core_of_standsAt h hblank
  have hwhole := placed_of_standsAt hcore (isSolid_of_isTrimmed htrim)
  unfold conditionTextFindings
  simp only [hbetween]
  -- the constant, the spelling, the missing operand and the comparison with itself
  refine allPlaced_append (allPlaced_append (allPlaced_append ?_ ?_) ?_) ?_
  · unfold constantFindings
    simp only
    split
    · exact allPlaced_singleton (hwhole _)
    · split
      · exact allPlaced_singleton (hwhole _)
      · exact allPlaced_nil _
  · exact allPlaced_spelling site hcore htrim
  · unfold operandFindings
    split
    · next n operator hfound =>
      obtain ⟨hk, hmem⟩ := standsAt_of_danglingOperator? hfound
      exact allPlaced_singleton
        (placed_of_standsAt (hcore.trans hk) (isSolid_comparisonOperator hmem) _)
    · exact allPlaced_nil _
  · unfold selfComparisonFindings
    split
    · exact allPlaced_nil _
    · split
      · exact allPlaced_singleton (hwhole _)
      · exact allPlaced_nil _

/-- The partner of a bracket is a closing bracket among the tokens, further to the right. -/
theorem exists_closer {tokens : List Token} {i : Nat} {closer : Token}
    (h : (Token.partner? tokens i).bind (tokens[·]?) = some closer) :
    ∃ j, Token.partner? tokens i = some j ∧ i < j ∧ tokens[j]? = some closer ∧
      closer.kind ≠ .string := by
  obtain ⟨j, hj, hcloser⟩ := Option.bind_eq_some_iff.mp h
  obtain ⟨hlt, bracket, t, ht, hkind⟩ := Token.partner?_eq_some hj
  rw [hcloser, Option.some.injEq] at ht
  subst ht
  refine ⟨j, hj, hlt, hcloser, ?_⟩
  rw [hkind]
  simp

/-- Skipping `else` leaves some of the tokens, in their order. -/
theorem skipElse_sublist (tokens : List Token) : (skipElse tokens).Sublist tokens := by
  have hdrop (b : Bool) (ts : List Token) : (if b then ts.drop 1 else ts).Sublist ts := by
    cases b
    · exact List.Sublist.refl ts
    · exact List.drop_sublist 1 ts
  exact (hdrop _ _).trans (hdrop _ _)

/-- A condition lies between its brackets. If there is none the brackets are reported. -/
theorem allPlaced_conditionHeader (view : RuleView) (site : ConditionSite)
    {keyword opener closer : Token} (hkeyword : keyword ∈ view.tokens)
    (hopener : opener ∈ view.tokens) (hcloser : closer ∈ view.tokens)
    (hkind : closer.kind ≠ .string) (hfirst : keyword.offset ≤ closer.offset)
    (horder : opener.stop ≤ closer.offset) :
    AllPlaced view.code (conditionHeaderFindings view site keyword opener closer) := by
  have hbraces {b : Bool} :
      AllPlaced view.code
        (if b then [⟨keyword.offset, view.codeEnd, .missingBraces⟩] else []) := by
    cases b
    · exact allPlaced_nil _
    · exact allPlaced_singleton (placed_toEnd hkeyword _)
  unfold conditionHeaderFindings
  simp only
  split
  · refine allPlaced_cons ⟨?_, inSight_offset hkeyword, ?_⟩ hbraces
    · have hlt := Token.offset_lt_stop hcloser
      simp only
      omega
    · exact (placed_token hcloser hkind .emptyCondition).stop
  · next hblank =>
    have hregion := standsAt_between (isBoundary_tokenStop hopener) (isBoundary_tokenStart hcloser)
      horder
    exact allPlaced_append hbraces
      (allPlaced_conditionText site hregion (by simpa using hblank))

/-- **The findings about conditions are placed.** The keyword and the two brackets of a condition
are tokens in this order, so what lies between them can be cut out. -/
theorem allPlaced_condition (view : RuleView) : AllPlaced view.code (conditionFindings view) := by
  have hsublist := skipElse_sublist view.tokens
  have hpairwise := (Token.pairwise_scan view.code).sublist hsublist
  unfold conditionFindings
  split
  · exact allPlaced_nil _
  · next keyword rest hskip =>
    rw [hskip] at hsublist hpairwise
    have hmem {token : Token} (h : token ∈ keyword :: rest) : token ∈ view.tokens :=
      hsublist.subset h
    have hkeyword := hmem List.mem_cons_self
    split
    · split
      · exact allPlaced_singleton (placed_toEnd hkeyword _)
      · exact allPlaced_nil _
    · split
      · simp only
        split
        · next opener closer hhead hpartner =>
          split
          · -- the keyword, the opening and the closing bracket stand in this order
            obtain ⟨j, -, hj, hget, hkind⟩ := exists_closer hpartner
            obtain ⟨rest, rfl⟩ := List.head?_eq_some_iff.mp hhead
            obtain ⟨j, rfl⟩ : ∃ k, j = k + 1 := ⟨j - 1, by omega⟩
            have hcloser : closer ∈ rest := List.mem_of_getElem? hget
            have horder := List.pairwise_cons.mp hpairwise
            have hfirst := horder.1 closer (List.mem_cons_of_mem _ hcloser)
            have hlt := Token.offset_lt_stop hkeyword
            exact allPlaced_conditionHeader view _ hkeyword (hmem (by simp))
              (hmem (by simp [hcloser])) hkind (by omega)
              ((List.pairwise_cons.mp horder.2).1 closer hcloser)
          · exact allPlaced_nil _
        · exact allPlaced_nil _
      · exact allPlaced_nil _

end MacroScript
