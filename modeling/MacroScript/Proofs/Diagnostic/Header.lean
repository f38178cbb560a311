import MacroScript.Proofs.Diagnostic.Declaration

/-!
# Where the findings about headers are placed

A header is taken apart at tokens of its line, its keyword and its brackets, and what stands between
the brackets of a loop is cut further into clauses at its top-level semicolons. Every clause stands
in the line at its own offset, so the rules for statements and conditions apply to it as they do to
a line. **A header that is not closed goes to the end of the code**, which is in sight.
-/
namespace MacroScript

open Text

/-! ## 1. Functions and classes -/

/-- A missing block is reported at the bracket that closes the header. -/
theorem allPlaced_block (view : RuleView) {closer : Option Token}
    (h : ∀ token, closer = some token → token ∈ view.tokens) :
    AllPlaced view.code (view.blockFindings closer) := by
  unfold RuleView.blockFindings
  split
  · next token =>
    split
    · exact allPlaced_nil _
    · exact allPlaced_singleton (placed_toEnd (h token rfl) _)
  · exact allPlaced_nil _

theorem allPlaced_functionKeyword (code : Text) :
    AllPlaced code (functionKeywordFindings code) := by
  unfold functionKeywordFindings
  split
  · exact allPlaced_nil _
  · next word words hwords =>
    have hmem : word ∈ wholeWords "function".toList code := by
      rw [hwords]
      exact List.mem_cons_self
    exact allPlaced_singleton
      (placed_of_standsAt (standsAt_of_mem_wholeWords hmem) (by decide) _)

/-- The name lies between two tokens, and is trimmed. If there is none the bracket is reported. -/
theorem allPlaced_headerName (view : RuleView) (header : HeaderKind) {keyword opener : Token}
    (hkeyword : keyword ∈ view.tokens) (hopener : opener ∈ view.tokens)
    (hkind : opener.kind ≠ .string) (horder : keyword.stop ≤ opener.offset) (index : Nat) :
    AllPlaced view.code (headerNameFindings view.code header keyword opener index) := by
  unfold headerNameFindings
  split
  · exact allPlaced_singleton (placed_token hopener hkind _)
  · have hregion := standsAt_between (isBoundary_tokenStop hkeyword) (isBoundary_tokenStart hopener)
      horder
    simp only
    split
    · next hbad =>
      refine allPlaced_singleton (placed_core hregion ?_ _)
      -- in white space there is no name and so no bad character
      by_contra hblank
      rw [Bool.not_eq_false] at hblank
      rw [coreSpan_of_isAllBlank hblank, between_self] at hbad
      simp [badNameChar?] at hbad
    · exact allPlaced_nil _

/-- A header is looked through from its keyword on. The bracket comes after the keyword, since the
keyword is no bracket and tokens do not overlap. -/
theorem allPlaced_headerLine (view : RuleView) (header : HeaderKind) {keyword : Token}
    {rest : List Token} (htokens : view.tokens = keyword :: rest)
    (hword : keyword.kind = .name) :
    AllPlaced view.code (headerLineFindings view header keyword rest) := by
  have hkeyword : keyword ∈ view.tokens := by rw [htokens]; exact List.mem_cons_self
  have hpairwise : view.tokens.Pairwise fun a b => a.stop ≤ b.offset :=
    Token.pairwise_scan view.code
  unfold headerLineFindings
  simp only [← htokens]
  split
  · exact allPlaced_singleton (placed_toEnd hkeyword _)
  · split
    · exact allPlaced_nil _
    · next index hindex =>
      split
      · exact allPlaced_nil _
      · next opener hopener =>
        have hmem : opener ∈ view.tokens := List.mem_of_getElem? hopener
        obtain ⟨hlt, hround, -⟩ := List.findIdx?_eq_some_iff_getElem.mp hindex
        have hget := List.getElem?_eq_getElem hlt
        rw [hopener, Option.some.injEq] at hget
        rw [decide_eq_true_eq, ← hget] at hround
        have horder : keyword.stop ≤ opener.offset := by
          rw [htokens] at hpairwise hopener
          cases index with
          | zero =>
            -- the keyword is no bracket
            rw [← Option.some.inj hopener, hword] at hround
            contradiction
          | succ index =>
            exact (List.pairwise_cons.mp hpairwise).1 opener (List.mem_of_getElem? hopener)
        refine allPlaced_append (allPlaced_headerName view header hkeyword hmem
          (by rw [hround]; simp) horder index) (allPlaced_block view fun token htoken => ?_)
        obtain ⟨j, -, -, hget, -⟩ := exists_closer htoken
        exact List.mem_of_getElem? hget

theorem allPlaced_header (view : RuleView) : AllPlaced view.code (headerFindings view) := by
  unfold headerFindings
  refine allPlaced_append (allPlaced_functionKeyword _) ?_
  split
  · exact allPlaced_nil _
  · next keyword rest htokens =>
    split
    · next hword => exact allPlaced_headerLine view _ htokens (Token.kind_of_isWord hword)
    · split
      · next hword => exact allPlaced_headerLine view _ htokens (Token.kind_of_isWord hword)
      · exact allPlaced_nil _

/-! ## 2. Loops over items -/

/-- A loop header is in its place: findings about its keyword and about its brackets are placed, and
what is between the brackets stands at its offset. This is all that the rules for its clauses ask
for, whether the header is closed or not. -/
structure LoopHeader.Placed (view : RuleView) (header : LoopHeader) : Prop where
  keyword : ∀ issue, Finding.Placed view.code ⟨header.keyword.offset, header.keyword.stop, issue⟩
  brackets : ∀ issue, Finding.Placed view.code ⟨header.start, header.stop, issue⟩
  inner : StandsAt view.code header.base header.inner

/-- The separator is a token, and it is no string. -/
theorem mem_of_separatorFrom {depth : Int} {ts : List Token} {t : Token}
    (h : separatorFrom depth ts = some t) : t ∈ ts ∧ t.kind ≠ .string := by
  induction ts generalizing depth with
  | nil => simp [separatorFrom] at h
  | cons u us ih =>
    rw [separatorFrom] at h
    split at h
    · next hseparates =>
      obtain rfl := Option.some.inj h
      refine ⟨List.mem_cons_self, ?_⟩
      rw [Bool.and_eq_true, Bool.or_eq_true, Bool.or_eq_true, decide_eq_true_eq,
        decide_eq_true_eq] at hseparates
      rcases hseparates.2 with (hcolon | hof) | hin
      · rw [hcolon]
        simp
      · exact ne_string_of_isWord hof
      · exact ne_string_of_isWord hin
    · obtain ⟨hmem, hkind⟩ := ih h
      exact ⟨List.mem_cons_of_mem _ hmem, hkind⟩

theorem allPlaced_itemLoop {view : RuleView} {header : LoopHeader} (h : header.Placed view)
    {tokens : List Token}
    (htokens : ∀ token ∈ tokens, token ∈ view.tokens ∧ isAllBlank header.inner = false) :
    AllPlaced view.code (itemLoopFindings header tokens) := by
  unfold itemLoopFindings
  split
  · exact allPlaced_singleton (h.brackets _)
  · next separator hseparator =>
    obtain ⟨hmem, hkind⟩ := mem_of_separatorFrom hseparator
    obtain ⟨hview, hblank⟩ := htokens separator hmem
    simp only
    refine allPlaced_append ?_ ?_
    · split
      · exact allPlaced_nil _
      · exact allPlaced_singleton (placed_token hview hkind _)
    · split
      · exact allPlaced_nil _
      · exact allPlaced_singleton (placed_core h.inner hblank _)

/-! ## 3. Loops with clauses -/

/-- Two semicolons and the white space between them are a solid part: it starts and ends with a
semicolon. -/
theorem exists_of_twinSemicolons? {offset start stop : Nat} {t : Text}
    (h : twinSemicolons? offset t = some (start, stop)) :
    ∃ k pair, start = offset + k ∧ stop = start + byteSize pair ∧ StandsAt t k pair ∧
      pair.isSolid := by
  induction t generalizing offset with
  | nil => simp [twinSemicolons?] at h
  | cons c cs ih =>
    rw [twinSemicolons?] at h
    split at h
    · next htwin =>
      rw [Bool.and_eq_true, decide_eq_true_eq, decide_eq_true_eq] at htwin
      obtain ⟨rfl, hnext⟩ := htwin
      obtain ⟨rest, hrest⟩ := List.head?_eq_some_iff.mp hnext
      obtain ⟨rfl, rfl⟩ := Prod.mk.inj (Option.some.inj h)
      have hsplit := List.prefix_iff_eq_append.mp (List.takeWhile_prefix isBlank : _ <+: cs)
      rw [hrest] at hsplit
      -- what is found starts here, and reaches over the white space to the second semicolon
      generalize cs.takeWhile isBlank = blanks at hsplit ⊢
      subst hsplit
      refine ⟨0, ';' :: blanks ++ [';'], rfl, ?_, ⟨[], rest, by simp, rfl⟩, ?_⟩
      · have hone : ';'.utf8Size = 1 := rfl
        simp only [List.cons_append, byteSize_cons, byteSize_append, byteSize_nil, hone]
        omega
      · rw [isSolid, List.getLast?_concat]
        rfl
    · obtain ⟨k, pair, rfl, hstop, hstands, hsolid⟩ := ih h
      exact ⟨c.utf8Size + k, pair, Nat.add_assoc .., hstop, hstands.cons c, hsolid⟩

/-- The semicolon before the last clause is in sight. It is reported by its distance from the
clause, which is one byte. -/
theorem placed_lastSemicolon {view : RuleView} {header : LoopHeader} (h : header.Placed view)
    (hseveral : 1 < (topLevelParts ';' header.inner).length) {offset : Nat} {last : Text}
    (hlast : (topLevelParts ';' header.inner).getLast? = some (offset, last)) (issue : Issue) :
    Finding.Placed view.code ⟨header.base + offset - 1, header.base + offset, issue⟩ := by
  obtain ⟨k, rfl, hstands⟩ := standsAt_last_of_topLevelParts hseveral hlast
  have hplaced := placed_of_standsAt (h.inner.trans (hstands.of_isPrefix (s := [';']) ⟨last, rfl⟩))
    (by decide) issue
  have hone : ';'.utf8Size = 1 := rfl
  rw [byteSize_cons, byteSize_nil, hone, Nat.add_zero] at hplaced
  rw [hone, ← Nat.add_assoc, Nat.add_sub_cancel]
  exact hplaced

/-- Too few clauses are reported over the whole header, and too many at the semicolon that is too
much. -/
theorem allPlaced_clauseCount {view : RuleView} {header : LoopHeader} (h : header.Placed view) :
    AllPlaced view.code (clauseCountFindings header (topLevelParts ';' header.inner)) := by
  have hwhole (issue : Issue) : AllPlaced view.code [⟨header.start, header.stop, issue⟩] :=
    allPlaced_singleton (h.brackets issue)
  unfold clauseCountFindings
  cases hdoubled : twinSemicolons? 0 header.inner with
  | some pair =>
    obtain ⟨start, stop⟩ := pair
    obtain ⟨k, pair, rfl, rfl, hstands, hsolid⟩ := exists_of_twinSemicolons? hdoubled
    simp only [Option.isNone_some, Bool.and_false]
    refine allPlaced_cons ?_ ?_
    · rw [Nat.zero_add, ← Nat.add_assoc]
      exact placed_of_standsAt (h.inner.trans hstands) hsolid _
    · split
      · exact hwhole _
      · exact allPlaced_nil _
  | none =>
    simp only [Option.isNone_none, Bool.and_true]
    split
    · exact hwhole _
    · split
      · -- with more than three clauses there is a semicolon before the last one
        next hmore =>
        rw [decide_eq_true_eq] at hmore
        split
        · next offset last hlast =>
          split
          · exact allPlaced_singleton (placed_lastSemicolon h (by omega) hlast _)
          · exact hwhole _
        · exact hwhole _
      · exact allPlaced_nil _

/-- The first clause is a `var` statement and is checked as one; if it is anything else its core is
reported, and if it is empty the keyword. -/
theorem allPlaced_firstClause {view : RuleView} {header : LoopHeader} (h : header.Placed view)
    {offset : Nat} {clause : Text} (hclause : StandsAt header.inner offset clause) :
    AllPlaced view.code (firstClauseFindings view header offset clause) := by
  have hcode := h.inner.trans hclause
  unfold firstClauseFindings
  simp only
  split
  · next hvar =>
    cases hblank : isAllBlank clause with
    | true =>
      -- nothing is left of white space
      have hempty := dropBytes_byteSize_append clause []
      rw [List.append_nil] at hempty
      rw [coreSpan_of_isAllBlank hblank, hempty] at hvar
      contradiction
    | false =>
      obtain ⟨front, core, back, heq, -, hback, -, hspan⟩ := exists_core hblank
      obtain ⟨hcore, hbetween⟩ := standsAt_core heq hspan
      rw [hbetween]
      refine allPlaced_varStatement view (hcode.trans hcore) ?_
      have hstarts := isPrefix_of_opensWithWord hvar
      rw [hspan, heq, List.append_assoc, dropBytes_byteSize_append] at hstarts
      exact isPrefix_of_append_blank hstarts (by decide) hback
  · split
    · next hlt =>
      refine allPlaced_singleton (placed_core hcode ?_ _)
      by_contra hblank
      rw [Bool.not_eq_false] at hblank
      rw [coreSpan_of_isAllBlank hblank] at hlt
      simp at hlt
    · exact allPlaced_singleton (h.keyword _)

theorem allPlaced_clauses {view : RuleView} {header : LoopHeader} (h : header.Placed view) :
    AllPlaced view.code (clauseFindings view header (topLevelParts ';' header.inner)) := by
  unfold clauseFindings
  refine allPlaced_append (allPlaced_clauseCount h) ?_
  have hstands {n : Nat} {part : Text} (hmem : (n, part) ∈ topLevelParts ';' header.inner) :=
    (standsAt_of_mem_topLevelParts hmem).1
  split
  · exact allPlaced_nil _
  · next offset first rest hparts =>
    rw [hparts] at hstands
    refine allPlaced_append (allPlaced_firstClause h (hstands List.mem_cons_self)) ?_
    unfold secondClauseFindings
    split
    · next offset condition rest =>
      split
      · exact allPlaced_nil _
      · next hblank =>
        exact allPlaced_conditionText _ (h.inner.trans (hstands (by simp))) (by simpa using hblank)
    · exact allPlaced_nil _

/-! ## 4. Loop headers -/

/-- What two boundaries cut out is not white space if a token starts in it. (The token may be a
string that goes on behind the code, so that only its part of the code is asked for.) -/
theorem not_blank_of_token {view : RuleView} {token : Token} (h : token ∈ view.tokens)
    {start stop : Nat} (hstart : isBoundary start view.code) (hstop : isBoundary stop view.code)
    (hle : start ≤ token.offset) (hge : min token.stop view.codeEnd ≤ stop) :
    isAllBlank (between start stop view.code) = false := by
  obtain ⟨c, hc, hstands, hend⟩ := Token.exists_first_of_mem_scan h
  have hcore : token.offset + c.utf8Size ≤ view.codeEnd := stop_le_coreSpan hstands hc
  have hone : byteSize [c] = c.utf8Size := rfl
  obtain ⟨front, back, heq, -⟩ := hstands.between hstart hstop hle (by omega)
  rw [isAllBlank, List.all_eq_false]
  exact ⟨c, by rw [RuleView.code, heq]; simp, by simp [hc]⟩

/-- The end of the code without the white space behind it is a boundary. -/
theorem isBoundary_codeEnd (view : RuleView) : isBoundary view.codeEnd view.code := by
  unfold RuleView.codeEnd RuleView.code
  cases hblank : isAllBlank view.line.code with
  | true =>
    rw [coreSpan_of_isAllBlank hblank]
    exact isBoundary_byteSize _
  | false =>
    obtain ⟨core, -, -, hcore, -, hstop⟩ := exists_core_of_standsAt (standsAt_self _) hblank
    rw [hstop]
    exact hcore.isBoundary_stop

/-- A bracket is one character, so it ends before the code does. -/
theorem stop_le_codeEnd {view : RuleView} {token : Token} (h : token ∈ view.tokens)
    {bracket : Bracket} (hkind : token.kind = .opener bracket) : token.stop ≤ view.codeEnd := by
  obtain ⟨front, c, cs, hcode, hc, rfl⟩ := Token.exists_of_mem_scan h
  simp only at hkind
  have hstands : StandsAt view.line.code (byteSize front) [c] :=
    ⟨front, cs, by rw [hcode, List.append_assoc]; rfl, rfl⟩
  have hle := stop_le_coreSpan hstands hc
  have hone : Token.tail (.opener bracket) c cs = [] := rfl
  rw [Token.stop, hkind, hone]
  exact hle

/-- What is found in a header that is in its place is placed, be it read as clauses or as a loop
over items. -/
theorem allPlaced_loopBody {view : RuleView} {header : LoopHeader} (h : header.Placed view)
    {tokens : List Token}
    (htokens : ∀ token ∈ tokens, token ∈ view.tokens ∧ isAllBlank header.inner = false)
    {closer : Option Token} (hcloser : ∀ token, closer = some token → token ∈ view.tokens) :
    AllPlaced view.code
      ((if (topLevelParts ';' header.inner).length = 1 then itemLoopFindings header tokens
        else clauseFindings view header (topLevelParts ';' header.inner)) ++
          view.blockFindings closer) := by
  refine allPlaced_append ?_ (allPlaced_block view hcloser)
  split
  · exact allPlaced_itemLoop h htokens
  · exact allPlaced_clauses h

/-- **The findings about a loop header are placed.** A header that is closed ends with its bracket,
and one that is not ends with the code. Both are in sight, and what is between the brackets is cut
out at boundaries. -/
theorem allPlaced_loopHeader (view : RuleView) {keyword opener : Token} {rest : List Token}
    (htokens : view.tokens = keyword :: opener :: rest) (hword : keyword.kind ≠ .string)
    (hround : opener.kind = .opener .round) :
    AllPlaced view.code (loopHeaderFindings view keyword opener rest) := by
  have hmem {token : Token} (h : token ∈ keyword :: opener :: rest) : token ∈ view.tokens := by
    rw [htokens]
    exact h
  have hopener := hmem (List.mem_cons_of_mem _ List.mem_cons_self)
  have hpairwise : (opener :: rest).Pairwise fun a b => a.stop ≤ b.offset := by
    have hall : view.tokens.Pairwise fun a b => a.stop ≤ b.offset := Token.pairwise_scan view.code
    rw [htokens] at hall
    exact hall.of_cons
  have hkeyword := placed_token (hmem List.mem_cons_self) hword
  have hafter := (List.pairwise_cons.mp hpairwise).1
  unfold loopHeaderFindings
  cases hcloser : (Token.partner? (opener :: rest) 0).bind ((opener :: rest)[·]?) with
  | none =>
    -- the header goes on to the end of the code
    have hclose := Token.partner?_eq_none hcloser
    have hplaced : LoopHeader.Placed view ⟨keyword, opener.offset, view.codeEnd, opener.stop,
        between opener.stop view.codeEnd view.code⟩ :=
      ⟨hkeyword, placed_toEnd hopener, standsAt_between (isBoundary_tokenStop hopener)
        (isBoundary_codeEnd view) (stop_le_codeEnd hopener hround)⟩
    simp only [hclose, Option.bind_none]
    refine allPlaced_loopBody hplaced (fun token h => ?_) (by simp)
    have htoken := hmem (List.mem_cons_of_mem _ (List.mem_cons_of_mem _ h))
    exact ⟨htoken, not_blank_of_token htoken (isBoundary_tokenStop hopener)
      (isBoundary_codeEnd view) (hafter token h) (Nat.min_le_right _ _)⟩
  | some closer =>
    obtain ⟨j, hclose, hj, hget, hkind⟩ := exists_closer hcloser
    obtain ⟨i, rfl⟩ : ∃ i, j = i + 1 := ⟨j - 1, by omega⟩
    rw [List.getElem?_cons_succ] at hget
    have hmemCloser := List.mem_of_getElem? hget
    have hview := hmem (List.mem_cons_of_mem _ (List.mem_cons_of_mem _ hmemCloser))
    have horder := hafter closer hmemCloser
    have hlt : opener.offset < closer.stop := by
      have hfirst := Token.offset_lt_stop hopener
      have hlast := Token.offset_lt_stop hview
      omega
    have hplaced : LoopHeader.Placed view ⟨keyword, opener.offset, closer.stop, opener.stop,
        between opener.stop closer.offset view.code⟩ :=
      ⟨hkeyword, fun issue =>
        ⟨hlt, inSight_offset hopener, (placed_token hview hkind issue).stop⟩,
        standsAt_between (isBoundary_tokenStop hopener) (isBoundary_tokenStart hview) horder⟩
    simp only [hclose, Option.bind_some, List.getElem?_cons_succ, hget, Nat.add_sub_cancel]
    refine allPlaced_loopBody hplaced (fun token h => ?_) (fun token h => ?_)
    · have hbefore := Token.stop_le_of_mem_take hpairwise.of_cons h hget
      have hrest := List.mem_of_mem_take h
      have htoken := hmem (List.mem_cons_of_mem _ (List.mem_cons_of_mem _ hrest))
      exact ⟨htoken, not_blank_of_token htoken (isBoundary_tokenStop hopener)
        (isBoundary_tokenStart hview) (hafter token hrest)
        (Nat.le_trans (Nat.min_le_left _ _) hbefore)⟩
    · rw [← Option.some.inj h]
      exact hview

theorem allPlaced_loop (view : RuleView) : AllPlaced view.code (loopFindings view) := by
  unfold loopFindings
  split
  · exact allPlaced_nil _
  · next keyword rest htokens =>
    have hkeyword : keyword ∈ view.tokens := by rw [htokens]; exact List.mem_cons_self
    split
    · next hfor =>
      have hkind := ne_string_of_isWord hfor
      split
      · next opener rest =>
        split
        · next hround => exact allPlaced_loopHeader view htokens hkind hround
        · exact allPlaced_singleton (placed_token hkeyword hkind _)
      · exact allPlaced_singleton (placed_token hkeyword hkind _)
    · exact allPlaced_nil _

end MacroScript
