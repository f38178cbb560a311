import MacroScript.Proofs.Diagnostic.Issue
import MacroScript.Proofs.Diagnostic.Range
import MacroScript.Proofs.Inference.Receiver
import MacroScript.Proofs.Symbol.Alias
import MacroScript.Proofs.Symbol.Outermost

/-!
# Values that are names

In `var x = y;` the name `y` is accepted as a value in either of two ways: what is seen on the line
gives it a tag, or it was declared up to the line. The first looks at the finished table and the
second at the number of the line, and they do not agree on what comes later: **a name that is not
declared up to the line is reported unless it is declared further down, outside all blocks and with
a known tag** (`undeclared_name_reported_unless_known`).
-/
namespace MacroScript

open Text Shape

/-! ## 1. The tag of a name -/

/-- The shapes of literals do not start with a letter or an underscore, so none of them is a name.
-/
theorem Shape.openings_of_isOpenEnded : ∀ shape ∈ table, shape.isOpenEnded →
    ∀ opening ∈ openings shape.pieces, opening.word = [] ∧
      opening.next ∈ [some '"', some '[', some '0'] := by
  decide

/-- The words that are shapes by themselves are built in. A name that is not built in is none of
them. -/
theorem Shape.isBuiltIn_of_bare : ∀ shape ∈ table, shape.pieces = bare shape.tag.canonical →
    Catalogue.isBuiltIn shape.tag.canonical.toList := by
  decide

/-- A name opens with a letter, which begins its word, or with an underscore. -/
theorem Opening.ofText_name {name : Text} (h : name.isAsciiName) :
    (Opening.ofText name).word ≠ [] ∨ (Opening.ofText name).next = some '_' := by
  cases name with
  | nil => contradiction
  | cons c cs =>
    rw [Text.isAsciiName, Bool.and_eq_true, Bool.or_eq_true, beq_iff_eq] at h
    rcases h.1 with halpha | rfl
    · exact .inl (by simp [Opening.ofText, halpha])
    · exact .inr rfl

/-- **No shape accepts a name that is not built in.** The shapes are gone through by how they end: a
name ends with no bracket and starts like no literal, and the words of the other shapes are built
in. -/
theorem Tag.classify_name {name : Text} (h : name.isAsciiName)
    (hbuiltIn : Catalogue.isBuiltIn name = false) : Tag.classify name = .any := by
  have hchars := isAsciiNameChar_of_isAsciiName h
  have htrim : name.isTrimmed :=
    isTrimmed_of_forall (ne_nil_of_isAsciiName h) fun c hc =>
      isBlank_of_isAsciiNameChar (hchars c hc)
  have hlast {c : Char} (hc : isAsciiNameChar c = false) : name.getLast? ≠ some c := by
    intro hlast
    rw [hchars c (List.mem_of_getLast? hlast)] at hc
    contradiction
  rw [Tag.classify, expression_of_isTrimmed htrim (hlast (by decide))]
  -- for each group of shapes: what such a shape accepts is no name, or is built in
  refine Tag.ofShape_eq_any fun shape hshape haccepts => ?_
  rcases table_cases shape hshape with hclosed | hopen | hbare | hboolean | hmap
  · exact hlast (by decide) (getLast?_of_isClosed hclosed haccepts)
  · obtain ⟨hword, hnext⟩ :=
      openings_of_isOpenEnded shape hshape hopen _ (ofText_mem_of_accepts hshape haccepts)
    rcases Opening.ofText_name h with hletter | hscore
    · exact hletter hword
    · rw [hscore] at hnext
      exact absurd hnext (by decide)
  · have hbuilt := isBuiltIn_of_bare shape hshape hbare
    rw [accepts, hbare] at haccepts
    obtain rfl : name = _ := (fits_singleton (by simp)).mp haccepts
    rw [hbuilt] at hbuiltIn
    contradiction
  · obtain rfl := Tag.eq_of_tag_eq hshape Shape.mem_table_boolean hboolean
    obtain ⟨w, hw, rfl⟩ := (fits_singleton (by simp)).mp haccepts
    have hwords : ∀ w ∈ ["true", "false"], Catalogue.isBuiltIn w.toList := by decide
    rw [hwords w hw] at hbuiltIn
    contradiction
  · obtain rfl := Tag.eq_of_tag_eq hshape mem_table_map hmap
    rcases fits_map.mp haccepts with hfront | hcall
    · obtain rfl := eq_of_fits_mapFront htrim hfront
      exact absurd hbuiltIn (by decide)
    · exact hlast (by decide)
        (getLast?_of_fits_call (rest_not_mem_of_isOpenless isOpenless_mapFront) hcall)

/-- The tag of a name that is not built in is the one that is known of it, if any is. If none is,
the name is left as it stands, and no shape accepts it. -/
theorem Names.infer_ne_any_iff (names : Names) {name : Text} (hname : name.isName)
    (hascii : name.isAsciiName) (hbuiltIn : Catalogue.isBuiltIn name = false) :
    names.infer name ≠ .any ↔ ∃ tag, tag ≠ .any ∧ names name = some tag := by
  constructor
  · intro hinfer
    by_contra hnone
    have hsegment : names.segment name = name := by
      rw [segment, trim_of_isTrimmed (isTrimmed_of_isName hname)]
      split
      · rfl
      · next tag htag hknown => exact absurd ⟨tag, htag, hknown⟩ hnone
      · rfl
    have hself : names.substitute name = name := by
      rw [substitute, expression_of_isName hname, topLevelParts_of_isName hname,
        List.map_singleton, hsegment]
      exact List.intercalate_singleton
    rw [infer, hself, Tag.classify_name hascii hbuiltIn] at hinfer
    contradiction
  · rintro ⟨tag, htag, hknown⟩
    rwa [infer_name hname hknown htag]

/-! ## 2. Lines that start with `var` -/

section VarLine

variable {view : RuleView} {offset : Nat} {rest : List Token}
  (htokens : view.tokens = ⟨.name, "var".toList, offset⟩ :: rest)

include htokens

theorem conditionFindings_of_var : conditionFindings view = [] := by
  rw [conditionFindings, htokens]
  rfl

theorem headerFindings_of_var : headerFindings view = functionKeywordFindings view.code := by
  rw [headerFindings, htokens]
  exact List.append_nil _

theorem loopFindings_of_var : loopFindings view = [] := by
  rw [loopFindings, htokens]
  rfl

/-- **Only the check of the statement is about its value.** On a line that starts with `var` the
rules for conditions and loops find nothing, and all others have other issues. -/
theorem mem_findings_of_var {f : Finding} (hissue : f.issue = .unknownValue) :
    f ∈ view.findings ↔ f ∈ varStatementFindings view (dropBytes offset view.code) offset := by
  have hdeclaration : f ∈ declarationFindings view ↔
      f ∈ varStatementFindings view (dropBytes offset view.code) offset := by
    have hlone : f ∉ loneVarFindings view.code := fun h => by
      simp [issue_of_mem_loneVarFindings h] at hissue
    have hlet : f ∉ keywordFindings "let".toList .letKeyword view.code := fun h => by
      simp [issue_of_mem_keywordFindings h] at hissue
    have hconst : f ∉ keywordFindings "const".toList .constKeyword view.code := fun h => by
      simp [issue_of_mem_keywordFindings h] at hissue
    have hcopy : f ∉ selfCopyFindings view := fun h => by
      simpa [hissue] using issue_of_mem_selfCopyFindings h
    have hvar : (⟨.name, "var".toList, offset⟩ : Token).isWord "var" := rfl
    simp only [declarationFindings, htokens, List.head?_cons, hvar, if_true, List.mem_append, hlone,
      hlet, hconst, hcopy, false_or, or_false]
  -- the other rules: two of them have other issues, and three find nothing on such a line
  have hterminator : f ∉ terminatorFindings view := fun h => by
    simp [issue_of_mem_terminatorFindings h] at hissue
  have hoperator : f ∉ operatorFindings view := fun h => by
    have hmem := issue_of_mem_operatorFindings h
    rw [hissue] at hmem
    exact absurd hmem (by decide)
  have hfunction : f ∉ functionKeywordFindings view.code := fun h => by
    simp [issue_of_mem_functionKeywordFindings h] at hissue
  simp [RuleView.findings, Rule.all, Rule.findings, hdeclaration, hterminator, hoperator,
    conditionFindings_of_var htokens, headerFindings_of_var htokens, loopFindings_of_var htokens,
    hfunction]

end VarLine

/-! ## 3. `var x = y;` -/

/-- The statement taken apart: its keyword, its assignment and its value. The line is scanned from
its keyword on, and the tokens of the assignment are those that it is made of. -/
theorem Declares.exists_statement {x y code : Text} (h : Declares x y code) :
    ∃ lead t rest n, code = lead ++ t ∧
      Token.scan code = ⟨.name, "var".toList, byteSize lead⟩ :: rest ∧
      (VarStatement.ofText t).assignment = some n ∧
      between (VarStatement.ofText t).valueStart (VarStatement.ofText t).valueStop t = y := by
  obtain ⟨lead, b, code, hlead, hb, rfl, hassigns⟩ := h
  have hblank : ∀ c ∈ (b :: code).head?, isNameChar c = false := by
    simpa using isNameChar_of_isBlank hb
  -- the scan takes the keyword and the white space behind it, and goes on with the assignment
  have hscan (offset : Nat) : Token.scanFrom offset ("var".toList ++ b :: code) =
      ⟨.name, "var".toList, offset⟩ :: Token.scanFrom (offset + 3 + b.utf8Size) code := by
    rw [Token.scanFrom_name (by decide) hblank, Token.scanFrom_blank _ _ hb]
    rfl
  obtain ⟨b₀, b₁, value, back, k, -, -, hcode, hvalue, -, htokens⟩ :=
    hassigns.exists_parts (3 + b.utf8Size)
  obtain ⟨front, behind, hfront, hbehind, hsplit, -⟩ := exists_trim value
  rw [hvalue] at hsplit
  have hall := hscan 0
  rw [Nat.zero_add, htokens] at hall
  -- the statement is read from the same tokens, by the first assignment and the first semicolon
  have hstatement := VarStatement.ofText_eq
    (congrArg (List.find? Token.assigns) hall)
    (congrArg (fun tokens => ((tokens.find? fun token => token.kind = .semicolon).map
      Token.offset).getD (byteSize ("var".toList ++ b :: code))) hall)
  have hkeyword : byteSize "var".toList = 3 := by decide
  have ht : "var".toList ++ b :: code = ("var".toList ++ b :: (b₀ ++ x ++ b₁ ++ ['='])) ++
      (front ++ y ++ behind ++ ';' :: back) := by
    rw [hcode, hsplit]
    simp
  refine ⟨lead, "var".toList ++ b :: code, Token.scanFrom (byteSize lead + 3 + b.utf8Size) code,
    3 + b.utf8Size + byteSize (b₀ ++ x ++ b₁), List.append_assoc .., ?_, ?_, ?_⟩
  · rw [Token.scan, List.append_assoc, Token.scanFrom_blanks (List.all_eq_true.mp hlead), hscan,
      Nat.zero_add]
  · rw [hstatement]
  · rw [hstatement]
    refine between_spanBetween _ _ ht ?_ ?_ hfront (isTrimmed_of_isName hassigns.2.1) hbehind
    · have hequals : byteSize ['='] = 1 := by decide
      simp only [Token.valueOffset, byteSize_append, byteSize_cons, hkeyword, hequals]
      omega
    · simp [Token.valueOffset, hsplit]

/-! ## 4. The check of the value -/

section NameValue

variable {view : RuleView} {y : Text} (hname : y.isName) (hascii : y.isAsciiName)
  (hbuiltIn : Catalogue.isBuiltIn y = false)

include hname hascii hbuiltIn

/-- A name that is not declared up to the line is recognised by its tag or not at all. It is one
token, so the other ways to recognise a value do not apply. -/
theorem isRecognised_name (hdeclares : view.table.declaresBy y view.line.index = false) :
    isRecognised view y ↔ ∃ tag, tag ≠ .any ∧ view.table.namesOn view.line.index y = some tag := by
  have hscan : Token.scan y = [⟨.name, y, 0⟩] := by
    have hrest : ∀ c ∈ ([] : Text).head?, isNameChar c = false := by simp
    rw [Token.scan, ← List.append_nil y, Token.scanFrom_name hname hrest, List.append_nil,
      Token.scanFrom_nil]
  rw [← Names.infer_ne_any_iff _ hname hascii hbuiltIn, isRecognised, hscan]
  simp [chainRoots, hbuiltIn, hdeclares]

omit hname hbuiltIn in
/-- **Of the faults of a value, a name can have only the last.** It is not empty, opens with no
brace and no quote, and is neither `fun` nor `undefined`. -/
theorem valueFindings_name {t : Text} {statement : VarStatement}
    (hvalue : between statement.valueStart statement.valueStop t = y) (hfun : y ≠ "fun".toList)
    (hundefined : y ≠ "undefined".toList) (base assignment : Nat) :
    valueFindings view t base statement assignment =
      if isRecognised view y then [] else [⟨base, base + statement.stop, .unknownValue⟩] := by
  have hopens {word : Text} (hne : y ≠ word) : opensWithWord word y = false := by
    have hrest : ∀ c ∈ ([] : Text).head?, c ∉ word := by simp
    rw [← List.append_nil y, opensWithWord_of_name hascii hne hrest]
  have hchars := isAsciiNameChar_of_isAsciiName hascii
  cases y with
  | nil => contradiction
  | cons c cs =>
    have hne {d : Char} (hd : isAsciiNameChar d = false) : c ≠ d := by
      rintro rfl
      rw [hchars c List.mem_cons_self] at hd
      contradiction
    have hobject : ['{'].isPrefixOf (c :: cs) = false := by
      simp [List.isPrefixOf, (hne (by decide) : c ≠ '{').symm]
    have hquotes : (c == '\'' || c == '`') = false := by
      simp [(hne (by decide) : c ≠ '\''), (hne (by decide) : c ≠ '`')]
    simp only [valueFindings, hvalue, hopens hfun, hopens hundefined, hobject, List.head?_cons,
      Option.any_some, hquotes]
    cases isRecognised view (c :: cs) <;> rfl

omit hname hbuiltIn in
/-- In `var x = y;` the value is reported exactly if the name is not recognised. -/
theorem exists_unknownValue_iff {x : Text} (h : Declares x y view.code) (hfun : y ≠ "fun".toList)
    (hundefined : y ≠ "undefined".toList) :
    (∃ f ∈ view.findings, f.issue = .unknownValue) ↔ isRecognised view y = false := by
  obtain ⟨lead, t, rest, n, hcode, hscan, hassignment, hvalue⟩ := h.exists_statement
  have hfindings {f : Finding} (hissue : f.issue = .unknownValue) : f ∈ view.findings ↔
      f ∈ valueFindings view t (byteSize lead) (VarStatement.ofText t) n := by
    have hname : f ∉ variableNameFindings t (byteSize lead) (VarStatement.ofText t) := fun h => by
      simp [issue_of_mem_variableNameFindings h] at hissue
    rw [mem_findings_of_var hscan hissue, hcode, dropBytes_byteSize_append, varStatementFindings,
      hassignment, List.mem_append, or_iff_right hname]
  rw [valueFindings_name hascii hvalue hfun hundefined] at hfindings
  constructor
  · rintro ⟨f, hf, hissue⟩
    rw [hfindings hissue] at hf
    cases hrecognised : isRecognised view y with
    | false => rfl
    | true => simp [hrecognised] at hf
  · intro hrecognised
    refine ⟨⟨byteSize lead, byteSize lead + (VarStatement.ofText t).stop, .unknownValue⟩, ?_, rfl⟩
    rw [hfindings rfl, hrecognised]
    exact List.mem_singleton_self _

end NameValue

/-! ## 5. The diagnostics of the document -/

/-- A text that is put together is told from another one by how it starts. -/
theorem append_ne_of_not_isPrefix {front s : String} (h : ¬front.toList <+: s.toList)
    (rest back : String) : front ++ rest ++ back ≠ s := by
  rintro rfl
  exact h ⟨(rest ++ back).toList, by simp⟩

/-- The message of a value that is not recognised is that of no other issue. Issues that quote the
document are told apart by how their messages start. -/
theorem Issue.eq_unknownValue_of_message {issue : Issue}
    (h : issue.message = unknownValue.message) : issue = .unknownValue := by
  cases issue with
  | foreignOperator operator => cases operator <;> exact absurd h (by decide)
  | alwaysTrue site | alwaysFalse site | singleEquals site =>
    cases site <;> exact absurd h (by decide)
  | skippedName header | headerName header =>
    cases header <;> exact absurd h (by decide)
  | missingOperand word | wrongSeparator word =>
    exact absurd h (append_ne_of_not_isPrefix (by decide) _ _)
  | unknownValue => rfl
  | _ => exact absurd h (by decide)

/-- Two lines of a document that is short enough are not shown under one number. So a diagnostic
tells its line. -/
theorem Line.eq_of_number_eq {t : Text} (hlines : (Line.ofText t).length < UInt32.size)
    {l l' : Line} (hl : l ∈ Line.ofText t) (hl' : l' ∈ Line.ofText t)
    (h : l.index.toUInt32 = l'.index.toUInt32) : l = l' := by
  have hnumber {k : Line} (hk : k ∈ Line.ofText t) : k.index.toUInt32.toNat = k.index := by
    rw [Nat.toUInt32_eq, UInt32.toNat_ofNat_of_lt' (Nat.lt_trans (Line.index_lt_length hk) hlines)]
  have hnodup : ((Line.ofText t).map Line.index).Nodup :=
    List.pairwise_map.mpr ((Line.index_lt_ofText t).imp Nat.ne_of_lt)
  refine List.inj_on_of_nodup_map hnodup hl hl' ?_
  rw [← hnumber hl, ← hnumber hl', h]

namespace RuleView

/-- The views of the code lines of a document. -/
def ofText (t : Text) : List RuleView :=
  ofLines (Symbol.Table.ofText t) none ((Line.ofText t).filter Line.isCode)

/-- A diagnostic of a document is a finding in one of the views, shown on its line. -/
theorem mem_diagnose_iff {t : Text} {d : Diagnostic} :
    d ∈ diagnose t ↔ ∃ view ∈ ofText t, ∃ f ∈ view.findings, f.inLine view.line = d := by
  refine List.mem_flatMap.trans (exists_congr fun view => and_congr_right fun _ => ?_)
  exact List.mem_map

theorem line_mem_of_mem_ofText {t : Text} {view : RuleView} (h : view ∈ ofText t) :
    view.line ∈ Line.ofText t := by
  have hline := List.mem_map_of_mem (f := RuleView.line) h
  rw [ofText, map_line_ofLines] at hline
  exact (List.mem_filter.mp hline).1

theorem exists_mem_ofText {t : Text} {l : Line} (hl : l ∈ Line.ofText t) (hcode : l.isCode) :
    ∃ view ∈ ofText t, view.line = l := by
  have hmem : l ∈ (ofText t).map RuleView.line := by
    rw [ofText, map_line_ofLines]
    exact List.mem_filter.mpr ⟨hl, hcode⟩
  exact List.mem_map.mp hmem

end RuleView

/-- The diagnostic rejects the value of a declaration on the line. -/
def Diagnostic.RejectsValueOn (l : Line) (d : Diagnostic) : Prop :=
  d.range.start.line = l.index.toUInt32 ∧ d.severity = .error ∧
    d.message = "Incorrect data type assigned. " ++
      "It's not variable, keyword, boolean, string, number, array or null."

/-- Anywhere in the document, the name is declared outside all blocks and with a known tag. Nothing
is asked about where, before or after the line. -/
def Symbol.Table.KnowsOutermost (table : Symbol.Table) (name : Text) : Prop :=
  ∃ s ∈ table.symbols, s.name = name ∧ s.scope = .global ∧ s.tag ≠ .any

instance (table : Symbol.Table) (name : Text) : Decidable (table.KnowsOutermost name) :=
  inferInstanceAs
    (Decidable (∃ s ∈ table.symbols, s.name = name ∧ s.scope = .global ∧ s.tag ≠ .any))

/-- Of a name that is not declared up to the line, only a declaration outside all blocks is seen on
the line. -/
theorem Symbol.Table.knowsOutermost_iff {t name : Text} {line : Nat}
    (h : (ofText t).declaresBy name line = false) :
    (ofText t).KnowsOutermost name ↔
      ∃ tag, tag ≠ .any ∧ (ofText t).namesOn line name = some tag := by
  have hlater : ∀ s ∈ (ofText t).symbols, s.name = name → line < s.declaredLine := by
    intro s hs hname
    rw [declaresBy, Bool.or_eq_false_iff, Bool.or_eq_false_iff, List.any_eq_false] at h
    simpa [hname] using h.1.1 s hs
  constructor
  · rintro ⟨s, hs, hname, hscope, htag⟩
    exact ⟨s.tag, htag, (namesOn_eq_some_iff hlater).mpr ⟨s, hs, hname, hscope, rfl⟩⟩
  · rintro ⟨tag, htag, hknown⟩
    obtain ⟨s, hs, hname, hscope, rfl⟩ := (namesOn_eq_some_iff hlater).mp hknown
    exact ⟨s, hs, hname, hscope, htag⟩

section Report

variable {t x y : Text} {l : Line} (h : Declares x y l.code) (hascii : y.isAsciiName)
  (hfun : y ≠ "fun".toList) (hundefined : y ≠ "undefined".toList)
  (hbuiltIn : Catalogue.isBuiltIn y = false)
  (hdeclares : (Symbol.Table.ofText t).declaresBy y l.index = false)

include h hascii hfun hundefined hbuiltIn hdeclares

/-- What the rules find in the line depends on what is known outside all blocks, since that is what
is known on the line. -/
theorem exists_unknownValue_iff_not_knowsOutermost {view : RuleView}
    (hview : view ∈ RuleView.ofText t) (hline : view.line = l) :
    (∃ f ∈ view.findings, f.issue = .unknownValue) ↔
      ¬(Symbol.Table.ofText t).KnowsOutermost y := by
  subst hline
  have hname : y.isName := by
    obtain ⟨_, _, _, _, _, _, hassigns⟩ := h
    exact hassigns.2.1
  have htable : view.table = Symbol.Table.ofText t := table_of_mem_ofLines hview
  rw [Symbol.Table.knowsOutermost_iff hdeclares]
  rw [← htable] at hdeclares ⊢
  rw [exists_unknownValue_iff hascii h hfun hundefined, ← Bool.not_eq_true,
    isRecognised_name hname hascii hbuiltIn hdeclares]

/-- **A name that is not declared up to the line is reported, unless it is declared further down,
outside all blocks and with a known tag.** Lines are numbered modulo `UInt32.size`, so in a longer
document another line can be reported under the number of this one. -/
theorem undeclared_name_reported_unless_known (hl : l ∈ Line.ofText t) :
    (¬(Symbol.Table.ofText t).KnowsOutermost y → ∃ d ∈ diagnose t, d.RejectsValueOn l) ∧
    ((Symbol.Table.ofText t).KnowsOutermost y → (Line.ofText t).length < UInt32.size →
      ∀ d ∈ diagnose t, ¬d.RejectsValueOn l) := by
  have hreports {view : RuleView} (hview : view ∈ RuleView.ofText t) (hline : view.line = l) :=
    exists_unknownValue_iff_not_knowsOutermost h hascii hfun hundefined hbuiltIn hdeclares hview
      hline
  constructor
  · intro hknows
    obtain ⟨view, hview, hline⟩ :=
      RuleView.exists_mem_ofText hl (Line.isCode_of_mem h.equals_mem (by decide))
    obtain ⟨f, hf, hissue⟩ := (hreports hview hline).mpr hknows
    refine ⟨f.inLine view.line, RuleView.mem_diagnose_iff.mpr ⟨view, hview, f, hf, rfl⟩, ?_⟩
    rw [hline, Diagnostic.RejectsValueOn, Finding.inLine, hissue]
    exact ⟨rfl, rfl, rfl⟩
  · rintro hknows hlines d hd ⟨hnumber, -, hmessage⟩
    obtain ⟨view, hview, f, hf, rfl⟩ := RuleView.mem_diagnose_iff.mp hd
    have hline : view.line = l :=
      Line.eq_of_number_eq hlines (RuleView.line_mem_of_mem_ofText hview) hl hnumber
    exact (hreports hview hline).mp ⟨f, hf, Issue.eq_unknownValue_of_message hmessage⟩ hknows

end Report

/-- A use of a name above the block that declares it. -/
def useAboveBlock : Text :=
  "\tvar x= y ; // from below\nif (x) \x7b\nvar y = 1;\n\x7d".toList

/-- Its first line. -/
def useLine : Line := ⟨0, 0, "\tvar x= y ; // from below".toList⟩

theorem use_above_block_reported :
    (Symbol.Table.ofText useAboveBlock).symbols.map Symbol.tag = [.any, .number] ∧
    useLine ∈ Line.ofText useAboveBlock ∧ Declares ['x'] ['y'] useLine.code ∧
    (Symbol.Table.ofText useAboveBlock).declaresBy ['y'] useLine.index = false ∧
    ∃ d ∈ diagnose useAboveBlock, d.RejectsValueOn useLine := by
  have huse : Declares ['x'] ['y'] useLine.code :=
    ⟨['\t'], ' ', ['x', '=', ' ', 'y', ' ', ';', ' '], by decide, by decide, by decide +kernel,
      by decide, by decide, [], [], [' '], [' '], [' '], by decide, by decide, by decide,
      by decide, by decide, rfl⟩
  have hdeclares : (Symbol.Table.ofText useAboveBlock).declaresBy ['y'] useLine.index = false := by
    decide +kernel
  have hline : useLine ∈ Line.ofText useAboveBlock := by decide +kernel
  exact ⟨by decide +kernel, hline, huse, hdeclares,
    (undeclared_name_reported_unless_known huse (by decide) (by decide) (by decide) (by decide)
      hdeclares hline).1 (by decide +kernel)⟩

/-- With a number below it and outside all blocks, the name is not declared up to the line and
nothing is said about it. -/
theorem later_number_is_taken_for_value :
    (Symbol.Table.ofText "var x = y;\nvar y = 1;".toList).declaresBy ['y'] 0 = false ∧
    diagnose "var x = y;\nvar y = 1;".toList = [] := by
  decide +kernel

end MacroScript
