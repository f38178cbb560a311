import MacroScript.Proofs.Diagnostic.UnknownValue
import MacroScript.Proofs.Symbol.Indent
import MacroScript.Proofs.Symbol.OpenNames
import MacroScript.Proofs.Diagnostic.Registration

/-!
# The names that are declared are the names that are checked

A declared name is cut out of its line twice: by the reader, who declares it, and by the rule that
checks it. The reader cuts at the tokens of the line. For a `var` statement the rule reads the
tokens once more, from the keyword on; that only moves them (`Token.scanFrom_add`). For a header the
reader asks whether anything stands before the bracket and the rule asks whether the bracket is the
second token; between two tokens there is nothing but white space. So **both see the same name**,
and what the rule reports is that name or its first offending character
(`declared_names_are_checked`).
-/
namespace MacroScript

open Text

/-! ## 1. What is said of a name -/

/-- The spans of the findings with the message. Two issues may have one message, so it is the
message that is asked for. -/
def spansSaying (message : String) (findings : List Finding) : List (Nat × Nat) :=
  (findings.filter fun f => f.issue.message = message).map fun f => (f.start, f.stop)

theorem spansSaying_append (message : String) (findings more : List Finding) :
    spansSaying message (findings ++ more) =
      spansSaying message findings ++ spansSaying message more := by
  simp [spansSaying]

/-- Findings of which none has the message have no spans with it. The issues of each part of a rule
are known, so that this can be evaluated. -/
theorem spansSaying_eq_nil {message : String} {issues : List Issue} {findings : List Finding}
    (hmessage : ∀ issue ∈ issues, issue.message ≠ message)
    (h : ∀ f ∈ findings, f.issue ∈ issues) : spansSaying message findings = [] := by
  have hfilter : findings.filter (fun f => f.issue.message = message) = [] := by
    rw [List.filter_eq_nil_iff]
    intro f hf
    simpa using hmessage f.issue (h f hf)
  rw [spansSaying, hfilter]
  rfl

/-! ## 2. The text after the keyword -/

/-- The name comes first after the keyword that starts the line, and it starts at byte `offset`. It
may be empty, and then its offset is that of what follows. -/
def NameFollows (code keyword name : Text) (offset : Nat) : Prop :=
  ∃ lead gap after, code = lead ++ keyword ++ gap ++ name ++ after ∧ isAllBlank lead ∧
    isAllBlank gap ∧ offset = byteSize (lead ++ keyword ++ gap)

/-- The text from the end of the first token up to a boundary. Its tokens are those behind the first
one, with the offsets that they have in the line. -/
theorem exists_region {code : Text} {first : Token} {rest : List Token}
    (hscan : Token.scan code = first :: rest) {stop : Nat} (hstop : isBoundary stop code)
    (hle : first.stop ≤ stop) :
    ∃ lead region back, isAllBlank lead ∧ code = lead ++ (first.text ++ (region ++ back)) ∧
      first.offset = byteSize lead ∧ stop = first.stop + byteSize region ∧
      Token.scanFrom first.stop (region ++ back) = rest := by
  obtain ⟨lead, after, hlead, rfl, hoffset, -, hrest⟩ := Token.exists_of_scanFrom_eq_cons hscan
  rw [Nat.zero_add] at hoffset
  obtain ⟨u, back, heq, rfl⟩ := isBoundary_iff.mp hstop
  have hsize : byteSize (lead ++ first.text) = first.stop := by
    rw [byteSize_append, Token.stop, hoffset]
  rw [← List.append_assoc] at heq
  obtain ⟨region, rfl, rfl⟩ := exists_middle heq (by rw [hsize]; exact hle)
  refine ⟨lead, region, back, hlead, rfl, hoffset, ?_, hrest⟩
  rw [byteSize_append, hsize]

theorem between_region {lead word region back : Text} {stop : Nat}
    (hstop : stop = byteSize (lead ++ word) + byteSize region) :
    between (byteSize (lead ++ word)) stop (lead ++ (word ++ (region ++ back))) = region := by
  rw [hstop, ← List.append_assoc]
  exact between_append (lead ++ word) region back

/-! ## 3. `var` statements -/

section Variable

/-- The name ends at a boundary behind the keyword: the assignment and the semicolon that can end it
are later tokens. -/
theorem nameEnd_spec {code : Text} {first : Token} {rest : List Token}
    (hscan : Token.scan code = first :: rest) (hkind : first.kind = .name) :
    isBoundary (Collector.nameEnd code (first :: rest)) code ∧
      first.stop ≤ Collector.nameEnd code (first :: rest) := by
  have hpairwise := Token.pairwise_scan code
  rw [hscan] at hpairwise
  have hlater {p : Token → Bool} {token : Token} (hp : p first = false)
      (hfind : (first :: rest).find? p = some token) :
      isBoundary token.offset code ∧ first.stop ≤ token.offset := by
    rw [List.find?_cons_of_neg (by simp [hp])] at hfind
    have hmem := List.mem_of_find?_eq_some hfind
    refine ⟨(Token.standsAt_of_mem_scan ?_).isBoundary_start, ?_⟩
    · rw [hscan]
      exact List.mem_cons_of_mem _ hmem
    · exact (List.pairwise_cons.mp hpairwise).1 token hmem
  unfold Collector.nameEnd
  split
  · next assign hfind => exact hlater (by simp [Token.assigns, hkind]) hfind
  · split
    · next semicolon hfind => exact hlater (by simp [hkind]) hfind
    · refine ⟨isBoundary_byteSize code, ?_⟩
      exact (Token.standsAt_of_mem_scan (by rw [hscan]; exact List.mem_cons_self)).stop_le

/-- The rule ends the name where the reader would, if it read the text from the keyword on. -/
theorem VarStatement.name_ofText (t : Text) :
    ((ofText t).nameStart, (ofText t).nameStop) =
      spanBetween 3 (max 3 (Collector.nameEnd t (Token.scan t))) t := by
  unfold ofText Collector.nameEnd
  dsimp only
  cases (Token.scan t).find? Token.assigns with
  | some assign => rfl
  | none => cases (Token.scan t).find? fun token => token.kind = .semicolon <;> rfl

/-- What the rule finds in the text after the keyword is what it finds in its core. The white space
around the core is cut off by both. -/
theorem variableNameFindings_eq {region back t gap name gap' : Text} (base : Nat)
    (ht : t = "var".toList ++ (region ++ back))
    (hend : Collector.nameEnd t (Token.scan t) = 3 + byteSize region)
    (hregion : region = gap ++ name ++ gap')
    (hspan : coreSpan region = (byteSize gap, byteSize gap + byteSize name)) :
    variableNameFindings t base (VarStatement.ofText t) =
      match badNameChar? false name with
      | some (n, c) =>
        [⟨base + (3 + byteSize gap) + n, base + (3 + byteSize gap) + n + c.utf8Size, .variableName⟩]
      | none => [] := by
  have hkeyword : byteSize "var".toList = 3 := by decide
  have hcut : between 3 (3 + byteSize region) t = region := by
    rw [ht]
    exact between_append "var".toList region back
  have hnames := VarStatement.name_ofText t
  rw [hend, Nat.max_eq_right (by omega), spanBetween, hcut, hspan] at hnames
  obtain ⟨hstart, hstop⟩ := Prod.mk.inj hnames
  have hname : between (3 + byteSize gap) (3 + (byteSize gap + byteSize name)) t = name := by
    have hpart := between_append ("var".toList ++ gap) name (gap' ++ back)
    rw [byteSize_append, hkeyword, Nat.add_assoc] at hpart
    rw [ht, hregion]
    simpa only [List.append_assoc] using hpart
  rw [variableNameFindings, hstart, hstop]
  cases hbad : badNameChar? false name <;> simp only [hname, hbad]

variable {view : RuleView} {first : Token} {rest : List Token}
  (hscan : view.tokens = first :: rest) (hvar : first.isWord "var")

/-- What the rule finds in a `var` line beside its name. None of these has the message about names.
-/
def otherDeclarationIssues : List Issue :=
  [.loneVar, .letKeyword, .constKeyword, .missingValue, .objectValue, .functionValue,
    .undefinedValue, .singleQuotedValue, .unknownValue, .selfDeclaration, .selfAssignment,
    .undeclaredAssignment]

include hscan hvar

/-- The message about the name of a variable is about what is found in the name. All the other parts
of the rule are silent about it, each by the list of its issues. -/
theorem spansSaying_variableName :
    spansSaying Issue.variableName.message (Rule.declaration.findings view) =
      spansSaying Issue.variableName.message (variableNameFindings
        (dropBytes first.offset view.code) first.offset
        (VarStatement.ofText (dropBytes first.offset view.code))) := by
  have hsilent {findings : List Finding} (h : ∀ f ∈ findings, f.issue ∈ otherDeclarationIssues) :
      spansSaying Issue.variableName.message findings = [] :=
    spansSaying_eq_nil (by decide) h
  -- the parts of the rule, one after the other; only what is said about the name is left
  have hlone := hsilent fun f (hf : f ∈ loneVarFindings view.code) => by
    rw [issue_of_mem_loneVarFindings hf]
    decide
  have hlet := hsilent fun f (hf : f ∈ keywordFindings "let".toList .letKeyword view.code) => by
    rw [issue_of_mem_keywordFindings hf]
    decide
  have hconst := hsilent
      fun f (hf : f ∈ keywordFindings "const".toList .constKeyword view.code) => by
    rw [issue_of_mem_keywordFindings hf]
    decide
  have hcopy := hsilent fun f (hf : f ∈ selfCopyFindings view) => by
    have hissue := issue_of_mem_selfCopyFindings hf
    simp only [List.mem_cons, List.not_mem_nil, or_false] at hissue
    rcases hissue with hissue | hissue | hissue <;> rw [hissue] <;> decide
  have hvalue (t : Text) (base : Nat) (statement : VarStatement) (assignment : Nat) :=
    hsilent fun f (hf : f ∈ valueFindings view t base statement assignment) =>
      (by decide : valueIssues ⊆ otherDeclarationIssues) (issue_of_mem_valueFindings hf)
  have hhead : view.tokens.head? = some first := by rw [hscan]; rfl
  simp only [Rule.findings, declarationFindings, hhead, if_pos hvar, varStatementFindings,
    spansSaying_append, hlone, hlet, hconst, hcopy, List.nil_append, List.append_nil]
  split
  · rw [hvalue, List.append_nil]
  · exact List.append_nil _

/-- **The rule cuts the name where the reader cuts it.** The tokens from the keyword on are those of
the line, moved, so the same ones end the name. -/
theorem exists_variable_region :
    ∃ lead region back, isAllBlank lead ∧ view.code = lead ++ ("var".toList ++ (region ++ back)) ∧
      first.offset = byteSize lead ∧
      Collector.declaredName view.code first (first :: rest) = trim region ∧
      Collector.nameEnd ("var".toList ++ (region ++ back))
        (Token.scan ("var".toList ++ (region ++ back))) = 3 + byteSize region := by
  rw [Token.isWord, Bool.and_eq_true, decide_eq_true_eq, decide_eq_true_eq] at hvar
  obtain ⟨hkind, htext⟩ := hvar
  have hscan : Token.scan view.code = first :: rest := hscan
  obtain ⟨hboundary, hle⟩ := nameEnd_spec hscan hkind
  obtain ⟨lead, region, back, hlead, hcode, hoffset, hend, -⟩ := exists_region hscan hboundary hle
  have hstop : first.stop = byteSize (lead ++ "var".toList) := by
    rw [Token.stop, hoffset, htext, byteSize_append]
  rw [htext] at hcode
  refine ⟨lead, region, back, hlead, hcode, hoffset, ?_, ?_⟩
  · rw [Collector.declaredName, hend, hstop, hcode, between_region rfl]
  · have hmoved : Token.scan view.code =
        (Token.scan ("var".toList ++ (region ++ back))).map (Token.moved (byteSize lead)) := by
      rw [hcode, Token.scan_behind hlead]
    have hkeyword : byteSize "var".toList = 3 := by decide
    rw [← hscan, hmoved, hcode, Collector.nameEnd_moved, hstop, byteSize_append, hkeyword] at hend
    omega

/-- **What is reported of a variable is the first offending character of its name.** -/
theorem exists_nameFollows_variable :
    ∃ offset, NameFollows view.code "var".toList
        (Collector.declaredName view.code first (first :: rest)) offset ∧
      spansSaying Issue.variableName.message (Rule.declaration.findings view) =
        match badNameChar? false (Collector.declaredName view.code first (first :: rest)) with
        | some (n, c) => [(offset + n, offset + n + c.utf8Size)]
        | none => [] := by
  obtain ⟨lead, region, back, hlead, hcode, hoffset, hname, hend⟩ :=
    exists_variable_region hscan hvar
  have hsuffix : dropBytes first.offset view.code = "var".toList ++ (region ++ back) := by
    rw [hoffset, hcode, dropBytes_byteSize_append]
  obtain ⟨gap, gap', hgap, -, hregion, hspan⟩ := exists_trim region
  have hkeyword : byteSize "var".toList = 3 := by decide
  rw [spansSaying_variableName hscan hvar, hsuffix, hname,
    variableNameFindings_eq first.offset rfl hend hregion hspan]
  refine ⟨byteSize (lead ++ "var".toList ++ gap), ?_, ?_⟩
  · refine ⟨lead, gap, gap' ++ back, ?_, hlead, hgap, rfl⟩
    rw [hcode]
    nth_rewrite 1 [hregion]
    simp
  · rw [byteSize_append, byteSize_append, hkeyword, hoffset, Nat.add_assoc (byteSize lead)]
    cases badNameChar? false (trim region) <;> rfl

/-- A `var` line declares its name, unless that is empty. What the value is does not matter. -/
theorem declared?_cases (c : Collector) :
    c.declared? view.line = none ∧ Collector.declaredName view.code first (first :: rest) = [] ∨
      ∃ d, c.declared? view.line = some d ∧ d.name ≠ [] ∧
        Collector.declaredName view.code first (first :: rest) = d.name := by
  have hscan : Token.scan view.line.code = first :: rest := hscan
  simp only [Collector.declared?, hscan, if_pos hvar, Collector.declaredVariable?]
  by_cases hempty : (Collector.declaredName view.line.code first (first :: rest)).isEmpty
  · rw [if_pos hempty]
    exact .inl ⟨rfl, List.isEmpty_iff.mp hempty⟩
  · rw [if_neg hempty]
    rw [List.isEmpty_iff] at hempty
    cases (first :: rest).find? Token.assigns <;> exact .inr ⟨_, rfl, hempty, rfl⟩

/-- A `var` line is read by declaring what it declares. This ties the table to the name that the two
readings are compared by. -/
theorem readLine_of_var (c : Collector) :
    c.readLine view.line =
      match (c.settled view.line).declared? view.line with
      | some d => (c.settled view.line).declare d.name d.value d.tag d.origin view.line.index
      | none => c.settled view.line := by
  have hscan : Token.scan view.line.code = first :: rest := hscan
  have hdeclared : (c.settled view.line).declared? view.line =
      (c.settled view.line).declaredVariable? view.line first (first :: rest) := by
    simp only [Collector.declared?, hscan, if_pos hvar]
  rw [hdeclared, Collector.readLine_eq c hscan, Collector.readStatement, if_pos hvar]
  rfl

end Variable

/-! ## 4. Headers -/

section Header

/-- **Nothing but white space stands between two tokens**: the text before a token is blank exactly
if no other token stands in it. The reader asks for the one and the rule for the other. -/
theorem eq_zero_iff_isAllBlank {offset i : Nat} {region back : Text} {opener : Token}
    {rest : List Token} (hrest : Token.scanFrom offset (region ++ back) = rest)
    (hopener : rest[i]? = some opener) (hoffset : opener.offset = offset + byteSize region) :
    i = 0 ↔ isAllBlank region := by
  cases rest with
  | nil => simp at hopener
  | cons token rest =>
    obtain ⟨lead, after, hlead, heq, htoken, hsolid, hafter⟩ :=
      Token.exists_of_scanFrom_eq_cons hrest
    cases i with
    | zero =>
      obtain rfl : token = opener := by simpa using hopener
      -- the bracket is the first token, so that the region is the white space before it
      obtain ⟨more, rfl, -⟩ := exists_middle heq.symm (by omega)
      obtain rfl : more = [] := by
        rw [byteSize_append] at hoffset
        exact byteSize_eq_zero.mp (by omega)
      simpa using hlead
    | succ i =>
      have hmem : opener ∈ Token.scanFrom token.stop after := by
        rw [hafter]
        exact List.mem_of_getElem? (by simpa using hopener)
      -- another token comes first, and the region holds all of it
      have hle := (Token.pairwise_scanFrom token.stop after).2 opener hmem
      rw [Token.stop, htoken] at hle
      rw [← List.append_assoc] at heq
      obtain ⟨more, rfl, -⟩ := exists_middle heq.symm (by rw [byteSize_append]; omega)
      constructor
      · intro h
        contradiction
      · intro hblank
        rw [isAllBlank, List.all_append, List.all_append] at hblank
        rw [isAllBlank] at hsolid
        simp [hsolid] at hblank

variable {view : RuleView} {first : Token} {rest : List Token}
  (hscan : view.tokens = first :: rest) {header : HeaderKind}
  (hword : first.isWord header.keyword)

include hword in
/-- The keyword tells a function from a class. -/
theorem HeaderKind.isWord_iff :
    (first.isWord "fun" = decide (header = .function)) ∧
      (first.isWord "class" = decide (header = .classDefinition)) ∧
      first.text = header.keyword.toList ∧ first.kind = .name := by
  rw [Token.isWord, Bool.and_eq_true, decide_eq_true_eq, decide_eq_true_eq] at hword
  cases header <;> simp [Token.isWord, hword, HeaderKind.keyword]

/-- The first round bracket of a header, by its place among the tokens. It is not the first token,
which is a name. -/
theorem exists_opener (hkind : first.kind = .name)
    (hopener : ∃ opener ∈ rest, opener.kind = .opener .round) :
    ∃ (i : Nat) (opener : Token), rest[i]? = some opener ∧ opener.kind = .opener .round ∧
      (first :: rest).findIdx? (fun t => t.kind = .opener .round) = some (i + 1) := by
  obtain ⟨token, hmem, htoken⟩ := hopener
  cases hindex : rest.findIdx? fun t => t.kind = .opener .round with
  | none =>
    have hnone := List.findIdx?_eq_none_iff.mp hindex token hmem
    simp [htoken] at hnone
  | some i =>
    obtain ⟨hi, hround, -⟩ := List.findIdx?_eq_some_iff_getElem.mp hindex
    refine ⟨i, rest[i], List.getElem?_eq_getElem hi, by simpa using hround, ?_⟩
    rw [List.findIdx?_cons, hindex]
    simp [hkind]

include hscan hword

/-- What the rule about headers finds in a header: something about a foreign keyword, about the name
and about the block. -/
theorem headerFindings_eq {i : Nat} {opener : Token} (hopener : rest[i]? = some opener)
    (hround : opener.kind = .opener .round)
    (hindex : (first :: rest).findIdx? (fun t => t.kind = .opener .round) = some (i + 1)) :
    ∃ closer, Rule.header.findings view = functionKeywordFindings view.code ++
      (headerNameFindings view.code header first opener (i + 1) ++ view.blockFindings closer) := by
  have hsemicolon : (rest.all fun t => t.kind = .semicolon) = false := by
    rw [List.all_eq_false]
    exact ⟨opener, List.mem_of_getElem? hopener, by simp [hround]⟩
  obtain ⟨hfun, hclass, -, -⟩ := HeaderKind.isWord_iff hword
  have hline : ∃ closer, headerLineFindings view header first rest =
      headerNameFindings view.code header first opener (i + 1) ++ view.blockFindings closer := by
    simp only [headerLineFindings, hsemicolon, hindex, List.getElem?_cons_succ, hopener]
    exact ⟨_, rfl⟩
  obtain ⟨closer, hline⟩ := hline
  refine ⟨closer, ?_⟩
  simp only [Rule.findings, headerFindings, hscan, hfun, hclass]
  cases header <;> simp [hline]

/-- The messages about the name of a header are about what is found in the name; the other two parts
have other messages. -/
theorem spansSaying_header {i : Nat} {opener : Token} (hopener : rest[i]? = some opener)
    (hround : opener.kind = .opener .round)
    (hindex : (first :: rest).findIdx? (fun t => t.kind = .opener .round) = some (i + 1))
    {issue : Issue} (hissue : issue = .skippedName header ∨ issue = .headerName header) :
    spansSaying issue.message (Rule.header.findings view) =
      spansSaying issue.message (headerNameFindings view.code header first opener (i + 1)) := by
  have hsilent {findings : List Finding}
      (h : ∀ f ∈ findings, f.issue ∈ [.functionKeyword, .missingBlock]) :
      spansSaying issue.message findings = [] := by
    refine spansSaying_eq_nil ?_ h
    rcases hissue with rfl | rfl <;> cases header <;> decide
  have hfunction := hsilent fun f (hf : f ∈ functionKeywordFindings view.code) => by
    rw [issue_of_mem_functionKeywordFindings hf]
    decide
  have hblock (closer : Option Token) := hsilent fun f (hf : f ∈ view.blockFindings closer) => by
    rw [issue_of_mem_blockFindings hf]
    decide
  obtain ⟨closer, hfindings⟩ := headerFindings_eq hscan hword hopener hround hindex
  rw [hfindings, spansSaying_append, spansSaying_append, hfunction, hblock, List.nil_append,
    List.append_nil]

/-- **What is reported of a header is the bracket that follows its keyword, or its name.** The name
is missing if the bracket is the token right behind the keyword, which is to say that there is
nothing but white space between the two. -/
theorem exists_nameFollows_header {i : Nat} {opener : Token} (hopener : rest[i]? = some opener)
    (hround : opener.kind = .opener .round)
    (hindex : (first :: rest).findIdx? (fun t => t.kind = .opener .round) = some (i + 1)) :
    ∃ name offset, name = trim (between first.stop opener.offset view.code) ∧
      NameFollows view.code header.keyword.toList name offset ∧
      spansSaying (Issue.skippedName header).message (Rule.header.findings view) =
        (if name.isEmpty then [(opener.offset, opener.stop)] else []) ∧
      spansSaying (Issue.headerName header).message (Rule.header.findings view) =
        (if (badNameChar? true name).isSome then [(offset, offset + byteSize name)] else []) := by
  obtain ⟨-, -, htext, -⟩ := HeaderKind.isWord_iff hword
  rw [spansSaying_header hscan hword hopener hround hindex (.inl rfl),
    spansSaying_header hscan hword hopener hround hindex (.inr rfl)]
  have hscan : Token.scan view.code = first :: rest := hscan
  have hmem : opener ∈ rest := List.mem_of_getElem? hopener
  have hboundary : isBoundary opener.offset view.code := by
    apply (Token.standsAt_of_mem_scan _).isBoundary_start
    rw [hscan]
    exact List.mem_cons_of_mem _ hmem
  have hle : first.stop ≤ opener.offset := by
    have hpairwise := Token.pairwise_scan view.code
    rw [hscan] at hpairwise
    exact (List.pairwise_cons.mp hpairwise).1 opener hmem
  -- the name is what is left of the region between keyword and bracket without the white space
  -- around
  obtain ⟨lead, region, back, hlead, hcode, hoffset, hend, hrest⟩ :=
    exists_region hscan hboundary hle
  have hzero := eq_zero_iff_isAllBlank hrest hopener hend
  have hstop : first.stop = byteSize (lead ++ first.text) := by
    rw [Token.stop, hoffset, byteSize_append]
  have hcut : between first.stop opener.offset view.code = region := by
    rw [hend, hstop, hcode, between_region rfl]
  have hdiffer : (Issue.skippedName header).message ≠ (Issue.headerName header).message := by
    cases header <;> decide
  obtain ⟨gap, gap', hgap, -, hregion, hspan⟩ := exists_trim region
  refine ⟨trim region, byteSize (lead ++ first.text ++ gap), by rw [hcut], ?_, ?_⟩
  · rw [← htext]
    refine ⟨lead, gap, gap' ++ back, ?_, hlead, hgap, rfl⟩
    rw [hcode]
    nth_rewrite 1 [hregion]
    simp
  by_cases hi : i = 0
  · -- there is no name, and the bracket is reported
    rw [trim_of_isAllBlank (hzero.mp hi), hi]
    constructor
    · simp [headerNameFindings, spansSaying]
    · simp [headerNameFindings, spansSaying, hdiffer, badNameChar?]
  · have hne : (trim region).isEmpty = false := by
      rw [← Bool.not_eq_true, List.isEmpty_iff, trim_eq_nil_iff, ← hzero]
      exact hi
    have hname : between (byteSize gap) (byteSize gap + byteSize (trim region)) region =
        trim region := by
      nth_rewrite 2 [hregion]
      rw [List.append_assoc, between_append]
    have hnot : i + 1 ≠ 1 := by omega
    simp only [headerNameFindings, if_neg hnot, hcut, hspan, hname, hne]
    constructor
    · cases (badNameChar? true (trim region)).isSome <;> simp [spansSaying, hdiffer.symm]
    · cases (badNameChar? true (trim region)).isSome <;>
        simp [spansSaying, hstop, Nat.add_assoc]

/-- A header registers its name under its own kind, unless that is empty, and leaves the other kind
as it was. -/
theorem headersOf_header (c : Collector) {i : Nat} {opener : Token}
    (hopener : rest[i]? = some opener)
    (hindex : (first :: rest).findIdx? (fun t => t.kind = .opener .round) = some (i + 1))
    {name : Text} (hname : name = trim (between first.stop opener.offset view.code))
    (other : HeaderKind) :
    (c.readLine view.line).table.headersOf other =
      c.table.headersOf other ++
        if other = header then (if name.isEmpty then none else some name).toList else [] := by
  obtain ⟨hfun, hclass, -, -⟩ := HeaderKind.isWord_iff hword
  have hheader : (first.isWord "fun" || first.isWord "class") = true := by
    rw [hfun, hclass]
    cases header <;> rfl
  have hget : (first :: rest)[i + 1]? = some opener := by rw [List.getElem?_cons_succ, hopener]
  have hname : trim (between first.stop opener.offset view.line.code) = name := hname.symm
  rw [Collector.headersOf_readLine other c hscan hheader hindex hget, hname, hfun]
  cases header <;> cases other <;> simp [Collector.Action.registered?]

end Header

/-! ## 5. The two readings of a line -/

/-- **The names that are declared are the names that are checked.** Whatever was read before and
whatever else the rules see, on a line that starts with `var` the rule about declarations objects to
a name exactly if the reader declares one that is none of the language, and what it points at is the
first offending character of that name. On a line that starts with `fun` or `class` and has a round
bracket, the rule about headers misses a name exactly if the reader registers none, and objects to a
name exactly if the reader registers one that is none of the language; it points at that name. -/
theorem declared_names_are_checked (c : Collector) (view : RuleView) {first : Token}
    {rest : List Token} (hscan : view.tokens = first :: rest) :
    (first.isWord "var" →
      c.readLine view.line =
        (match (c.settled view.line).declared? view.line with
        | some d => (c.settled view.line).declare d.name d.value d.tag d.origin view.line.index
        | none => c.settled view.line) ∧
      (spansSaying ("Incorrect variable name. " ++ Issue.nameRule)
          (Rule.declaration.findings view) ≠ [] ↔
        ∃ d, (c.settled view.line).declared? view.line = some d ∧ d.name ≠ [] ∧
          d.name.isNameOf false = false) ∧
      ∀ span ∈ spansSaying ("Incorrect variable name. " ++ Issue.nameRule)
          (Rule.declaration.findings view),
        spansSaying ("Incorrect variable name. " ++ Issue.nameRule)
          (Rule.declaration.findings view) = [span] ∧
        ∃ d offset front x, (c.settled view.line).declared? view.line = some d ∧
          NameFollows view.code "var".toList d.name offset ∧
          FirstOffending false d.name front x ∧
          span = (offset + byteSize front, offset + byteSize front + x.utf8Size)) ∧
    ∀ header : HeaderKind, first.isWord header.keyword →
      (∃ opener ∈ rest, opener.kind = .opener .round) →
      ∃ name? : Option Text,
        (∀ other, (c.readLine view.line).table.headersOf other =
          c.table.headersOf other ++ if other = header then name?.toList else []) ∧
        (spansSaying ("Skipped " ++ header.noun ++ " name") (Rule.header.findings view) ≠ [] ↔
          name? = none) ∧
        (spansSaying ("Incorrect " ++ header.noun ++ " name. " ++ Issue.nameRule)
            (Rule.header.findings view) ≠ [] ↔
          ∃ name, name? = some name ∧ name.isNameOf true = false) ∧
        ∀ span ∈ spansSaying ("Incorrect " ++ header.noun ++ " name. " ++ Issue.nameRule)
            (Rule.header.findings view),
          spansSaying ("Incorrect " ++ header.noun ++ " name. " ++ Issue.nameRule)
            (Rule.header.findings view) = [span] ∧
          ∃ name offset, name? = some name ∧
            NameFollows view.code header.keyword.toList name offset ∧
            span = (offset, offset + byteSize name) := by
  constructor
  · intro hvar
    refine ⟨readLine_of_var hscan hvar c, ?_⟩
    have hdeclared := declared?_cases hscan hvar (c.settled view.line)
    obtain ⟨offset, hfollows, hspans⟩ := exists_nameFollows_variable hscan hvar
    change spansSaying ("Incorrect variable name. " ++ Issue.nameRule) _ = _ at hspans
    rw [hspans]
    -- from here on only the name counts: what the rule looks at is what the reader declares, if it
    -- declares anything
    generalize Collector.declaredName view.code first (first :: rest) = name at *
    rcases badNameChar?_cases false name with
      ⟨hnone, hgood⟩ | ⟨front, x, hsome, hoffends, hne, hbad⟩
    · rw [hnone]
      refine ⟨iff_of_false (by simp) ?_, by simp⟩
      -- the rule is silent, so what is declared would be no offending name
      rintro ⟨d, hd, hne, hbad⟩
      rcases hdeclared with ⟨hd', -⟩ | ⟨d', hd', -, rfl⟩
      · rw [hd] at hd'
        contradiction
      · obtain rfl := Option.some.inj (hd.symm.trans hd')
        simp [hne, hbad] at hgood
    · rw [hsome]
      -- an offending name is not empty, so it is declared
      rcases hdeclared with ⟨-, hnil⟩ | ⟨d, hd, -, rfl⟩
      · exact absurd hnil hne
      · refine ⟨iff_of_true (by simp) ⟨d, hd, hne, hbad⟩, ?_⟩
        intro span hspan
        obtain rfl := List.mem_singleton.mp hspan
        exact ⟨rfl, d, offset, front, x, hd, hfollows, hoffends, rfl⟩
  · intro header hword hopener
    obtain ⟨-, -, -, hkind⟩ := HeaderKind.isWord_iff hword
    obtain ⟨i, opener, hget, hround, hindex⟩ := exists_opener hkind hopener
    obtain ⟨name, offset, hname, hfollows, hskipped, hincorrect⟩ :=
      exists_nameFollows_header hscan hword hget hround hindex
    refine ⟨if name.isEmpty then none else some name,
      headersOf_header hscan hword c hget hindex hname, ?_⟩
    change spansSaying ("Skipped " ++ header.noun ++ " name") _ = _ at hskipped
    change spansSaying ("Incorrect " ++ header.noun ++ " name. " ++ Issue.nameRule) _ = _
      at hincorrect
    rw [hskipped, hincorrect]
    rcases badNameChar?_cases true name with ⟨hnone, hgood⟩ | ⟨front, x, hsome, -, hne, hbad⟩
    · rw [hnone]
      -- a name without an offending character is registered unless it is empty, and that is when it
      -- is missed
      cases name with
      | nil => simp
      | cons d ds => simpa using hgood
    · have hempty : name.isEmpty = false := by simpa using hne
      rw [hsome, hempty]
      refine ⟨by simp, iff_of_true (by simp) ⟨name, rfl, hbad⟩, ?_⟩
      intro span hspan
      obtain rfl := List.mem_singleton.mp hspan
      exact ⟨rfl, name, offset, rfl, hfollows, rfl⟩

/-- A `var` line whose name has a letter beyond ASCII, and whose assignment runs together with a
sign. -/
def accentedView : RuleView :=
  ⟨⟨3, 40, "  var café 1 =-2; x = 3".toList⟩, none, none, {}⟩

/-- A header line whose name starts with a digit. -/
def digitView : RuleView :=
  ⟨⟨4, 70, "\tclass  2ndé (a, b)".toList⟩, none, none, {}⟩

theorem accent_and_digit_reported :
    (({} : Collector).settled accentedView.line).declared? accentedView.line =
      some ⟨"café 1".toList, "-2".toList, .number, .variable⟩ ∧
    (∃ offset front x, NameFollows accentedView.code "var".toList "café 1".toList offset ∧
      FirstOffending false "café 1".toList front x ∧
      spansSaying ("Incorrect variable name. " ++ Issue.nameRule)
          (Rule.declaration.findings accentedView) =
        [(offset + byteSize front, offset + byteSize front + x.utf8Size)]) ∧
    (({} : Collector).readLine digitView.line).table.classes = ["2ndé".toList] ∧
    spansSaying "Skipped class name" (Rule.header.findings digitView) = [] ∧
    ∃ offset, NameFollows digitView.code "class".toList "2ndé".toList offset ∧
      spansSaying ("Incorrect class name. " ++ Issue.nameRule) (Rule.header.findings digitView) =
        [(offset, offset + byteSize "2ndé".toList)] := by
  have hdeclared : (({} : Collector).settled accentedView.line).declared? accentedView.line =
      some ⟨"café 1".toList, "-2".toList, .number, .variable⟩ := by
    decide +kernel
  have hclasses : (({} : Collector).readLine digitView.line).table.classes = ["2ndé".toList] := by
    decide +kernel
  have hvar : accentedView.tokens = ⟨.name, "var".toList, 2⟩ :: accentedView.tokens.tail := by
    decide +kernel
  have hclass : digitView.tokens = ⟨.name, "class".toList, 1⟩ :: digitView.tokens.tail := by
    decide +kernel
  -- both halves of the theorem are applied: the one about variables, and the one about headers
  obtain ⟨-, hreported, hat⟩ := (declared_names_are_checked {} accentedView hvar).1 (by decide)
  obtain ⟨name?, hnames, hskipped, hreported', hat'⟩ :=
    (declared_names_are_checked {} digitView hclass).2 .classDefinition (by decide)
      (by decide +kernel)
  obtain rfl : name? = some "2ndé".toList := by
    have hadded := hnames .classDefinition
    rw [Symbol.Table.headersOf, hclasses, if_pos rfl] at hadded
    cases name? with
    | none => contradiction
    | some name => simpa [Symbol.Table.headersOf] using hadded.symm
  refine ⟨hdeclared, ?_, hclasses, ?_, ?_⟩
  · obtain ⟨span, hspan⟩ := List.exists_mem_of_ne_nil _
      (hreported.mpr ⟨_, hdeclared, by decide, by decide⟩)
    obtain ⟨hone, d, offset, front, x, hd, hfollows, hoffends, rfl⟩ := hat span hspan
    rw [hdeclared] at hd
    obtain rfl := Option.some.inj hd
    exact ⟨offset, front, x, hfollows, hoffends, hone⟩
  · by_contra hnot
    exact absurd (hskipped.mp hnot) (by simp)
  · obtain ⟨span, hspan⟩ := List.exists_mem_of_ne_nil _
      (hreported'.mpr ⟨_, rfl, by decide⟩)
    obtain ⟨hone, name, offset, hname, hfollows, rfl⟩ := hat' span hspan
    obtain rfl := Option.some.inj hname
    exact ⟨offset, hfollows, hone⟩

end MacroScript
