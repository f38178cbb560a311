import MacroScript.Proofs.Diagnostic.Renumber
import MacroScript.Proofs.Symbol.Indent

/-!
# Indentation moves the diagnostics

Every rule measures its places from a token, a word or a part of the line, and looks at nothing of
the white space in front of it. Behind more white space each rule finds the same, further to the
right (`Indent.View.findings_after`), and **the diagnostics of indented lines are those of the
lines, with their columns moved by the white space in front of their lines**
(`analysis_of_indents`).
-/
namespace MacroScript

open Text

/-- The finding, further to the right by `k` bytes. -/
def Finding.moved (k : Nat) (f : Finding) : Finding :=
  ⟨k + f.start, k + f.stop, f.issue⟩

/-! ## 1. Views -/

/-- A line in its place among others, with the white space that is put in front of each. Both views
of a rule, with and without the white space, are made from it. -/
structure Indent.View where
  indent : Indent
  previous : Option Indent
  next : Option Indent
  table : Symbol.Table

namespace Indent.View

/-- What a rule sees of the line. -/
def before (v : View) : RuleView :=
  ⟨v.indent.line, v.previous.map Indent.line, v.next.map Indent.line, v.table⟩

/-- What a rule sees of the line with the white space put in. -/
def after (v : View) : RuleView :=
  ⟨v.indent.indented, v.previous.map Indent.indented, v.next.map Indent.indented, v.table⟩

/-- How many bytes the line moves. -/
def size (v : View) : Nat :=
  v.indent.size

variable (v : View)

theorem code_after : v.after.code = v.indent.lead ++ v.before.code :=
  v.indent.code_indented

theorem tokens_after : v.after.tokens = v.before.tokens.map (Token.moved v.size) :=
  v.indent.scan_indented

theorem between_after (start stop : Nat) :
    between (v.size + start) (v.size + stop) v.after.code = between start stop v.before.code :=
  v.indent.between_indented start stop

/-- What is left of a line behind a place does not change. -/
theorem rest_after (offset : Nat) : v.after.rest (v.size + offset) = v.before.rest offset :=
  congrArg trim (v.indent.dropBytes_indented offset)

/-- A line of code has a core, which moves as a whole. -/
theorem coreSpan_after (hcode : v.indent.line.isCode) :
    coreSpan v.after.code =
      (v.size + (coreSpan v.before.code).1, v.size + (coreSpan v.before.code).2) := by
  rw [Line.isCode_eq, Bool.not_eq_true'] at hcode
  rw [code_after]
  exact coreSpan_behind v.indent.isAllBlank_lead hcode

theorem codeEnd_after (hcode : v.indent.line.isCode) :
    v.after.codeEnd = v.size + v.before.codeEnd :=
  congrArg Prod.snd (v.coreSpan_after hcode)

/-- A block on the same line or the next one is found behind any white space. -/
theorem blockFollows_after (offset : Nat) :
    v.after.blockFollows (v.size + offset) = v.before.blockFollows offset := by
  have hnext : (v.after.next.any fun next => ['{'].isPrefixOf (trimStart next.code)) =
      v.before.next.any fun next => ['{'].isPrefixOf (trimStart next.code) := by
    simp only [before, after, Option.any_map, trimStart_indented]
  simp only [RuleView.blockFollows, rest_after, hnext]

theorem blockFindings_after (hcode : v.indent.line.isCode) (closer : Option Token) :
    v.after.blockFindings (closer.map (Token.moved v.size)) =
      (v.before.blockFindings closer).map (Finding.moved v.size) := by
  cases closer with
  | none => rfl
  | some closer =>
    simp only [Option.map_some, RuleView.blockFindings, Token.stop_moved, blockFollows_after,
      codeEnd_after v hcode]
    split <;> rfl

theorem strayFollows_after (offset : Nat) :
    strayFollows v.after (v.size + offset) = strayFollows v.before offset := by
  simp only [strayFollows, rest_after]

theorem endsDoWhile_after : endsDoWhile v.after = endsDoWhile v.before := by
  simp only [endsDoWhile, before, after, Option.any_map, trim_indented, index_indented]

/-! ## 2. Ends of statements -/

/-- Whether a line is ended is told by its core, and what is reported is the core. -/
theorem terminatorFindings_after (hcode : v.indent.line.isCode) :
    terminatorFindings v.after = (terminatorFindings v.before).map (Finding.moved v.size) := by
  have htrim : isTerminated v.after.code = isTerminated v.before.code := by
    rw [isTerminated, isTerminated, code_after, trim_behind v.indent.isAllBlank_lead]
  simp only [terminatorFindings, htrim, v.coreSpan_after hcode]
  split <;> rfl

end Indent.View

/-! ## 3. Declarations -/

section Words

variable {lead : Text} (hlead : isAllBlank lead) (t : Text)
include hlead

theorem loneVarFindings_behind :
    loneVarFindings (lead ++ t) =
      (loneVarFindings t).map (Finding.moved (byteSize lead)) := by
  have htail : (fun word : WordOccurrence => isLoneTail word.after) ∘ WordOccurrence.behind lead =
      fun word => isLoneTail word.after := rfl
  rw [loneVarFindings, loneVarFindings, wholeWords_behind hlead (by decide), List.find?_map, htail]
  cases (wholeWords "var".toList t).find? fun word => isLoneTail word.after with
  | none => rfl
  | some word =>
    simp only [Option.map_some, WordOccurrence.behind, byteSize_append, List.map_cons, List.map_nil,
      Finding.moved]

/-- White space further to the left does not make a word the name of a declaration: what stands
before the word is looked at up to the keyword. -/
theorem isDeclaredName_behind (word : WordOccurrence) :
    isDeclaredName (word.behind lead) = isDeclaredName word := by
  have hreverse : isAllBlank lead.reverse := by rwa [isAllBlank, List.all_reverse]
  obtain ⟨before, offset, rest⟩ := word
  cases before with
  | nil =>
    simp only [isDeclaredName, WordOccurrence.behind, List.nil_append]
    cases hlast : lead.reverse with
    | nil => rfl
    | cons c cs =>
      rw [hlast, isAllBlank, List.all_cons, Bool.and_eq_true] at hreverse
      have hnot : ¬"var".toList.reverse <+: [] ++ cs := fun hvar =>
        absurd (isPrefix_of_append_blank hvar (by decide) hreverse.2) (by decide)
      simpa [← List.isPrefixOf_iff_prefix] using fun _ => hnot
  | cons c before =>
    simp only [isDeclaredName, WordOccurrence.behind, List.cons_append]
    congr 1
    rw [Bool.eq_iff_iff, List.isPrefixOf_iff_prefix, List.isPrefixOf_iff_prefix]
    exact ⟨fun hvar => isPrefix_of_append_blank hvar (by decide) hreverse,
      fun hvar => hvar.trans (List.prefix_append _ _)⟩

/-- A foreign keyword is found where it was, further to the right. -/
theorem keywordFindings_behind {keyword : Text}
    (hkeyword : keyword.head?.any fun c => !isBlank c) (issue : Issue) :
    keywordFindings keyword issue (lead ++ t) =
      (keywordFindings keyword issue t).map (Finding.moved (byteSize lead)) := by
  have hname : (fun word => !isDeclaredName word) ∘ WordOccurrence.behind lead =
      fun word => !isDeclaredName word :=
    funext fun word => congrArg not (isDeclaredName_behind hlead word)
  rw [keywordFindings, keywordFindings, wholeWords_behind hlead hkeyword, List.find?_map, hname]
  cases (wholeWords keyword t).find? fun word => !isDeclaredName word with
  | none => rfl
  | some word =>
    simp only [Option.map_some, WordOccurrence.behind, Nat.add_assoc, List.map_cons, List.map_nil,
      Finding.moved]

theorem functionKeywordFindings_behind :
    functionKeywordFindings (lead ++ t) =
      (functionKeywordFindings t).map (Finding.moved (byteSize lead)) := by
  rw [functionKeywordFindings, functionKeywordFindings, wholeWords_behind hlead (by decide)]
  cases wholeWords "function".toList t with
  | nil => rfl
  | cons word words =>
    simp only [List.map_cons, WordOccurrence.behind, Nat.add_assoc, List.map_nil, Finding.moved]

end Words

namespace Copy

/-- The copy, further to the right by `k` bytes. -/
def moved (k : Nat) (copy : Copy) : Copy :=
  { copy with valueOffset := k + copy.valueOffset }

theorem plainAt?_add (k : Nat) (declares : Bool) (offset : Nat) (whole t : Text) :
    plainAt? declares (k + offset) whole t = (plainAt? declares offset whole t).map (moved k) := by
  simp only [plainAt?, Option.bind_eq_bind, Option.map_bind, Function.comp_def, Nat.add_assoc]
  rfl

theorem at?_add (k offset : Nat) (t : Text) :
    at? (k + offset) t = (at? offset t).map (moved k) := by
  simp only [at?, plainAt?_add, Option.map_or]
  congr 1
  cases dropWord? "var".toList t with
  | none => rfl
  | some rest =>
    dsimp only
    split <;> rfl

/-- No copy starts with white space, so that the search passes over it. -/
theorem at?_of_isBlank (offset : Nat) {c : Char} (hc : isBlank c) (t : Text) :
    at? offset (c :: t) = none := by
  have hvar : dropWord? "var".toList (c :: t) = none := by
    have hne : 'v' ≠ c := by
      rintro rfl
      exact absurd hc (by decide)
    simp [dropWord?, List.isPrefixOf, hne]
  have hname : plainName? (c :: t) = none := by
    have hstart : (c.isAlpha || c == '_') = false := by
      rw [← Bool.not_eq_true]
      intro hstart
      have hnot := forall_of_isBlank (p := fun c => !(c.isAlpha || c == '_')) (by decide +kernel)
        (by decide) hc
      simp [hstart] at hnot
    simp [plainName?, hstart]
  simp only [at?, hvar, plainAt?, hname, Option.bind_eq_bind, Option.bind_none, Option.or_none]

/-- With white space at the far end of what stands before the text, and a larger offset, the search
finds the same copies, further to the right. -/
theorem allFrom_behind {lead : Text} (hlead : isAllBlank lead) (before : Text)
    (offset covered : Nat) (t : Text) :
    allFrom (before ++ lead.reverse) (byteSize lead + offset) covered t =
      (allFrom before offset covered t).map (moved (byteSize lead)) := by
  induction t generalizing before offset covered with
  | nil => rfl
  | cons c t ih =>
    have hlater := fun covered => ih (c :: before) (offset + c.utf8Size) covered
    simp only [List.cons_append, ← Nat.add_assoc] at hlater
    rw [allFrom, allFrom, endsWord_behind hlead, at?_add]
    cases covered = 0 && endsWord before with
    | false => simp only [Bool.false_eq_true, if_false, hlater]
    | true =>
      simp only [if_true]
      cases at? offset (c :: t) with
      | none => simp only [Option.map_none, hlater]
      | some copy =>
        simp only [Option.map_some, hlater, List.map_cons]
        rfl

theorem allFrom_blanks {lead : Text} (hlead : isAllBlank lead) (before : Text) (offset : Nat)
    (t : Text) :
    allFrom before offset 0 (lead ++ t) =
      allFrom (lead.reverse ++ before) (offset + byteSize lead) 0 t := by
  induction lead generalizing before offset with
  | nil => rfl
  | cons c lead ih =>
    rw [isAllBlank, List.all_cons, Bool.and_eq_true] at hlead
    rw [List.cons_append, allFrom, at?_of_isBlank offset hlead.1]
    simp only [ite_self]
    rw [ih hlead.2, List.reverse_cons, List.append_assoc, List.singleton_append, byteSize_cons,
      Nat.add_assoc]

/-- **White space in front of a text moves its copies.** The search passes over it, and from there
on only the offset has changed. -/
theorem all_behind {lead : Text} (hlead : isAllBlank lead) (t : Text) :
    all (lead ++ t) = (all t).map (moved (byteSize lead)) := by
  rw [all, allFrom_blanks hlead, List.append_nil, Nat.zero_add]
  exact allFrom_behind hlead [] 0 0 t

end Copy

namespace Indent.View

variable (v : View)

theorem selfCopyFindings_after :
    selfCopyFindings v.after = (selfCopyFindings v.before).map (Finding.moved v.size) := by
  have hsame :
      (fun copy : Copy => copy.target == copy.value) ∘ Copy.moved (byteSize v.indent.lead) =
      fun copy => copy.target == copy.value := rfl
  rw [selfCopyFindings, selfCopyFindings, code_after, Copy.all_behind v.indent.isAllBlank_lead,
    List.find?_map, hsame]
  cases (Copy.all v.before.code).find? fun copy => copy.target == copy.value with
  | none => rfl
  | some copy =>
    simp only [Option.map_some, Copy.moved, Nat.add_assoc, List.map_cons, List.map_nil,
      Finding.moved]
    rfl

theorem variableNameFindings_add (k : Nat) (t : Text) (base : Nat) (statement : VarStatement) :
    variableNameFindings t (k + base) statement =
      (variableNameFindings t base statement).map (Finding.moved k) := by
  unfold variableNameFindings
  split <;> simp only [List.map_cons, List.map_nil, Finding.moved, Nat.add_assoc]

/-- The value is asked for in the same table, and reported with offsets from the start of the
statement. -/
theorem valueFindings_after (t : Text) (base : Nat) (statement : VarStatement)
    (assignment : Nat) :
    valueFindings v.after t (v.size + base) statement assignment =
      (valueFindings v.before t base statement assignment).map (Finding.moved v.size) := by
  have hrecognised (value : Text) : isRecognised v.after value = isRecognised v.before value := rfl
  simp only [valueFindings, hrecognised, apply_ite (List.map (Finding.moved v.size)), List.map_cons,
    List.map_nil, Finding.moved, Nat.add_assoc]

theorem varStatementFindings_after (t : Text) (base : Nat) :
    varStatementFindings v.after t (v.size + base) =
      (varStatementFindings v.before t base).map (Finding.moved v.size) := by
  simp only [varStatementFindings, variableNameFindings_add, List.map_append]
  congr 1
  split
  · exact v.valueFindings_after ..
  · rfl

/-- The rule for declarations. -/
theorem declarationFindings_after :
    declarationFindings v.after = (declarationFindings v.before).map (Finding.moved v.size) := by
  have hlead := v.indent.isAllBlank_lead
  -- words and copies are looked for in the whole line, the statement from its first token on
  simp only [declarationFindings, List.map_append, selfCopyFindings_after]
  rw [code_after, loneVarFindings_behind hlead, keywordFindings_behind hlead _ (by decide),
    keywordFindings_behind hlead _ (by decide), tokens_after, List.head?_map]
  congr 2
  cases v.before.tokens.head? with
  | none => rfl
  | some first =>
    have hdrop : dropBytes (v.size + first.offset) (v.indent.lead ++ v.before.code) =
        dropBytes first.offset v.before.code := dropBytes_behind ..
    simp only [Option.map_some, Token.offset_moved, hdrop, varStatementFindings_after]
    cases hvar : first.isWord "var" <;> simp [hvar]

end Indent.View

/-! ## 4. Operators -/

section Operators

variable (k : Nat) (tokens : List Token)

/-- Operators are looked for in the tokens, which move. -/
theorem foreignOccurrences_moved (operator : ForeignOperator) :
    foreignOccurrences (tokens.map (Token.moved k)) operator =
      (foreignOccurrences tokens operator).map (k + ·) := by
  have hkind : (fun t : Token => decide (t.kind = .operator)) ∘ Token.moved k =
      fun t => decide (t.kind = .operator) := rfl
  rw [foreignOccurrences, foreignOccurrences, List.filter_map, hkind, List.flatMap_map,
    List.map_flatMap]
  simp only [Token.text_moved, Token.offset_moved, List.map_map, Function.comp_def, Nat.add_assoc]

/-- Two spans that move alike overlap as before, so that the same operators are passed over. -/
theorem overlaps_moved (start stop : Nat) (f : Finding) :
    overlaps (k + start) (k + stop) (f.moved k) = overlaps start stop f := by
  simp [overlaps, Finding.moved]

theorem foreignFinding?_moved (reported : List Finding) (operator : ForeignOperator) :
    foreignFinding? (tokens.map (Token.moved k)) (reported.map (Finding.moved k)) operator =
      (foreignFinding? tokens reported operator).map (Finding.moved k) := by
  have hfree : (fun start => !(reported.map (Finding.moved k)).any
        (overlaps start (start + byteSize operator.spelling.toList))) ∘ (k + ·) =
      fun start => !reported.any
        (overlaps start (start + byteSize operator.spelling.toList)) := by
    funext start
    -- spans that have moved together overlap as before
    simp only [Function.comp_apply, List.any_map, Nat.add_assoc]
    congr 2
    funext f
    exact overlaps_moved k start _ f
  simp only [foreignFinding?]
  rw [foreignOccurrences_moved, List.find?_map, hfree]
  simp only [Option.map_map, Function.comp_def, Finding.moved, Nat.add_assoc]

/-- The search goes from one operator to the next with what was reported before. This is moved as
well, and so stays in step. -/
theorem foreignFindings_moved (reported : List Finding) (operators : List ForeignOperator) :
    foreignFindings (tokens.map (Token.moved k)) (reported.map (Finding.moved k)) operators =
      (foreignFindings tokens reported operators).map (Finding.moved k) := by
  induction operators generalizing reported with
  | nil => rfl
  | cons operator operators ih =>
    rw [foreignFindings, foreignFindings, foreignFinding?_moved, ← ih, List.map_append,
      Option.toList_map]

end Operators

/-- The rule for operators. -/
theorem Indent.View.operatorFindings_after (v : View) :
    operatorFindings v.after = (operatorFindings v.before).map (Finding.moved v.size) := by
  have hforeign := foreignFindings_moved v.size v.before.tokens [] ForeignOperator.all
  rw [List.map_nil] at hforeign
  simp only [operatorFindings, List.map_append]
  rw [tokens_after, hforeign, Token.find?_moved _ _ rfl]
  congr 1
  cases v.before.tokens.find? hasForeignQuotes with
  | none => rfl
  | some t => simp only [Option.map_some, Token.stop_moved, List.map_cons, List.map_nil]; rfl

/-! ## 5. Conditions -/

section Conditions

variable (k : Nat) (site : ConditionSite) (base : Nat) (condition : Text)

theorem constantFindings_add :
    constantFindings site (k + base) condition =
      (constantFindings site base condition).map (Finding.moved k) := by
  simp only [constantFindings, apply_ite (List.map (Finding.moved k)), List.map_cons, List.map_nil,
    Finding.moved, Nat.add_assoc]

theorem spellingFindings_add :
    spellingFindings site (k + base) condition =
      (spellingFindings site base condition).map (Finding.moved k) := by
  unfold spellingFindings
  split
  · rfl
  · simp only [List.map_filterMap, apply_ite (Option.map (Finding.moved k)), Option.map_some,
      Option.map_none, Finding.moved, Nat.add_assoc]

theorem operandFindings_add :
    operandFindings (k + base) condition =
      (operandFindings base condition).map (Finding.moved k) := by
  unfold operandFindings
  split <;> simp only [List.map_cons, List.map_nil, Finding.moved, Nat.add_assoc]

theorem selfComparisonFindings_add :
    selfComparisonFindings (k + base) condition =
      (selfComparisonFindings base condition).map (Finding.moved k) := by
  unfold selfComparisonFindings
  split
  · rfl
  · simp only [apply_ite (List.map (Finding.moved k)), List.map_cons, List.map_nil, Finding.moved,
      Nat.add_assoc]

/-- Each of the four searches of a condition measures from its base. -/
theorem conditionTextFindings_add (t : Text) :
    conditionTextFindings site (k + base) t =
      (conditionTextFindings site base t).map (Finding.moved k) := by
  simp only [conditionTextFindings, Nat.add_assoc, constantFindings_add, spellingFindings_add,
    operandFindings_add, selfComparisonFindings_add, List.map_append]

theorem skipElse_moved (tokens : List Token) :
    skipElse (tokens.map (Token.moved k)) = (skipElse tokens).map (Token.moved k) := by
  have hskip (p : Token → Bool) (hp : ∀ t, p (t.moved k) = p t) (tokens : List Token) :
      (if (tokens.map (Token.moved k)).head?.any p then (tokens.map (Token.moved k)).drop 1
        else tokens.map (Token.moved k)) =
        (if tokens.head?.any p then tokens.drop 1 else tokens).map (Token.moved k) := by
    simp only [List.head?_map, Option.any_map, hp, ← List.map_drop,
      apply_ite (List.map (Token.moved k))]
  simp only [skipElse]
  rw [hskip _ fun _ => rfl, hskip _ fun _ => rfl]

end Conditions

namespace Indent.View

variable (v : View) (hcode : v.indent.line.isCode)
include hcode

theorem conditionHeaderFindings_after (site : ConditionSite) (keyword opener closer : Token) :
    conditionHeaderFindings v.after site (keyword.moved v.size) (opener.moved v.size)
        (closer.moved v.size) =
      (conditionHeaderFindings v.before site keyword opener closer).map (Finding.moved v.size) := by
  simp only [conditionHeaderFindings, Token.stop_moved, Token.offset_moved, between_after,
    strayFollows_after, endsDoWhile_after, codeEnd_after v hcode, conditionTextFindings_add]
  simp only [apply_ite (List.map (Finding.moved v.size)), List.map_append, List.map_cons,
    List.map_nil, Finding.moved]

/-- The rule for conditions. -/
theorem conditionFindings_after :
    conditionFindings v.after = (conditionFindings v.before).map (Finding.moved v.size) := by
  rw [conditionFindings, conditionFindings, tokens_after, skipElse_moved]
  cases skipElse v.before.tokens with
  | nil => rfl
  | cons keyword rest =>
    simp only [List.map_cons, Token.isWord_moved, Token.stop_moved, strayFollows_after,
      codeEnd_after v hcode, List.head?_map]
    split
    · split <;> rfl
    · split
      · rw [Token.closer_moved]
        cases rest.head? with
        | none => rfl
        | some opener =>
          cases (Token.partner? rest 0).bind (rest[·]?) with
          | none => rfl
          | some closer =>
            simp only [Option.map_some, Token.kind_moved, v.conditionHeaderFindings_after hcode]
            split <;> rfl
      · rfl

/-! ## 6. Function and class headers -/

omit hcode in
theorem headerNameFindings_after (header : HeaderKind) (keyword opener : Token) (index : Nat) :
    headerNameFindings v.after.code header (keyword.moved v.size) (opener.moved v.size) index =
      (headerNameFindings v.before.code header keyword opener index).map
        (Finding.moved v.size) := by
  simp only [headerNameFindings, Token.stop_moved, Token.offset_moved, between_after]
  simp only [apply_ite (List.map (Finding.moved v.size)), List.map_cons, List.map_nil,
    Finding.moved, Nat.add_assoc]

theorem headerLineFindings_after (header : HeaderKind) (keyword : Token) (rest : List Token) :
    headerLineFindings v.after header (keyword.moved v.size) (rest.map (Token.moved v.size)) =
      (headerLineFindings v.before header keyword rest).map (Finding.moved v.size) := by
  have hsemicolon : (fun t : Token => decide (t.kind = .semicolon)) ∘ Token.moved v.size =
      fun t => decide (t.kind = .semicolon) := rfl
  simp only [headerLineFindings, ← List.map_cons, Token.offset_moved, codeEnd_after v hcode]
  rw [List.all_map, hsemicolon, Token.findIdx?_moved _ _ rfl]
  split
  · rfl
  · cases (keyword :: rest).findIdx? fun t => t.kind = .opener .round with
    | none => rfl
    | some index =>
      dsimp only
      rw [Token.closer_moved, List.getElem?_map]
      cases (keyword :: rest)[index]? with
      | none => rfl
      | some opener =>
        simp only [Option.map_some, headerNameFindings_after, v.blockFindings_after hcode,
          List.map_append]

/-- The rule for headers. -/
theorem headerFindings_after :
    headerFindings v.after = (headerFindings v.before).map (Finding.moved v.size) := by
  rw [headerFindings, headerFindings, tokens_after, List.map_append, code_after,
    functionKeywordFindings_behind v.indent.isAllBlank_lead]
  congr 1
  cases v.before.tokens with
  | nil => rfl
  | cons keyword rest =>
    simp only [List.map_cons, Token.isWord_moved, v.headerLineFindings_after hcode]
    split
    · rfl
    · split <;> rfl

end Indent.View

/-! ## 7. Loops -/

/-- The header, further to the right by `k` bytes. What stands between its brackets stays as it is.
-/
def LoopHeader.moved (k : Nat) (header : LoopHeader) : LoopHeader :=
  { keyword := header.keyword.moved k
    start := k + header.start
    stop := k + header.stop
    base := k + header.base
    inner := header.inner }

section Loops

variable (k : Nat) (header : LoopHeader)

theorem separatorFrom_moved (depth : Int) (tokens : List Token) :
    separatorFrom depth (tokens.map (Token.moved k)) =
      (separatorFrom depth tokens).map (Token.moved k) := by
  induction tokens generalizing depth with
  | nil => rfl
  | cons t tokens ih =>
    simp only [List.map_cons, separatorFrom, ih, apply_ite (Option.map (Token.moved k)),
      Option.map_some]
    rfl

theorem itemLoopFindings_moved (tokens : List Token) :
    itemLoopFindings (header.moved k) (tokens.map (Token.moved k)) =
      (itemLoopFindings header tokens).map (Finding.moved k) := by
  rw [itemLoopFindings, itemLoopFindings, separatorFrom_moved]
  cases separatorFrom 0 tokens with
  | none => rfl
  | some separator =>
    simp only [Option.map_some, LoopHeader.moved, Token.stop_moved, List.map_append,
      apply_ite (List.map (Finding.moved k)), List.map_cons, List.map_nil, Finding.moved,
      Nat.add_assoc]
    rfl

/-- The semicolon right before the last clause stands behind the opening bracket. So its offset,
which is one less than that of the clause, is no truncated difference and moves like the others. -/
theorem clauseCountFindings_moved (hbase : 0 < header.base) (clauses : List (Nat × Text)) :
    clauseCountFindings (header.moved k) clauses =
      (clauseCountFindings header clauses).map (Finding.moved k) := by
  have hsemicolon (offset : Nat) :
      k + (header.base + offset) - 1 = k + (header.base + offset - 1) := by
    omega
  simp only [clauseCountFindings, LoopHeader.moved]
  rcases Option.eq_none_or_eq_some (twinSemicolons? 0 header.inner) with htwin | ⟨span, htwin⟩
  · cases clauses.getLast? with
    | none =>
      simp only [htwin, apply_ite (List.map (Finding.moved k)), List.map_cons, List.map_nil,
        Finding.moved]
    | some last =>
      simp only [htwin, hsemicolon, Nat.add_assoc, apply_ite (List.map (Finding.moved k)),
        List.map_cons, List.map_nil, Finding.moved]
  · simp only [htwin, Option.isNone_some, Bool.and_false, Bool.false_eq_true, if_false,
      apply_ite (List.map (Finding.moved k)), List.map_cons, List.map_nil, Finding.moved,
      Nat.add_assoc]

theorem secondClauseFindings_moved (clauses : List (Nat × Text)) :
    secondClauseFindings (header.moved k) clauses =
      (secondClauseFindings header clauses).map (Finding.moved k) := by
  cases clauses with
  | nil => rfl
  | cons clause clauses =>
    simp only [secondClauseFindings, LoopHeader.moved, Nat.add_assoc, conditionTextFindings_add]
    split <;> rfl

end Loops

namespace Indent.View

variable (v : View)

theorem firstClauseFindings_after (header : LoopHeader) (offset : Nat) (clause : Text) :
    firstClauseFindings v.after (header.moved v.size) offset clause =
      (firstClauseFindings v.before header offset clause).map (Finding.moved v.size) := by
  simp only [firstClauseFindings, LoopHeader.moved, Nat.add_assoc, varStatementFindings_after,
    Token.stop_moved, Token.offset_moved]
  simp only [apply_ite (List.map (Finding.moved v.size)), List.map_cons, List.map_nil,
    Finding.moved]

theorem clauseFindings_after (header : LoopHeader) (hbase : 0 < header.base)
    (clauses : List (Nat × Text)) :
    clauseFindings v.after (header.moved v.size) clauses =
      (clauseFindings v.before header clauses).map (Finding.moved v.size) := by
  simp only [clauseFindings, List.map_append, clauseCountFindings_moved _ _ hbase]
  cases clauses with
  | nil => rfl
  | cons clause clauses =>
    simp only [firstClauseFindings_after, secondClauseFindings_moved, List.map_append]

/-- What stands between the brackets of a header is read as clauses, or else as a loop over items.
Which of the two does not depend on its place. -/
theorem loopBodyFindings_after (header : LoopHeader) (hbase : 0 < header.base)
    (inside : List Token) :
    (if (topLevelParts ';' (header.moved v.size).inner).length = 1 then
      itemLoopFindings (header.moved v.size) (inside.map (Token.moved v.size))
    else clauseFindings v.after (header.moved v.size)
      (topLevelParts ';' (header.moved v.size).inner)) =
    (if (topLevelParts ';' header.inner).length = 1 then itemLoopFindings header inside
    else clauseFindings v.before header (topLevelParts ';' header.inner)).map
      (Finding.moved v.size) := by
  rw [itemLoopFindings_moved, v.clauseFindings_after header hbase]
  exact (apply_ite (List.map (Finding.moved v.size)) _ _ _).symm

/-- A header that moves is the header of the line that moves, whether it is closed or goes on to the
end of the code. -/
theorem loopHeaderFindings_after (hcode : v.indent.line.isCode) (keyword : Token) {opener : Token}
    (hopener : 0 < opener.stop) (rest : List Token) :
    loopHeaderFindings v.after (keyword.moved v.size) (opener.moved v.size)
        (rest.map (Token.moved v.size)) =
      (loopHeaderFindings v.before keyword opener rest).map (Finding.moved v.size) := by
  have hheader (stop innerStop : Nat) :
      LoopHeader.mk (keyword.moved v.size) (opener.moved v.size).offset (v.size + stop)
          (opener.moved v.size).stop
          (between (opener.moved v.size).stop (v.size + innerStop) v.after.code) =
        (LoopHeader.mk keyword opener.offset stop opener.stop
          (between opener.stop innerStop v.before.code)).moved v.size := by
    rw [Token.stop_moved, between_after]
    rfl
  simp only [loopHeaderFindings, ← List.map_cons, List.map_append]
  rw [Token.closer_moved, Token.partner?_moved, v.blockFindings_after hcode]
  congr 1
  cases hcloser : (Token.partner? (opener :: rest) 0).bind ((opener :: rest)[·]?) with
  | none =>
    -- a header that is not closed goes to the end of the code, which moves with the line
    have hbody := v.loopBodyFindings_after ⟨keyword, opener.offset, v.before.codeEnd, opener.stop,
      between opener.stop v.before.codeEnd v.before.code⟩ hopener rest
    rw [← hheader, ← v.codeEnd_after hcode] at hbody
    rw [Token.partner?_eq_none hcloser]
    exact hbody
  | some closer =>
    obtain ⟨i, hi, -⟩ := Option.bind_eq_some_iff.mp hcloser
    have hbody := v.loopBodyFindings_after ⟨keyword, opener.offset, closer.stop, opener.stop,
      between opener.stop closer.offset v.before.code⟩ hopener (rest.take (i - 1))
    rw [← hheader, ← Token.stop_moved, List.map_take] at hbody
    rw [hi]
    exact hbody

/-- The rule for loops. -/
theorem loopFindings_after (hcode : v.indent.line.isCode) :
    loopFindings v.after = (loopFindings v.before).map (Finding.moved v.size) := by
  rw [loopFindings, loopFindings, tokens_after]
  have hmem : ∀ t ∈ v.before.tokens, 0 < t.stop := fun t ht =>
    Nat.lt_of_le_of_lt (Nat.zero_le _) (Token.offset_lt_stop ht)
  cases htokens : v.before.tokens with
  | nil => rfl
  | cons keyword rest =>
    cases rest with
    | nil =>
      simp only [List.map_cons, List.map_nil, Token.isWord_moved, Token.stop_moved]
      split <;> rfl
    | cons opener rest =>
      simp only [List.map_cons, Token.isWord_moved, Token.kind_moved, Token.stop_moved,
        v.loopHeaderFindings_after hcode keyword (hmem opener (by simp [htokens]))]
      split
      · split <;> rfl
      · rfl

/-! ## 8. Documents -/

/-- **Every rule finds the same, further to the right.** The rules are gone through one by one. -/
theorem findings_after (hcode : v.indent.line.isCode) :
    v.after.findings = v.before.findings.map (Finding.moved v.size) := by
  simp only [RuleView.findings, Rule.all, List.flatMap_cons, List.flatMap_nil, List.append_nil,
    Rule.findings, List.map_append, v.terminatorFindings_after hcode, declarationFindings_after,
    operatorFindings_after, v.conditionFindings_after hcode, v.headerFindings_after hcode,
    v.loopFindings_after hcode]

/-- The views of lines and those of the lines with white space in front of them correspond one to
one. The line before the first is left open for the induction. -/
theorem forall₂_ofLines (table : Symbol.Table) (previous : Option Indent) (indents : List Indent) :
    List.Forall₂
      (fun view view' => ∃ v : View, v.indent ∈ indents ∧ view = v.before ∧ view' = v.after)
      (RuleView.ofLines table (previous.map Indent.line) (indents.map Indent.line))
      (RuleView.ofLines table (previous.map Indent.indented) (indents.map Indent.indented)) := by
  induction indents generalizing previous with
  | nil => exact .nil
  | cons i indents ih =>
    simp only [List.map_cons, RuleView.ofLines, List.head?_map]
    refine .cons ⟨⟨i, previous, indents.head?, table⟩, List.mem_cons_self, rfl, rfl⟩ ?_
    refine (ih (some i)).imp ?_
    rintro view view' ⟨v, hv, heq⟩
    exact ⟨v, List.mem_cons_of_mem i hv, heq⟩

end Indent.View

/-- The diagnostic, further to the right by `units` columns. Columns are counted in UTF-16, so this
is not the number of bytes. -/
def Diagnostic.shifted (units : Nat) (d : Diagnostic) : Diagnostic :=
  { d with
    range :=
      { start := ⟨d.range.start.line, d.range.start.character + units.toUInt32⟩
        stop := ⟨d.range.stop.line, d.range.stop.character + units.toUInt32⟩ } }

/-- A finding that moves with its line is shown as many columns further to the right as the white
space has. -/
theorem Finding.inLine_moved (i : Indent) (f : Finding) :
    (f.moved i.size).inLine i.indented = (f.inLine i.line).shifted (utf16Length i.lead) := by
  have hcolumn (n : Nat) : columnOf i.indented.raw (i.size + n) =
      columnOf i.line.raw n + (utf16Length i.lead).toUInt32 :=
    columnOf_behind i.lead i.line.raw n
  simp only [Finding.inLine, Line.range, Finding.moved, hcolumn]
  rfl

/-- **Indentation only moves columns.** Where white space is put in front of some of the lines of a
list, the table is the same one. The diagnostics are the same ones in the same order, with the same
severities and messages and on the same lines. Each has moved to the right by the columns of the
white space in front of its line. -/
theorem analysis_of_indents (indents : List Indent) :
    Symbol.Table.ofLines (indents.map Indent.indented) =
        Symbol.Table.ofLines (indents.map Indent.line) ∧
      ∀ table, List.Forall₂
        (fun d d' => ∃ i ∈ indents, i.line.isCode ∧ d.onLine i.line.index = d ∧
          d' = d.shifted (utf16Length i.lead))
        (Diagnostic.ofLines (indents.map Indent.line) table)
        (Diagnostic.ofLines (indents.map Indent.indented) table) := by
  refine ⟨Indent.table_eq indents, fun table => ?_⟩
  obtain ⟨hindented, hline⟩ := Indent.filter_isCode indents
  rw [Diagnostic.ofLines, Diagnostic.ofLines, hindented, hline]
  refine List.rel_flatMap (Indent.View.forall₂_ofLines table none _) ?_
  rintro _ _ ⟨v, hv, rfl, rfl⟩
  obtain ⟨hmem, hcode⟩ := List.mem_filter.mp hv
  beta_reduce
  rw [v.findings_after hcode, List.map_map, List.forall₂_map_left_iff, List.forall₂_map_right_iff,
    List.forall₂_same]
  intro f _
  exact ⟨v.indent, hmem, hcode, rfl, f.inLine_moved v.indent⟩

/-- A loop whose second line moves by a tab and an ideographic space, which has three bytes and one
column. -/
def unevenLoop : List Indent :=
  [⟨⟨0, 0, "for (x of xs) \x7b".toList⟩, [], 0, rfl⟩,
    ⟨⟨1, 16, "é = 'a' // b".toList⟩, ['\t', '\u3000'], 16, by decide⟩]

/-- The diagnostics of the second line move by two columns, and those of the first stay. -/
theorem analysis_of_unevenLoop :
    (Diagnostic.ofLines (unevenLoop.map Indent.line) {}).map (fun d => d.range) =
        [⟨⟨0, 7⟩, ⟨0, 9⟩⟩, ⟨⟨0, 5⟩, ⟨0, 12⟩⟩, ⟨⟨1, 0⟩, ⟨1, 7⟩⟩, ⟨⟨1, 4⟩, ⟨1, 7⟩⟩] ∧
      (Diagnostic.ofLines (unevenLoop.map Indent.indented) {}).map (fun d => d.range) =
        [⟨⟨0, 7⟩, ⟨0, 9⟩⟩, ⟨⟨0, 5⟩, ⟨0, 12⟩⟩, ⟨⟨1, 2⟩, ⟨1, 9⟩⟩, ⟨⟨1, 6⟩, ⟨1, 9⟩⟩] ∧
      Symbol.Table.ofLines (unevenLoop.map Indent.indented) =
        Symbol.Table.ofLines (unevenLoop.map Indent.line) :=
  ⟨by decide +kernel, by decide +kernel, (analysis_of_indents unevenLoop).1⟩

end MacroScript
