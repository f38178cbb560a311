import MacroScript.Proofs.Inference.Name
import MacroScript.Proofs.Symbol.Growth
import MacroScript.Proofs.Symbol.Step
import MacroScript.Proofs.Symbol.Value

/-!
# Tags go through names

A name whose tag is known stands for the canonical expression of that tag, and **the first shape
that fits this expression gives the tag back** (`Tag.classify_canonical`). So the tag of a value
that is nothing but a known name is the tag of the name (`Names.infer_name`).

The reader asks first whether the value is a function, by its first three letters: a name that
starts with `fun` is taken for one, and its tag is lost. In `var y = x;` and `y = x;` **the tag of
`x` is recorded for `y` if and only if `x` does not start with `fun`**.
-/
namespace MacroScript

open Text

/-! ## 1. Passing on a tag -/

/-- The tag that a name passes on, if this tag is known of it. A name that starts with `fun` is
taken for a function and passes nothing on. -/
def Tag.passedBy (tag : Tag) (name : Text) : Tag :=
  if "fun".toList.isPrefixOf name then .any else tag

/-- A known tag is lost exactly on a name that starts with `fun`. For the unknown tag there is
nothing to lose, so that it is left out. -/
theorem Tag.passedBy_eq_iff {tag : Tag} (h : tag ≠ .any) (name : Text) :
    tag.passedBy name = tag ↔ ¬ "fun".toList <+: name := by
  rw [passedBy, ← List.isPrefixOf_iff_prefix]
  split
  · next hfun => exact iff_of_false (Ne.symm h) (not_not_intro hfun)
  · next hfun => exact iff_of_true rfl hfun

/-- The tag that the reader infers for a value that is nothing but a known name. To the reader a
name that starts with `fun` is a function. -/
theorem Collector.inferOn_name (c : Collector) {x : Text} (hx : x.isName) {line : Nat} {tag : Tag}
    (hknown : c.table.namesOn line x = some tag) (htag : tag ≠ .any) :
    c.inferOn x line = tag.passedBy x := by
  obtain ⟨d, ds, rfl, -⟩ := isName_iff.mp hx
  have hstart : trimStart (d :: ds) = d :: ds := by
    simpa using @trimStart_append [] rfl d (not_isBlank_of_isName hx d (by simp)) ds
  rw [inferOn, hstart, Names.infer_name hx hknown htag, Tag.passedBy]

/-! ## 2. Statements that pass on a name -/

/-- The code is `target = source;`, with white space anywhere. -/
def Assigns (target source code : Text) : Prop :=
  target.isName ∧ source.isName ∧ ∃ b₀ b₁ b₂ b₃ b₄,
    isAllBlank b₀ ∧ isAllBlank b₁ ∧ isAllBlank b₂ ∧ isAllBlank b₃ ∧ isAllBlank b₄ ∧
      code = b₀ ++ target ++ b₁ ++ '=' :: (b₂ ++ source ++ b₃ ++ ';' :: b₄)

/-- The code is `var target = source;`, with white space anywhere. After the keyword there is at
least one such character, or it would be part of a longer name. -/
def Declares (target source code : Text) : Prop :=
  ∃ b₀ c rest, isAllBlank b₀ ∧ isBlank c ∧ code = b₀ ++ "var".toList ++ c :: rest ∧
    Assigns target source rest

/-- The parts of `target = source;`: white space around the target, the value, which is the source
and white space around it, and the four tokens. The offset is left open, since the statement may
come after the keyword of a declaration. -/
theorem Assigns.exists_parts {target source code : Text} (h : Assigns target source code)
    (offset : Nat) :
    ∃ b₀ b₁ value back n, isAllBlank b₀ ∧ isAllBlank b₁ ∧
      code = b₀ ++ target ++ b₁ ++ '=' :: (value ++ ';' :: back) ∧
      trim value = source ∧ (∀ c ∈ value, isBlank c ∨ isNameChar c) ∧
      Token.scanFrom offset code =
        [⟨.name, target, offset + byteSize b₀⟩,
          ⟨.operator, ['='], offset + byteSize (b₀ ++ target ++ b₁)⟩, ⟨.name, source, n⟩,
          ⟨.semicolon, [';'], offset + byteSize (b₀ ++ target ++ b₁) + 1 + byteSize value⟩] := by
  obtain ⟨htarget, hsource, b₀, b₁, b₂, b₃, b₄, h₀, h₁, h₂, h₃, h₄, rfl⟩ := h
  have hblank {b : Text} (hb : isAllBlank b) : ∀ c ∈ b, isBlank c := List.all_eq_true.mp hb
  refine ⟨b₀, b₁, b₂ ++ source ++ b₃, b₄,
    offset + byteSize (b₀ ++ target ++ b₁) + 1 + byteSize b₂, h₀, h₁, rfl,
    trim_core h₂ (isTrimmed_of_isName hsource) h₃, ?_, ?_⟩
  · intro c hc
    simp only [List.mem_append] at hc
    rcases hc with (hc | hc) | hc
    · exact .inl (hblank h₂ c hc)
    · exact .inr (isNameChar_of_isName hsource c hc)
    · exact .inl (hblank h₃ c hc)
  · -- the scan passes over white space and stops each name where that or a sign comes next
    have hsign : ∀ c ∈ (b₂ ++ (source ++ (b₃ ++ ';' :: b₄))).head?, isOperatorSign c = false := by
      obtain ⟨d, ds, rfl, hd, -⟩ := isName_iff.mp hsource
      exact not_of_isAllBlank_append @isOperatorSign_of_isBlank h₂
        (isOperatorSign_of_isNameChar (isNameChar_of_kindOf hd)) _
    have hend (offset : Nat) : Token.scanFrom offset b₄ = [] := by
      simpa using Token.scanFrom_blanks (hblank h₄) [] offset
    simp only [List.append_assoc]
    rw [Token.scanFrom_blanks (hblank h₀), Token.scanFrom_name htarget
      (not_of_isAllBlank_append @isNameChar_of_isBlank h₁ (by decide) _),
      Token.scanFrom_blanks (hblank h₁), Token.scanFrom_equals hsign,
      Token.scanFrom_blanks (hblank h₂), Token.scanFrom_name hsource
      (not_of_isAllBlank_append @isNameChar_of_isBlank h₃ (by decide) _),
      Token.scanFrom_blanks (hblank h₃), Token.scanFrom_semicolon, hend]
    simp [Nat.add_assoc, Nat.add_comm, Nat.add_left_comm]

/-! ## 3. What is read -/

namespace Collector

/-- The value ends with the first semicolon if it has no bracket in it, as is the case for names and
white space: the depth stays at zero. -/
theorem semicolonFrom_append {value : Text} (h : ∀ c ∈ value, isBlank c ∨ isNameChar c)
    (back : Text) (offset : Nat) :
    semicolonFrom 0 offset (value ++ ';' :: back) = some (offset + byteSize value) := by
  induction value generalizing offset with
  | nil => rfl
  | cons c cs ih =>
    have hc := h c List.mem_cons_self
    have hne : c ≠ ';' := by
      rintro rfl
      exact absurd hc (by decide)
    rw [List.cons_append, semicolonFrom, if_neg (by simp [hne]),
      bracketStep_of_isBlank_or_isNameChar hc, Int.zero_add,
      ih fun d hd => h d (List.mem_cons_of_mem _ hd), byteSize_cons, Nat.add_assoc]

/-- The value of an assignment, if it is made of names and white space. The mask of the line can
then hide nothing of it, and its end is the first semicolon. -/
theorem initializer_eq {l : Line} {assign : Token} (hmem : assign ∈ Token.scan l.code)
    (hassigns : assign.assigns) {front value back : Text}
    (hcode : l.code = front ++ '=' :: (value ++ ';' :: back))
    (hoffset : assign.offset = byteSize front) (hvalue : ∀ c ∈ value, isBlank c ∨ isNameChar c) :
    initializer l assign.valueOffset = trim value := by
  obtain ⟨-, value', -, -, -, hmask, hinit⟩ := exists_value hmem hassigns
  have hsplit : l.code = (front ++ ['=']) ++ (value ++ (';' :: back)) := by
    rw [hcode]
    simp
  have hstart : assign.valueOffset = byteSize (front ++ ['=']) := by
    rw [Token.valueOffset, hoffset, byteSize_append]
    rfl
  have hstop : valueStop l.code assign.valueOffset =
      byteSize (front ++ ['=']) + byteSize value := by
    rw [valueStop, hstart, hsplit, dropBytes_byteSize_append, semicolonFrom_append hvalue]
    rfl
  rw [hstop, hstart, hsplit, between_append] at hmask
  have hquote : '"' ∉ mask value' := by
    rw [hmask]
    exact fun hmem => absurd (hvalue _ hmem) (by decide)
  rw [mask_eq_self hquote] at hmask
  rw [hinit, hmask]

variable {l : Line} {target source : Text} {first : Token} {rest : List Token}

/-- A `var` statement whose value is made of names and white space: the name stands between the
keyword and the equals sign, and without a name nothing is declared. -/
theorem statementActions_of_var (c : Collector) {assign : Token} {lead front value back : Text}
    (hscan : Token.scan l.code = ⟨.name, "var".toList, byteSize lead⟩ :: rest)
    (hfind : rest.find? Token.assigns = some assign)
    (hcode : l.code = (lead ++ "var".toList) ++ (front ++ '=' :: (value ++ ';' :: back)))
    (hassign : assign.offset = byteSize (lead ++ "var".toList) + byteSize front)
    (hvalue : ∀ c ∈ value, isBlank c ∨ isNameChar c) :
    c.statementActions l ⟨.name, "var".toList, byteSize lead⟩ (Token.scan l.code) =
      if (trim front).isEmpty then []
      else [c.declareAction (trim front) (trim value) (c.inferOn (trim value) l.index) .variable
        l.index] := by
  have hfirst : (Token.scan l.code).find? Token.assigns = some assign := by
    rw [hscan, ← hfind]
    rfl
  have hname : declaredName l.code ⟨.name, "var".toList, byteSize lead⟩ (Token.scan l.code) =
      trim front := by
    rw [declaredName, nameEnd, hfirst, Token.stop, ← byteSize_append]
    simp only [hassign]
    rw [hcode, between_append]
  have hinit : initializer l assign.valueOffset = trim value :=
    initializer_eq (List.mem_of_find?_eq_some hfirst) (List.find?_some hfirst)
      (hcode.trans (List.append_assoc _ _ _).symm) (hassign.trans (byteSize_append _ _).symm) hvalue
  have hvar : (⟨.name, "var".toList, byteSize lead⟩ : Token).isWord "var" := rfl
  simp only [statementActions, hvar, if_true, declaredVariable?, hname, hfirst, hinit]
  split <;> rfl

/-- `var target = source;` declares the target with the source. The keyword takes its own token off
the front, and what is left are the tokens of an assignment. -/
theorem statementActions_of_declares (c : Collector) (h : Declares target source l.code)
    (hscan : Token.scan l.code = first :: rest) :
    c.statementActions l first (first :: rest) =
      [c.declareAction target source (c.inferOn source l.index) .variable l.index] := by
  obtain ⟨b₀, b, code, hb₀, hb, hcode, hassigns⟩ := h
  obtain ⟨b₁, b₂, value, back, n, hb₁, hb₂, hrest, hsource, hvalue, htokens⟩ :=
    hassigns.exists_parts (byteSize (b₀ ++ "var".toList) + b.utf8Size)
  have htarget : trim (b :: b₁ ++ target ++ b₂) = target := by
    refine trim_core ?_ (isTrimmed_of_isName hassigns.1) hb₂
    rw [isAllBlank, List.all_cons, hb]
    exact hb₁
  -- the keyword is the first token, so that the parts of the assignment are those of the statement
  have hlead : Token.scan l.code = ⟨.name, "var".toList, byteSize b₀⟩ ::
      Token.scanFrom (byteSize (b₀ ++ "var".toList) + b.utf8Size) code := by
    have hblank : ∀ c ∈ (b :: code).head?, isNameChar c = false := by
      simpa using isNameChar_of_isBlank hb
    rw [hcode, Token.scan, List.append_assoc, Token.scanFrom_blanks (List.all_eq_true.mp hb₀),
      Token.scanFrom_name (by decide) hblank, Token.scanFrom_blank _ _ hb, Nat.zero_add,
      byteSize_append]
  have hparts : l.code = (b₀ ++ "var".toList) ++
      ((b :: b₁ ++ target ++ b₂) ++ '=' :: (value ++ ';' :: back)) := by
    rw [hcode, hrest]
    simp
  rw [htokens] at hlead
  obtain ⟨rfl, -⟩ := List.cons.inj (hscan.symm.trans hlead)
  have hnonempty : target.isEmpty = false := by
    obtain ⟨d, ds, rfl, -⟩ := isName_iff.mp hassigns.1
    rfl
  rw [← hscan, statementActions_of_var c hlead rfl hparts (by simp [Nat.add_assoc]) hvalue, htarget,
    hsource, hnonempty]
  rfl

/-- `target = source;` records the source for the target, if that can be seen. A target that is
`var` or `for` is read as the keyword instead, which is the next lemma. -/
theorem statementActions_of_assigns (c : Collector) (h : Assigns target source l.code)
    (hvar : target ≠ "var".toList) (hfor : target ≠ "for".toList)
    (hscan : Token.scan l.code = first :: rest) :
    c.statementActions l first (first :: rest) =
      (c.table.meaningOn target l.index).toList.map fun s =>
        .assign s.id ⟨l.index, source, c.inferOn source l.index⟩ := by
  obtain ⟨b₀, b₁, value, back, n, -, -, hcode, hsource, hvalue, htokens⟩ := h.exists_parts 0
  rw [← Token.scan, hscan, Nat.zero_add, Nat.zero_add] at htokens
  obtain ⟨rfl, rfl⟩ := List.cons.inj htokens
  have hinit : initializer l (⟨.operator, ['='], byteSize (b₀ ++ target ++ b₁)⟩ :
      Token).valueOffset = source := by
    rw [← hsource]
    exact initializer_eq (by simp [hscan]) rfl hcode rfl hvalue
  have hword (word : String) (hne : target ≠ word.toList) :
      (⟨.name, target, byteSize b₀⟩ : Token).isWord word = false := by
    simp [Token.isWord, hne]
  have hequals : (⟨.operator, ['='], byteSize (b₀ ++ target ++ b₁)⟩ : Token).assigns := rfl
  simp only [statementActions, hword "var" hvar, hword "for" hfor, Bool.false_eq_true, if_false,
    assignActions, decide_true, hequals, Bool.and_self, if_true, hinit]
  cases c.table.meaningOn target l.index <;> rfl

/-- `var = source;` declares no name, and `for = source;` is no loop. -/
theorem statementActions_of_assigns_keyword (c : Collector) (h : Assigns target source l.code)
    (hkeyword : target = "var".toList ∨ target = "for".toList)
    (hscan : Token.scan l.code = first :: rest) :
    c.statementActions l first (first :: rest) = [] := by
  obtain ⟨b₀, b₁, value, back, n, -, hb₁, hcode, -, hvalue, htokens⟩ := h.exists_parts 0
  rw [← Token.scan, Nat.zero_add, Nat.zero_add] at htokens
  rcases hkeyword with rfl | rfl
  · obtain ⟨rfl, -⟩ := List.cons.inj (hscan.symm.trans htokens)
    rw [← hscan, statementActions_of_var c htokens rfl (hcode.trans (List.append_assoc _ _ _))
      (byteSize_append _ _) hvalue, trim_of_isAllBlank hb₁]
    rfl
  · rw [hscan] at htokens
    obtain ⟨rfl, rfl⟩ := List.cons.inj htokens
    rfl

/-- A symbol that is found in the table is changed in its place, since its id is its place. -/
theorem WellFormed.modify_of_find? {c : Collector} (h : c.WellFormed) {p : Symbol → Bool}
    {s : Symbol} (hfind : c.table.symbols.reverse.find? p = some s) (change : Symbol → Symbol) :
    c.table.symbols.modify s.id change = c.table.symbols.set s.id (change s) := by
  have hmem : s ∈ c.table.symbols := List.mem_reverse.mp (List.mem_of_find?_eq_some hfind)
  rw [List.modify_eq_set_getElem?, h.getElem?_id hmem]
  rfl

end Collector

/-! ## 4. Tags go through names -/

namespace Collector

/-- On the line a `var` statement gives the tag to the name: to its symbol that is still open, or
else to a new one. No other symbol changes, which the equations say of the whole list. -/
structure RecordsDeclaration (c c' : Collector) (name value : Text) (tag : Tag) (line : Nat) :
    Prop where
  again : ∀ s, c.table.latestOpen name = some s →
    c'.table.symbols = c.table.symbols.set s.id { s with tag := tag, redeclaredLine := some line }
  anew : c.table.latestOpen name = none →
    c'.table.symbols = c.table.symbols ++ [c.newSymbol name value tag .variable line]

/-- On the line an assignment with the tag is recorded for the name, if it can be seen. No other
symbol changes. -/
structure RecordsAssignment (c c' : Collector) (name value : Text) (tag : Tag) (line : Nat) :
    Prop where
  seen : ∀ s, c.table.meaningOn name line = some s →
    c'.table.symbols = c.table.symbols.set s.id
      { s with reassignments := s.reassignments ++ [⟨line, value, tag⟩] }
  unseen : c.table.meaningOn name line = none → c'.table.symbols = c.table.symbols

/-- A declaration does this in any well-formed state: which of the two cases it is depends on
whether the name is open. -/
theorem WellFormed.recordsDeclaration {c : Collector} (h : c.WellFormed) (name value : Text)
    (tag : Tag) (line : Nat) :
    RecordsDeclaration c (c.perform (c.declareAction name value tag .variable line)) name value tag
      line := by
  refine ⟨fun s hs => ?_, fun hnone => ?_⟩
  · rw [declareAction, hs]
    exact h.modify_of_find? hs _
  · rw [declareAction, hnone]
    exact congrArg Symbol.Table.symbols (insert_table c name value tag .variable line)

/-- An assignment is recorded in any well-formed state, for the symbol that its target means on the
line. -/
theorem WellFormed.recordsAssignment {c : Collector} (h : c.WellFormed) (name value : Text)
    (tag : Tag) (line : Nat) :
    RecordsAssignment c (c.performAll ((c.table.meaningOn name line).toList.map fun s =>
      .assign s.id ⟨line, value, tag⟩)) name value tag line := by
  refine ⟨fun s hs => ?_, fun hnone => ?_⟩
  · rw [hs]
    exact h.modify_of_find? hs _
  · rw [hnone]
    rfl

/-- The state in which a statement is read is well formed. -/
theorem wellFormed_settled (before : List Line) {l : Line} {first : Token} {rest : List Token}
    (hscan : Token.scan l.code = first :: rest) : ((readLines before).settled l).WellFormed := by
  rw [← performAll_frameActions _ hscan]
  exact (wellFormed_readLines before).performAll _

/-- A line with a character that is not white space is read by its statement, from the state that
its frames leave. -/
theorem exists_readLines_concat (before : List Line) {l : Line} {c : Char} (hmem : c ∈ l.code)
    (hc : isBlank c = false) :
    ∃ first rest, Token.scan l.code = first :: rest ∧ readLines (before ++ [l]) =
      ((readLines before).settled l).performAll
        (((readLines before).settled l).statementActions l first (first :: rest)) := by
  have hcode : l.isCode := Line.isCode_of_mem hmem hc
  obtain ⟨first, rest, hscan⟩ := Line.exists_scan_of_isCode hcode
  refine ⟨first, rest, hscan, ?_⟩
  rw [readLines_concat before hcode, readLine_eq _ hscan, performAll_statementActions]

end Collector

/-- An assignment has an equals sign, so its line is code. -/
theorem Assigns.equals_mem {target source code : Text} (h : Assigns target source code) :
    '=' ∈ code := by
  obtain ⟨-, -, b₀, b₁, b₂, b₃, b₄, -, -, -, -, -, rfl⟩ := h
  simp

theorem Declares.equals_mem {target source code : Text} (h : Declares target source code) :
    '=' ∈ code := by
  obtain ⟨b₀, c, rest, -, -, rfl, hassigns⟩ := h
  simp [hassigns.equals_mem]

open Collector in
/-- **Tags go through names that do not start with `fun`.** Where the tag of `x` is known to the
reader of the line, `var y = x;` gives `y` the tag that `x` passes on, and `y = x;` records it for
`y`, unless `y` is a keyword of declarations, where nothing is recorded. The tag passed on is that
of `x` if and only if `x` does not start with `fun`. -/
theorem Symbol.Table.tags_pass_through_names (before : List Line) (l : Line) (y x : Text)
    (tag : Tag)
    (hknown : ((readLines before).settled l).table.namesOn l.index x = some tag)
    (htag : tag ≠ .any) :
    (Declares y x l.code →
      RecordsDeclaration ((readLines before).settled l) (readLines (before ++ [l])) y x
        (tag.passedBy x) l.index) ∧
    (Assigns y x l.code → y ≠ "var".toList → y ≠ "for".toList →
      RecordsAssignment ((readLines before).settled l) (readLines (before ++ [l])) y x
        (tag.passedBy x) l.index) ∧
    (Assigns y x l.code → y = "var".toList ∨ y = "for".toList →
      readLines (before ++ [l]) = (readLines before).settled l) ∧
    (tag.passedBy x = tag ↔ ¬ "fun".toList <+: x) := by
  refine ⟨fun h => ?_, fun h hvar hfor => ?_, fun h hkeyword => ?_, Tag.passedBy_eq_iff htag x⟩
  · obtain ⟨first, rest, hscan, hread⟩ := exists_readLines_concat before h.equals_mem (by decide)
    have hx : x.isName := by
      obtain ⟨_, _, _, -, -, -, hassigns⟩ := h
      exact hassigns.2.1
    rw [hread, statementActions_of_declares _ h hscan, inferOn_name _ hx hknown htag]
    exact (wellFormed_settled before hscan).recordsDeclaration y x _ l.index
  · obtain ⟨first, rest, hscan, hread⟩ := exists_readLines_concat before h.equals_mem (by decide)
    rw [hread, statementActions_of_assigns _ h hvar hfor hscan, inferOn_name _ h.2.1 hknown htag]
    exact (wellFormed_settled before hscan).recordsAssignment y x _ l.index
  · obtain ⟨first, rest, hscan, hread⟩ := exists_readLines_concat before h.equals_mem (by decide)
    rw [hread, statementActions_of_assigns_keyword _ h hkeyword hscan, performAll_nil]

/-- A number, and two lines that can come after it. -/
def numberLine : Line := ⟨0, 0, "var n = 1;".toList⟩

def renameLine : Line := ⟨1, 11, "\tvar  y= n ; // the same".toList⟩

def reassignLine : Line := ⟨1, 11, "n =n;".toList⟩

open Collector in
theorem Symbol.Table.number_passes_through_name :
    (((readLines [numberLine]).settled renameLine).table.namesOn 1 ['n'] = some .number ∧
      Declares ['y'] ['n'] renameLine.code ∧
      RecordsDeclaration ((readLines [numberLine]).settled renameLine)
        (readLines [numberLine, renameLine]) ['y'] ['n'] .number 1) ∧
    (((readLines [numberLine]).settled reassignLine).table.namesOn 1 ['n'] = some .number ∧
      Assigns ['n'] ['n'] reassignLine.code ∧
      RecordsAssignment ((readLines [numberLine]).settled reassignLine)
        (readLines [numberLine, reassignLine]) ['n'] ['n'] .number 1) := by
  have hdeclares : Declares ['y'] ['n'] renameLine.code :=
    ⟨['\t'], ' ', [' ', 'y', '=', ' ', 'n', ' ', ';', ' '], by decide, by decide, by decide +kernel,
      by decide, by decide, [' '], [], [' '], [' '], [' '], by decide, by decide, by decide,
      by decide, by decide, rfl⟩
  have hassigns : Assigns ['n'] ['n'] reassignLine.code :=
    ⟨by decide, by decide, [], [' '], [], [], [], by decide, by decide, by decide, by decide,
      by decide, by decide +kernel⟩
  have hrename : ((readLines [numberLine]).settled renameLine).table.namesOn 1 ['n'] =
      some .number := by decide +kernel
  have hreassign : ((readLines [numberLine]).settled reassignLine).table.namesOn 1 ['n'] =
      some .number := by decide +kernel
  exact ⟨⟨hrename, hdeclares,
      (tags_pass_through_names [numberLine] renameLine ['y'] ['n'] .number hrename
        (by decide)).1 hdeclares⟩,
    ⟨hreassign, hassigns,
      (tags_pass_through_names [numberLine] reassignLine ['n'] ['n'] .number hreassign
        (by decide)).2.1 hassigns (by decide) (by decide)⟩⟩

/-- `funds` is a number, and what is made of it is not known to be one. -/
theorem Symbol.Table.funds_pass_nothing_on :
    (ofText "var funds = 1;".toList).namesOn 1 "funds".toList = some .number ∧
    (ofText "var funds = 1;\nvar y = funds;".toList).symbols.map Symbol.tag = [.number, .any] ∧
    (ofText "var funds = 1;\nfunds = funds;".toList).symbols.map
      (fun s => s.reassignments.map Reassignment.tag) = [[.any]] := by
  decide +kernel

end MacroScript
