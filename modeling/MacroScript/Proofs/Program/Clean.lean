import MacroScript.Analysis
import MacroScript.Proofs.Diagnostic.Range
import MacroScript.Proofs.Program.DoBlock
import MacroScript.Proofs.Program.Header

/-!
# Well-formed programs are clean

A program is a block of lines with line breaks between them. Each line of its text is a line of the
program, none of them is passed over, and no rule finds anything in it. **A well-formed program has
no diagnostics** (`diagnose_program`), however deep its blocks are nested and whatever its string
literals hold.
-/
namespace MacroScript

/-! ## 1. The text of a program -/

/-- The two line breaks. Which of them a program has makes no difference. -/
inductive LineBreak where
  | feed
  | returnFeed
deriving DecidableEq, Repr

def LineBreak.text : LineBreak → Text
  | feed => ['\n']
  | returnFeed => ['\r', '\n']

/-- The text of some lines, each with a line break after it. The last one can be without. -/
def programText (lineBreak : LineBreak) (closed : Bool) : List ProgramLine → Text
  | [] => []
  | [l] => l.text ++ if closed then lineBreak.text else []
  | l :: next :: ls => l.text ++ lineBreak.text ++ programText lineBreak closed (next :: ls)

/-! ## 2. The lines of the text -/

/-- A form holds code from its first character on: it starts neither with white space nor with a
comment. -/
theorem Form.exists_text_cons (f : Form) :
    ∃ c cs, f.text = c :: cs ∧ isBlank c = false ∧ ¬(c = '/' ∧ cs.head? = some '/') := by
  have hcode := f.codeOf_text
  obtain ⟨p, ps, hpieces, hp⟩ : ∃ p ps, f.pieces = p :: ps ∧ p ≠ .space := by
    cases f <;> exact ⟨_, _, rfl, by simp [Piece.keyword, Identifier.piece]⟩
  obtain ⟨d, ds, htext, hd, -⟩ := exists_head_of_ne_space hp
  rw [hpieces, textOf_cons, htext, codeOf] at hcode
  cases hform : f.text with
  | nil => simp [hform, codeFrom] at hcode
  | cons c cs =>
    rw [hform, codeFrom] at hcode
    split at hcode
    · -- a comment would have no code
      simp at hcode
    · next hcomment =>
      obtain ⟨rfl, -⟩ := List.cons.inj hcode
      exact ⟨c, cs, rfl, hd, by simpa using hcomment⟩

/-- A form does not end with a carriage return, so none is dropped that is part of it. -/
theorem Form.getLast?_text (f : Form) : f.text.getLast? ≠ some '\r' := by
  rcases f.text_cases with ⟨htext, -⟩ | ⟨front, v, -, htext, -⟩
  · obtain ⟨front, c, hlast, hc⟩ := f.exists_last
    rw [htext, hlast, List.getLast?_concat]
    rintro ⟨⟩
    exact absurd hc (by decide)
  · rw [htext, ← List.append_assoc, show textOf [.mark .semicolon] = [';'] from rfl,
      List.getLast?_concat]
    decide

namespace ProgramLine

variable (l : ProgramLine)

/-- No line of a program is passed over. -/
theorem isCode_of_raw {line : Line} (hraw : line.raw = l.text) : line.isCode := by
  obtain ⟨c, cs, htext, hc, hcomment⟩ := l.form.exists_text_cons
  have hindent : Text.isAllBlank l.indent := List.all_eq_true.mpr l.isBlank_indent
  have hstart : Text.trimStart line.raw = c :: cs := by
    rw [hraw, text, htext, Text.trimStart_append hindent hc]
  have hnotComment : line.isComment = false := by
    rw [Line.isComment, hstart, ← Bool.not_eq_true, List.isPrefixOf_iff_prefix]
    rintro ⟨rest, hrest⟩
    obtain ⟨rfl, rfl⟩ := List.cons.inj hrest
    exact hcomment ⟨rfl, rfl⟩
  -- the last character of its code is a semicolon or a brace
  have hnotEmpty : line.isEmpty = false := by
    obtain ⟨front, d, hlast, hd⟩ := l.form.exists_last
    rw [Line.isEmpty, Line.code, hraw, l.codeOf_text, code, hlast]
    simp [Text.isAllBlank, isBlank_of_endsLine hd]
  rw [Line.isCode, hnotComment, hnotEmpty]
  rfl

theorem newline_not_mem : '\n' ∉ l.text := by
  rw [text, List.mem_append]
  rintro (hmem | hmem)
  · rcases l.isIndent _ hmem with h | h <;> exact absurd h (by decide)
  · exact l.form.newline_not_mem hmem

theorem ne_nil : l.text ≠ [] := by
  obtain ⟨c, cs, htext, -⟩ := l.form.exists_text_cons
  simp [text, htext]

/-- What is cut off a line for its break is no part of the form. -/
theorem dropReturn_text : Text.dropReturn l.text = l.text := by
  have hlast : l.text.getLast? ≠ some '\r' := by
    obtain ⟨c, cs, htext, -⟩ := l.form.exists_text_cons
    have hform := l.form.getLast?_text
    rwa [text, List.getLast?_append_of_ne_nil _ (by simp [htext])]
  rw [Text.dropReturn, if_neg hlast]

/-- A line break ends the line, whichever it is. The offset of the next line depends on the break,
and nothing else does. -/
theorem exists_number_lineBreak (lineBreak : LineBreak) (rest : Text) (index offset : Nat) :
    ∃ offset', (Line.number index offset
        (List.splitOn '\n' (l.text ++ lineBreak.text ++ rest))).map Line.raw =
      l.text :: (Line.number (index + 1) offset' (List.splitOn '\n' rest)).map Line.raw := by
  obtain ⟨ending, hbreak, hending, hdrop⟩ : ∃ ending, lineBreak.text = ending ++ ['\n'] ∧
      '\n' ∉ ending ∧ Text.dropReturn (l.text ++ ending) = l.text := by
    cases lineBreak with
    | feed => exact ⟨[], rfl, by simp, by rw [List.append_nil, l.dropReturn_text]⟩
    | returnFeed => exact ⟨['\r'], rfl, by decide, by simp [Text.dropReturn]⟩
  have hnot : '\n' ∉ l.text ++ ending := by simp [l.newline_not_mem, hending]
  have hsplit : List.splitOn '\n' (l.text ++ lineBreak.text ++ rest) =
      (l.text ++ ending) :: List.splitOn '\n' rest := by
    rw [hbreak, ← List.splitOn_append_cons_self_of_not_mem hnot]
    simp
  obtain ⟨next, pieces, hnext⟩ := List.exists_cons_of_ne_nil (List.splitOn_ne_nil '\n' rest)
  rw [hsplit, hnext, Line.number, List.map_cons, hdrop]
  exact ⟨_, rfl⟩

end ProgramLine

/-- **The lines of the text are the lines of the program.** The induction goes line by line; the
last one may have no break. -/
theorem map_raw_programText (lineBreak : LineBreak) (closed : Bool) (ls : List ProgramLine) :
    (Line.ofText (programText lineBreak closed ls)).map Line.raw = ls.map ProgramLine.text := by
  have hnumber (index offset : Nat) : (Line.number index offset
      (List.splitOn '\n' (programText lineBreak closed ls))).map Line.raw =
        ls.map ProgramLine.text := by
    fun_induction programText lineBreak closed ls generalizing index offset with
    | case1 => rfl
    | case2 l =>
      cases closed with
      | true =>
        obtain ⟨offset', hnumber⟩ := l.exists_number_lineBreak lineBreak [] index offset
        rw [List.append_nil] at hnumber
        exact hnumber
      | false =>
        -- the text ends with the line, so there is nothing to split
        have hsplit := List.splitOn_eq_singleton l.newline_not_mem
        simp [hsplit, Line.number, l.ne_nil, l.dropReturn_text]
    | case3 l next ls ih =>
      obtain ⟨offset', hnumber⟩ := l.exists_number_lineBreak lineBreak
        (programText lineBreak closed (next :: ls)) index offset
      rw [hnumber, ih]
      rfl
  exact hnumber 0 0

/-! ## 3. The rules -/

/-- No rule finds anything in a line of a program, if the ends of its `do` blocks are known. This is
the one thing that a rule takes from other lines. -/
theorem findings_programLine {view : RuleView} {l : ProgramLine} (hcode : view.code = l.code)
    (hends : ∀ c, l.form = .doEnd c → endsDoWhile view) : view.findings = [] := by
  rw [RuleView.findings, List.flatMap_eq_nil_iff]
  intro rule _
  cases rule with
  | termination => exact terminatorFindings_eq_nil hcode
  | declaration => exact declarationFindings_eq_nil hcode
  | operators => exact operatorFindings_eq_nil hcode
  | condition => exact conditionFindings_eq_nil hcode hends
  | header => exact headerFindings_eq_nil hcode
  | loop => exact loopFindings_eq_nil hcode

/-! ## 4. Programs -/

/-- Each line of the text with its line of the program. The two lists are of one length, so that
each line has one. -/
theorem exists_mem_zip {ls : List Line} {ps : List ProgramLine}
    (h : List.Forall₂ (fun l p => l.raw = p.text) ls ps) {l : Line} (hl : l ∈ ls) :
    ∃ p, (l, p) ∈ ls.zip ps ∧ l.raw = p.text := by
  induction h with
  | nil => simp at hl
  | @cons l' p ls ps hraw _ ih =>
    rcases List.mem_cons.mp hl with rfl | hl
    · exact ⟨p, List.mem_cons_self, hraw⟩
    · obtain ⟨q, hq, hsame⟩ := ih hl
      exact ⟨q, List.mem_cons_of_mem _ hq, hsame⟩

/-- **A well-formed program has no diagnostics.** Its lines are those of the program, all of them
are code, and the table knows where its `do` blocks end; so no rule finds anything. -/
theorem diagnose_program {lines : List ProgramLine} (hblock : IsBlock (lines.map ProgramLine.form))
    (lineBreak : LineBreak) (closed : Bool) :
    diagnose (programText lineBreak closed lines) = [] := by
  have hraw : List.Forall₂ (fun l p => l.raw = p.text)
      (Line.ofText (programText lineBreak closed lines)) lines := by
    have hmap := map_raw_programText lineBreak closed lines
    rwa [← List.forall₂_eq_eq_eq, List.forall₂_map_left_iff, List.forall₂_map_right_iff] at hmap
  generalize hls : Line.ofText (programText lineBreak closed lines) = ls at hraw
  have hcode {l : Line} {p : ProgramLine} (h : l.raw = p.text) : l.code = p.code := by
    rw [Line.code, h, p.codeOf_text]
  have hall : ls.filter Line.isCode = ls := by
    rw [List.filter_eq_self]
    intro l hl
    obtain ⟨p, -, hp⟩ := exists_mem_zip hraw hl
    exact p.isCode_of_raw hp
  have horder : ls.Pairwise fun l l' => l.index < l'.index := by
    rw [← hls]
    exact (Line.number_index 0 0 _).1
  -- each rule, at each line: all that depends on other lines is the end of a `do` block
  have hsilent : ∀ view ∈ RuleView.ofLines (Symbol.Table.ofLines ls) none ls,
      view.findings = [] := by
    intro view hview
    have hline : view.line ∈ ls := by
      have hmem := List.mem_map_of_mem (f := RuleView.line) hview
      rwa [map_line_ofLines] at hmem
    obtain ⟨p, hzip, hp⟩ := exists_mem_zip hraw hline
    refine findings_programLine (hcode hp) fun c hform => ?_
    have hends := endsDoBlockOn_of_mem (hraw.imp fun _ _ => hcode) hblock horder hzip
      (by rw [hform]; rfl)
    rw [endsDoWhile, table_of_mem_ofLines hview, Symbol.Table.ofLines, Collector.readLines, hall,
      hends, Bool.true_or]
  rw [diagnose, Analysis.ofText, hls]
  rw [Diagnostic.ofLines, hall, List.flatMap_eq_nil_iff]
  intro view hview
  rw [hsilent view hview, List.map_nil]

/-- A function with a string that looks like code, and a branch and a loop inside a `do` block. -/
def nestedProgram : List ProgramLine :=
  let x : Identifier := ⟨⟨"x".toList, by decide⟩, by decide⟩
  let y_1 : Identifier := ⟨⟨"y_1".toList, by decide⟩, by decide⟩
  let ten : Numeral := ⟨"10".toList, by decide, List.all_eq_true.mp (by decide)⟩
  let spaces (n : Nat) (form : Form) : ProgramLine :=
    ⟨List.replicate n ' ', form, fun _ hc => .inl (List.eq_of_mem_replicate hc)⟩
  [spaces 0 (.function x [x, y_1]),
    ⟨['\t'], .declare x (.string "// \x7b 'q' ".toList (by simp)), by simp⟩,
    spaces 1 .doLoop,
    spaces 2 (.branch ⟨x, .less, ten⟩),
    spaces 3 (.assign x .emptyList),
    spaces 2 .otherwise,
    spaces 3 (.countLoop x ten ⟨y_1, .notEqual, ten⟩ x y_1 ten),
    spaces 3 .close,
    spaces 2 .close,
    spaces 1 (.doEnd ⟨y_1, .atLeast, ten⟩),
    spaces 1 (.itemLoop y_1 x),
    spaces 1 .close,
    spaces 0 .close]

theorem isBlock_nestedProgram : IsBlock (nestedProgram.map ProgramLine.form) :=
  .braced (by rfl) (.declare _ _ (.doWhile _
    (.branching _ (.assign _ _ .nil) (.braced (by rfl) .nil .nil) .nil)
    (.braced (by rfl) .nil .nil))) .nil

theorem diagnose_nestedProgram :
    IsBlock (nestedProgram.map ProgramLine.form) ∧
      programText .feed true nestedProgram =
        ["fun x(x, y_1) \x7b",
          "\tvar x = \"// \x7b 'q' \";",
          " do \x7b",
          "  if (x < 10) \x7b",
          "   x = [];",
          "  \x7d else \x7b",
          "   for (var x = 10; y_1 != 10; x = y_1 + 10) \x7b",
          "   \x7d",
          "  \x7d",
          " \x7d while (y_1 >= 10);",
          " for (var y_1 : x) \x7b",
          " \x7d",
          "\x7d"].flatMap (fun line => line.toList ++ ['\n']) ∧
      diagnose (programText .feed true nestedProgram) = [] :=
  ⟨isBlock_nestedProgram, by decide +kernel, diagnose_program isBlock_nestedProgram .feed true⟩

end MacroScript
