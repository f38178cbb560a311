import MacroScript.Proofs.Program.Form
import MacroScript.Proofs.Symbol.Braces
import MacroScript.Proofs.Symbol.Halving

/-!
# Where the `do` blocks of a program end

The reader of a document records the line on which each `do` block is closed. What it records
depends only on the kinds of the open frames, on which of them still waits for its brace, and on
what is recorded already: the *outline* of the reader (`Collector.outline`). In a program every
header has its brace on its own line, so no frame waits between two lines, and a line of each form
changes the outline in a way that can be said once (`outline_readLine`).

By induction on the blocks of a program **the reader comes back to the frames it started with, and
records exactly the lines on which a `do` block ends** (`IsBlock.readForms`). The lines are recorded
in ascending order, so **the search by halving finds each of them** (`halvingContains_of_mem`).
-/
namespace MacroScript

/-! ## 1. The outline of the reader -/

/-- The kinds of the open frames, the innermost first, whether each waits for its brace, and the
lines on which a `do` block was closed. What the frames declare is left out, as no end of a block
depends on it. -/
structure Outline where
  frames : List (Frame.Kind × Bool)
  ends : List Nat
deriving DecidableEq, Repr

namespace Outline

def openFrame (o : Outline) (kind : Frame.Kind) (awaitsBrace : Bool) : Outline :=
  { o with frames := (kind, awaitsBrace) :: o.frames }

/-- The innermost frame is closed, and a `do` block records its line. -/
def closeFrame (o : Outline) (line : Nat) : Outline :=
  match o.frames with
  | [] => o
  | (kind, _) :: frames => ⟨frames, o.ends ++ if kind = .doBlock then [line] else []⟩

/-- A brace is the one that the innermost frame waits for, or opens a block of its own. -/
def readBrace (o : Outline) : Outline :=
  match o.frames with
  | (kind, true) :: frames => { o with frames := (kind, false) :: frames }
  | _ => o.openFrame .block false

def readToken (line : Nat) (o : Outline) (t : Token) : Outline :=
  match t.kind with
  | .closer .curly => o.closeFrame line
  | .opener .curly => o.readBrace
  | .name => if t.isWord "do" then o.openFrame .doBlock true else o
  | _ => o

end Outline

namespace Collector

/-- What the reader has open, and what it has recorded. -/
def outline (c : Collector) : Outline :=
  ⟨c.frames.map fun f => (f.kind, f.awaitsBrace), c.table.doBlockEnds⟩

/-- Closing a frame ends the scopes in it as well, which the outline does not show. -/
theorem outline_closeFrame (c : Collector) (line : Nat) :
    (c.closeFrame line).outline = c.outline.closeFrame line := by
  cases hframes : c.frames with
  | nil => simp [closeFrame, outline, Outline.closeFrame, hframes]
  | cons frame frames =>
    simp only [closeFrame, outline, Outline.closeFrame, hframes, List.map_cons]
    rw [endScopes_eq]

theorem outline_readBrace (c : Collector) (line : Nat) :
    (c.readBrace line).outline = c.outline.readBrace := by
  cases hframes : c.frames with
  | nil => simp [readBrace, openFrame, outline, Outline.readBrace, Outline.openFrame, hframes]
  | cons frame frames =>
    by_cases hwaits : frame.awaitsBrace <;>
      simp [readBrace, openFrame, outline, Outline.readBrace, Outline.openFrame, hframes, hwaits]

/-- **Reading a token changes the outline as it says.** Only braces and the word `do` do anything.
-/
theorem outline_readToken (line : Nat) (c : Collector) (t : Token) :
    (readToken line c t).outline = c.outline.readToken line t := by
  unfold readToken Outline.readToken
  cases t.kind with
  | closer b =>
    cases b with
    | curly => exact outline_closeFrame c line
    | round | square => rfl
  | opener b =>
    cases b with
    | curly => exact outline_readBrace c line
    | round | square => rfl
  | name =>
    dsimp only
    split <;> rfl
  | number | string | dot | comma | semicolon | colon | operator | other => rfl

theorem outline_readTokens (line : Nat) (c : Collector) (ts : List Token) :
    (ts.foldl (readToken line) c).outline = ts.foldl (Outline.readToken line) c.outline := by
  induction ts generalizing c with
  | nil => rfl
  | cons t ts ih => rw [List.foldl_cons, List.foldl_cons, ih, outline_readToken]

/-- Actions that open and close nothing leave the outline alone. -/
theorem outline_performAll_of_isQuiet (c : Collector) {as : List Action}
    (h : ∀ a ∈ as, a.isQuiet) : (c.performAll as).outline = c.outline := by
  induction as generalizing c with
  | nil => rfl
  | cons a as ih =>
    rw [performAll_cons, ih _ fun b hb => h b (List.mem_cons_of_mem _ hb)]
    have hquiet := h a List.mem_cons_self
    cases a with
    | openFrame | closeFrame | takeBrace => simp [Action.isQuiet] at hquiet
    | register kind name =>
      simp only [perform, registerHeader]
      split
      · rfl
      · split <;> rfl
    | insert name value tag origin line =>
      cases hframes : c.frames <;> simp [perform, insert, outline, hframes]
    | retag | assign => rfl

/-- What a line declares or assigns leaves the outline alone, since all of its actions are quiet. -/
theorem outline_readStatement (c : Collector) (l : Line) (first : Token) (tokens : List Token) :
    (c.readStatement l first tokens).outline = c.outline := by
  rw [← performAll_statementActions]
  exact outline_performAll_of_isQuiet c fun a ha => isQuiet_of_mem_statementActions ha

/-- A function header opens a frame that waits for its brace. Its name and its parameters are
registered quietly. -/
theorem outline_readHeader (c : Collector) (l : Line) {keyword : Token}
    (hword : keyword.isWord "fun") (tokens : List Token) :
    (c.readHeader l keyword tokens).outline = c.outline.openFrame .functionBody true := by
  obtain ⟨kind, quiet, hactions, hquiet, -⟩ := headerActions_eq l keyword tokens
  have hhead : (headerActions l keyword tokens).head? =
      some (.openFrame .functionBody l.index true) := by
    simp [headerActions, hword]
  rw [hactions, List.head?_cons, Option.some.injEq, Action.openFrame.injEq] at hhead
  obtain ⟨rfl, -⟩ := hhead
  rw [← performAll_headerActions, hactions, performAll_cons, outline_performAll_of_isQuiet _ hquiet]
  rfl

end Collector

/-! ## 2. One line -/

/-- The kinds of the open frames, none of which waits, and the lines recorded. This is what the
reader can be in between two lines of a program. -/
structure Blocks where
  kinds : List Frame.Kind
  ends : List Nat
deriving DecidableEq, Repr

namespace Blocks

def outline (b : Blocks) : Outline :=
  ⟨b.kinds.map fun kind => (kind, false), b.ends⟩

def openBlock (b : Blocks) (kind : Frame.Kind) : Blocks :=
  { b with kinds := kind :: b.kinds }

def closeBlock (b : Blocks) (line : Nat) : Blocks :=
  match b.kinds with
  | [] => b
  | kind :: kinds => ⟨kinds, b.ends ++ if kind = .doBlock then [line] else []⟩

/-- What a line of a program opens and closes. `otherwise` closes the one branch and opens the
other. -/
def read (b : Blocks) (line : Nat) : Form → Blocks
  | .declare .. | .assign .. => b
  | .branch _ | .whileLoop _ | .countLoop .. | .itemLoop .. => b.openBlock .block
  | .function .. => b.openBlock .functionBody
  | .doLoop => b.openBlock .doBlock
  | .otherwise => (b.closeBlock line).openBlock .block
  | .doEnd _ | .close => b.closeBlock line

theorem outline_closeBlock (b : Blocks) (line : Nat) :
    b.outline.closeFrame line = (b.closeBlock line).outline := by
  obtain ⟨kinds, ends⟩ := b
  cases kinds <;> rfl

theorem outline_readBrace (b : Blocks) : b.outline.readBrace = (b.openBlock .block).outline := by
  obtain ⟨kinds, ends⟩ := b
  cases kinds <;> rfl

end Blocks

/-- What a piece opens and closes. Unlike a token it has no offset, which nothing here depends on.
-/
def Outline.readPiece (line : Nat) (o : Outline) : Piece → Outline
  | .mark (.closer .curly) => o.closeFrame line
  | .mark (.opener .curly) => o.readBrace
  | .name w => if w.text = "do".toList then o.openFrame .doBlock true else o
  | _ => o

/-- Reading the tokens of pieces is reading the pieces. -/
theorem readTokens_tokensOf (line offset : Nat) (o : Outline) (ps : List Piece) :
    (tokensOf offset ps).foldl (Outline.readToken line) o =
      ps.foldl (Outline.readPiece line) o := by
  induction ps generalizing offset o with
  | nil => rfl
  | cons p ps ih =>
    have hpiece : ((p.kind?.map fun kind => ⟨kind, p.text, offset⟩).toList).foldl
        (Outline.readToken line) o = o.readPiece line p := by
      cases p with
      | mark m =>
        cases m with
        | opener b | closer b => cases b <;> rfl
        | comma | semicolon | colon => rfl
      | name w =>
        have hword : Token.isWord ⟨.name, w.text, offset⟩ "do" = true ↔ w.text = "do".toList := by
          simp [Token.isWord]
        exact if_congr hword rfl rfl
      | space | number | sign | literal => rfl
    rw [tokensOf, List.foldl_append, hpiece, ih, List.foldl_cons]

@[simp] theorem readPiece_identifier (line : Nat) (o : Outline) (x : Identifier) :
    o.readPiece line x.piece = o :=
  if_neg (x.ne_of_mem (by decide))

@[simp] theorem readPieces_value (line : Nat) (o : Outline) (v : Value) :
    v.pieces.foldl (Outline.readPiece line) o = o := by
  cases v with
  | boolean b => cases b <;> rfl
  | number | null | emptyList | string => rfl

@[simp] theorem readPieces_condition (line : Nat) (o : Outline) (c : Condition) :
    c.pieces.foldl (Outline.readPiece line) o = o := by
  simp only [Condition.pieces, List.foldl_cons, readPiece_identifier]
  rfl

@[simp] theorem readPieces_parameters (line : Nat) (o : Outline) (xs : List Identifier) :
    (parameterPieces xs).foldl (Outline.readPiece line) o = o := by
  fun_induction parameterPieces xs with
  | case1 => rfl
  | case2 x => exact readPiece_identifier line o x
  | case3 x y xs ih =>
    simp only [List.foldl_cons, readPiece_identifier]
    exact ih

@[simp] theorem readPieces_block (line : Nat) (o : Outline) :
    blockPieces.foldl (Outline.readPiece line) o = o.readBrace := rfl

/-- **The pieces of a form open and close what the form does.** A function is opened by its first
word already, and its brace is then the one that is waited for. -/
theorem readPieces_form (line : Nat) (b : Blocks) (f : Form) :
    f.pieces.foldl (Outline.readPiece line)
        (match f with
          | .function .. => b.outline.openFrame .functionBody true
          | _ => b.outline) =
      (b.read line f).outline := by
  cases f with
  | declare x v | assign x v =>
    unfold Form.pieces
    simp only [declarationPieces, List.foldl_append, List.foldl_cons, readPiece_identifier,
      readPieces_value]
    rfl
  | branch c | whileLoop c =>
    unfold Form.pieces
    simp only [List.foldl_append, readPieces_condition, readPieces_block]
    exact b.outline_readBrace
  | countLoop x start c target source step =>
    unfold Form.pieces
    simp only [declarationPieces, List.foldl_append, List.foldl_cons, readPiece_identifier,
      readPieces_condition, readPieces_block]
    exact b.outline_readBrace
  | itemLoop x items =>
    unfold Form.pieces
    simp only [itemPieces, List.foldl_append, List.foldl_cons, readPiece_identifier,
      readPieces_block]
    exact b.outline_readBrace
  | function name parameters =>
    unfold Form.pieces
    simp only [List.foldl_append, List.foldl_cons, readPiece_identifier, readPieces_parameters,
      readPieces_block]
    rfl
  | doEnd c =>
    -- the brace closes the block already; what comes behind it changes nothing
    unfold Form.pieces
    simp only [List.foldl_append, readPieces_condition]
    exact b.outline_closeBlock line
  | otherwise =>
    refine Eq.trans ?_ (b.closeBlock line).outline_readBrace
    exact congrArg Outline.readBrace (b.outline_closeBlock line)
  | doLoop => rfl
  | close => exact b.outline_closeBlock line

/-- No frame waits between two lines, so none is closed at the end of one. -/
theorem expireHeader_of_outline {c : Collector} {b : Blocks} (h : c.outline = b.outline)
    (line : Nat) : c.expireHeader line = c := by
  cases hframes : c.frames with
  | nil => simp [Collector.expireHeader, hframes]
  | cons frame frames =>
    have hmem : (frame.kind, frame.awaitsBrace) ∈ b.outline.frames := by
      rw [← h]
      simp [Collector.outline, hframes]
    have hwaits : frame.awaitsBrace = false := by
      obtain ⟨kind, -, hkind⟩ := List.mem_map.mp hmem
      exact (Prod.mk.inj hkind).2.symm
    simp [Collector.expireHeader, hframes, hwaits]

section Line

variable {c : Collector} {l : Line} {first : Token} {rest : List Token}
  (hscan : Token.scan l.code = first :: rest)
include hscan

/-- The tokens of a line settle its frames, and its statement leaves them alone. What the first
token does is left open, as it differs for headers. -/
theorem outline_readLine_of_tokens {opened : Outline} {b : Blocks}
    (hopened : (c.readFirst l first (first :: rest)).outline = opened)
    (hrest : rest.foldl (Outline.readToken l.index) opened = b.outline) :
    (c.readLine l).outline = b.outline := by
  have hsettled : (rest.foldl (Collector.readToken l.index)
      (c.readFirst l first (first :: rest))).outline = b.outline := by
    rw [Collector.outline_readTokens, hopened, hrest]
  simp only [Collector.readLine, hscan, Collector.outline_readStatement,
    expireHeader_of_outline hsettled, hsettled]

/-- The same for a line that does not start with a header. -/
theorem outline_readLine_of_word {b : Blocks} (hfun : first.isWord "fun" = false)
    (hclass : first.isWord "class" = false)
    (hall : (first :: rest).foldl (Outline.readToken l.index) c.outline = b.outline) :
    (c.readLine l).outline = b.outline := by
  refine outline_readLine_of_tokens hscan ?_ hall
  rw [Collector.readFirst, hfun, hclass]
  exact Collector.outline_readToken l.index c first

/-- And for a function. -/
theorem outline_readLine_of_fun {b : Blocks} (hfun : first.isWord "fun")
    (hrest : rest.foldl (Outline.readToken l.index) (c.outline.openFrame .functionBody true) =
      b.outline) :
    (c.readLine l).outline = b.outline := by
  refine outline_readLine_of_tokens hscan ?_ hrest
  rw [Collector.readFirst, hfun]
  exact c.outline_readHeader l hfun _

end Line

/-- **What reading a line of a program does**, whichever form it has. -/
theorem outline_readLine {c : Collector} {b : Blocks} (h : c.outline = b.outline) {l : Line}
    {p : ProgramLine} (hcode : l.code = p.code) :
    (c.readLine l).outline = (b.read l.index p.form).outline := by
  have hscan : Token.scan l.code = tokensOf (Text.byteSize p.indent) p.form.pieces := by
    rw [hcode, p.scan_code]
  have hpieces := readPieces_form l.index b p.form
  rw [← readTokens_tokensOf l.index (Text.byteSize p.indent)] at hpieces
  cases hform : p.form with
  | function name parameters =>
    rw [hform] at hscan hpieces
    rw [← h] at hpieces
    exact outline_readLine_of_fun hscan rfl hpieces
  | assign x v =>
    rw [hform] at hscan hpieces
    rw [← h] at hpieces
    exact outline_readLine_of_word hscan (x.isWord_eq_false (by decide) _)
      (x.isWord_eq_false (by decide) _) hpieces
  | declare | branch | otherwise | whileLoop | doLoop | doEnd | countLoop | itemLoop | close =>
    rw [hform] at hscan hpieces
    rw [← h] at hpieces
    exact outline_readLine_of_word hscan rfl rfl hpieces

/-! ## 3. A whole program -/

/-- What numbered lines of a program open and close, one after the other. -/
def Blocks.readForms (b : Blocks) (forms : List (Nat × Form)) : Blocks :=
  forms.foldl (fun b f => b.read f.1 f.2) b

@[simp] theorem Blocks.readForms_cons (b : Blocks) (f : Nat × Form) (forms : List (Nat × Form)) :
    b.readForms (f :: forms) = (b.read f.1 f.2).readForms forms := rfl

@[simp] theorem Blocks.readForms_append (b : Blocks) (forms more : List (Nat × Form)) :
    b.readForms (forms ++ more) = (b.readForms forms).readForms more :=
  List.foldl_append

/-- Whether the form ends a `do` block. -/
def Form.isDoEnd : Form → Bool
  | doEnd _ => true
  | _ => false

/-- The lines on which a `do` block ends, as the forms show them. -/
def doEnds (forms : List (Nat × Form)) : List Nat :=
  (forms.filter fun f => f.2.isDoEnd).map Prod.fst

@[simp] theorem doEnds_cons (f : Nat × Form) (forms : List (Nat × Form)) :
    doEnds (f :: forms) = (if f.2.isDoEnd then [f.1] else []) ++ doEnds forms := by
  by_cases h : f.2.isDoEnd <;> simp [doEnds, h]

@[simp] theorem doEnds_append (forms more : List (Nat × Form)) :
    doEnds (forms ++ more) = doEnds forms ++ doEnds more := by
  simp [doEnds]

/-- A header that a closing brace ends opens one block, and this is no `do` block. -/
theorem exists_kind_of_opensBlock {f : Form} (h : f.opensBlock) :
    f.isDoEnd = false ∧
      ∃ kind ≠ .doBlock, ∀ (b : Blocks) (line : Nat), b.read line f = b.openBlock kind := by
  cases f with
  | branch | whileLoop | countLoop | itemLoop => exact ⟨rfl, .block, by decide, fun _ _ => rfl⟩
  | function => exact ⟨rfl, .functionBody, by decide, fun _ _ => rfl⟩
  | declare | assign | otherwise | doLoop | doEnd | close => simp [Form.opensBlock] at h

/-- **Reading a block leaves the frames as they were and records the ends of its `do` blocks.** The
induction is on how the block is built: the frame that a header opens is on top again when the line
that ends its block is read. -/
theorem IsBlock.readForms {fs : List Form} (h : IsBlock fs) {forms : List (Nat × Form)}
    (hforms : forms.map Prod.snd = fs) (b : Blocks) :
    b.readForms forms = ⟨b.kinds, b.ends ++ doEnds forms⟩ := by
  induction h generalizing forms b with
  | nil =>
    obtain rfl := List.map_eq_nil_iff.mp hforms
    simp [Blocks.readForms, doEnds]
  | declare x v _ ih | assign x v _ ih =>
    obtain ⟨⟨line, f⟩, rest, rfl, rfl, hrest⟩ := List.map_eq_cons_iff.mp hforms
    rw [Blocks.readForms_cons, ih hrest, doEnds_cons]
    rfl
  | braced hheader _ _ ihbody ihrest =>
    obtain ⟨⟨line, f⟩, forms, rfl, rfl, htail⟩ := List.map_eq_cons_iff.mp hforms
    obtain ⟨body, forms, rfl, hbody, htail⟩ := List.map_eq_append_iff.mp htail
    obtain ⟨⟨line', f'⟩, rest, rfl, rfl, hrest⟩ := List.map_eq_cons_iff.mp htail
    obtain ⟨hnot, kind, hkind, hread⟩ := exists_kind_of_opensBlock hheader
    -- the frame of the header is the one that the brace closes, and it is no `do` block
    rw [Blocks.readForms_cons, Blocks.readForms_append, hread, ihbody hbody, Blocks.readForms_cons,
      ihrest hrest]
    have hclose : Form.close.isDoEnd = false := rfl
    simp [Blocks.openBlock, Blocks.read, Blocks.closeBlock, hkind, hnot, hclose]
  | branching c _ _ _ ihbody ihother ihrest =>
    -- the line of the `else` closes one block and opens the next
    obtain ⟨⟨line, f⟩, forms, rfl, rfl, htail⟩ := List.map_eq_cons_iff.mp hforms
    obtain ⟨body, forms, rfl, hbody, htail⟩ := List.map_eq_append_iff.mp htail
    obtain ⟨⟨line', f'⟩, forms, rfl, rfl, htail'⟩ := List.map_eq_cons_iff.mp htail
    obtain ⟨other, forms, rfl, hother, htail'⟩ := List.map_eq_append_iff.mp htail'
    obtain ⟨⟨line'', f''⟩, rest, rfl, rfl, hrest⟩ := List.map_eq_cons_iff.mp htail'
    rw [Blocks.readForms_cons, Blocks.readForms_append, ihbody hbody, Blocks.readForms_cons,
      Blocks.readForms_append, ihother hother, Blocks.readForms_cons, ihrest hrest]
    simp [Blocks.openBlock, Blocks.read, Blocks.closeBlock, Form.isDoEnd]
  | doWhile c _ _ ihbody ihrest =>
    obtain ⟨⟨line, f⟩, forms, rfl, rfl, htail⟩ := List.map_eq_cons_iff.mp hforms
    obtain ⟨body, forms, rfl, hbody, htail⟩ := List.map_eq_append_iff.mp htail
    obtain ⟨⟨line', f'⟩, rest, rfl, rfl, hrest⟩ := List.map_eq_cons_iff.mp htail
    rw [Blocks.readForms_cons, Blocks.readForms_append, ihbody hbody, Blocks.readForms_cons,
      ihrest hrest]
    simp [Blocks.openBlock, Blocks.read, Blocks.closeBlock, Form.isDoEnd]

/-- The reader follows the forms of the lines, from any state between two lines. -/
theorem outline_readLines {ls : List Line} {ps : List ProgramLine}
    (hcode : List.Forall₂ (fun l p => l.code = p.code) ls ps) {c : Collector} {b : Blocks}
    (h : c.outline = b.outline) :
    (ls.foldl Collector.readLine c).outline =
      (b.readForms ((ls.map Line.index).zip (ps.map ProgramLine.form))).outline := by
  induction hcode generalizing c b with
  | nil => exact h
  | cons hline _ ih => exact ih (outline_readLine h hline)

/-- **Every end of a `do` block is found on its line.** It is recorded, and what is recorded is in
ascending order, as the search by halving needs it. -/
theorem endsDoBlockOn_of_mem {ls : List Line} {ps : List ProgramLine}
    (hcode : List.Forall₂ (fun l p => l.code = p.code) ls ps)
    (hblock : IsBlock (ps.map ProgramLine.form))
    (hlines : ls.Pairwise fun l l' => l.index < l'.index)
    {l : Line} {p : ProgramLine} (hmem : (l, p) ∈ ls.zip ps) (hend : p.form.isDoEnd) :
    (ls.foldl Collector.readLine {}).table.endsDoBlockOn l.index := by
  have hstart : Collector.outline {} = Blocks.outline ⟨[], []⟩ := rfl
  have hlength := hcode.length_eq
  have hread := outline_readLines hcode hstart
  rw [hblock.readForms (List.map_snd_zip (by simp [hlength]))] at hread
  have hends : (ls.foldl Collector.readLine {}).table.doBlockEnds =
      doEnds ((ls.map Line.index).zip (ps.map ProgramLine.form)) := congrArg Outline.ends hread
  -- the ends are recorded in the order of their lines, as the search needs them
  rw [Symbol.Table.endsDoBlockOn, hends]
  apply halvingContains_of_mem
  · have hsublist : (doEnds ((ls.map Line.index).zip (ps.map ProgramLine.form))).Sublist
        (((ls.map Line.index).zip (ps.map ProgramLine.form)).map Prod.fst) :=
      List.filter_sublist.map _
    rw [List.map_fst_zip (by simp [hlength])] at hsublist
    exact ((List.pairwise_map.mpr hlines).sublist hsublist).imp Nat.le_of_lt
  · refine List.mem_map.mpr ⟨(l.index, p.form), List.mem_filter.mpr ⟨?_, hend⟩, rfl⟩
    rw [List.zip_map]
    exact List.mem_map_of_mem hmem

end MacroScript
