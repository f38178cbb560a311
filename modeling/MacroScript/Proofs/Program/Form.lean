import MacroScript.Proofs.Line.Literal
import MacroScript.Proofs.Program.Piece

/-!
# Well-formed programs

The lines of a well-formed program have one of eleven forms: declarations and assignments of plain
values, the headers of branches, loops and functions, and the lines that end a block. `IsBlock` says
how lines of these forms make up a program, with blocks nested to any depth.

A string literal can hold anything but a quote, a backslash and a line break, so the characters of a
line are not yet its code. **The code of a line is its indentation and its pieces**
(`ProgramLine.codeOf_text`).
-/
namespace MacroScript

/-! ## 1. Forms -/

/-- The words that are no identifiers. With one of them in the place of a name, a line would be read
as something else. -/
def reservedWords : List Text :=
  ["var", "let", "const", "fun", "function", "class", "do", "if", "else", "while", "for", "in",
    "of", "return", "true", "false", "null", "undefined", "and", "or", "not"].map String.toList

/-- A word that is not reserved. -/
structure Identifier extends Word where
  isFree : text ∉ reservedWords

/-- An identifier is none of the keywords that a rule looks for. -/
theorem Identifier.ne_of_mem (x : Identifier) {word : Text} (h : word ∈ reservedWords) :
    x.text ≠ word := by
  rintro rfl
  exact x.isFree h

theorem Identifier.isWord_eq_false (x : Identifier) {k : String} (h : k.toList ∈ reservedWords)
    (offset : Nat) : Token.isWord ⟨.name, x.text, offset⟩ k = false := by
  simp [Token.isWord, x.ne_of_mem h]

/-- What a program can assign. A string holds anything but a quote, a backslash and a line break. -/
inductive Value where
  | number (n : Numeral)
  | boolean (b : Bool)
  | null
  | emptyList
  | string (body : Text) (h : ∀ c ∈ body, c ≠ '"' ∧ c ≠ '\\' ∧ c ≠ '\n')

def Value.text : Value → Text
  | number n => n.text
  | boolean true => "true".toList
  | boolean false => "false".toList
  | null => "null".toList
  | emptyList => "[]".toList
  | string body _ => '"' :: (body ++ ['"'])

/-- A comparison of a variable with a number. Other comparisons could be of a value with itself. -/
structure Condition where
  left : Identifier
  order : Order
  right : Numeral

def Condition.text (c : Condition) : Text :=
  c.left.text ++ " ".toList ++ c.order.text ++ " ".toList ++ c.right.text

/-- The forms of the lines of a program. A header has the brace of its block on its own line. -/
inductive Form where
  | declare (x : Identifier) (v : Value)
  | assign (x : Identifier) (v : Value)
  | branch (c : Condition)
  | otherwise
  | whileLoop (c : Condition)
  | doLoop
  | doEnd (c : Condition)
  | countLoop (x : Identifier) (start : Numeral) (c : Condition) (target source : Identifier)
      (step : Numeral)
  | itemLoop (x items : Identifier)
  | function (name : Identifier) (parameters : List Identifier)
  | close

def Form.text : Form → Text
  | declare x v => "var ".toList ++ x.text ++ " = ".toList ++ v.text ++ ";".toList
  | assign x v => x.text ++ " = ".toList ++ v.text ++ ";".toList
  | branch c => "if (".toList ++ c.text ++ ") \x7b".toList
  | otherwise => "\x7d else \x7b".toList
  | whileLoop c => "while (".toList ++ c.text ++ ") \x7b".toList
  | doLoop => "do \x7b".toList
  | doEnd c => "\x7d while (".toList ++ c.text ++ ");".toList
  | countLoop x start c target source step =>
    "for (var ".toList ++ x.text ++ " = ".toList ++ start.text ++ "; ".toList ++ c.text ++
      "; ".toList ++ target.text ++ " = ".toList ++ source.text ++ " + ".toList ++ step.text ++
      ") \x7b".toList
  | itemLoop x items =>
    "for (var ".toList ++ x.text ++ " : ".toList ++ items.text ++ ") \x7b".toList
  | function name parameters =>
    "fun ".toList ++ name.text ++ "(".toList ++
      List.intercalate ", ".toList (parameters.map fun x => x.text) ++ ") \x7b".toList
  | close => "\x7d".toList

/-- The header of a block that a closing brace alone can end. A branch may have an `else` before
that; a `do` block ends with its condition and is left out. -/
def Form.opensBlock : Form → Bool
  | branch _ | whileLoop _ | countLoop .. | itemLoop .. | function .. => true
  | _ => false

/-- The lines of a program, or of a block in it. Blocks are nested to any depth, and each ends with
the line that its header asks for. -/
inductive IsBlock : List Form → Prop
  | nil : IsBlock []
  | declare (x : Identifier) (v : Value) {rest : List Form} (hrest : IsBlock rest) :
      IsBlock (.declare x v :: rest)
  | assign (x : Identifier) (v : Value) {rest : List Form} (hrest : IsBlock rest) :
      IsBlock (.assign x v :: rest)
  | braced {header : Form} (hheader : header.opensBlock) {body rest : List Form}
      (hbody : IsBlock body) (hrest : IsBlock rest) :
      IsBlock (header :: (body ++ .close :: rest))
  | branching (c : Condition) {body other rest : List Form} (hbody : IsBlock body)
      (hother : IsBlock other) (hrest : IsBlock rest) :
      IsBlock (.branch c :: (body ++ .otherwise :: (other ++ .close :: rest)))
  | doWhile (c : Condition) {body rest : List Form} (hbody : IsBlock body)
      (hrest : IsBlock rest) : IsBlock (.doLoop :: (body ++ .doEnd c :: rest))

/-- A line of a program: a form behind some spaces and tabs. How many they are does not matter. -/
structure ProgramLine where
  indent : Text
  form : Form
  isIndent : ∀ c ∈ indent, c = ' ' ∨ c = '\t'

def ProgramLine.text (l : ProgramLine) : Text :=
  l.indent ++ l.form.text

/-! ## 2. Forms in pieces -/

def Piece.keyword (k : String) (h : Text.isAsciiWord k.toList := by decide) : Piece :=
  .name ⟨k.toList, h⟩

def Identifier.piece (x : Identifier) : Piece :=
  .name x.toWord

@[simp] theorem text_keyword (k : String) (h : Text.isAsciiWord k.toList) :
    (Piece.keyword k h).text = k.toList := rfl

@[simp] theorem text_identifier (x : Identifier) : x.piece.text = x.text := rfl

@[simp] theorem text_space : Piece.space.text = [' '] := rfl

@[simp] theorem text_number (n : Numeral) : (Piece.number n).text = n.text := rfl

@[simp] theorem text_sign (s : Sign) : (Piece.sign s).text = s.text := rfl

@[simp] theorem text_mark (m : Mark) : (Piece.mark m).text = [m.char] := rfl

def Value.pieces : Value → List Piece
  | number n => [.number n]
  | boolean true => [.keyword "true"]
  | boolean false => [.keyword "false"]
  | null => [.keyword "null"]
  | emptyList => [.mark (.opener .square), .mark (.closer .square)]
  | string body _ => [.literal (Text.byteSize body)]

def Condition.pieces (c : Condition) : List Piece :=
  [c.left.piece, .space, .sign (.order c.order), .space, .number c.right]

/-- The start of a declaration, up to its sign. -/
def namePieces (x : Identifier) : List Piece :=
  [.keyword "var", .space, x.piece, .space]

/-- The start of a declaration, up to its value. -/
def declarationPieces (x : Identifier) : List Piece :=
  [.keyword "var", .space, x.piece, .space, .sign .assign, .space]

def parameterPieces : List Identifier → List Piece
  | [] => []
  | [x] => [x.piece]
  | x :: y :: xs => x.piece :: .mark .comma :: .space :: parameterPieces (y :: xs)

/-- The variable of a loop over items, and the items. -/
def itemPieces (x items : Identifier) : List Piece :=
  [.keyword "var", .space, x.piece, .space, .mark .colon, .space, items.piece]

/-- The start of a `for` loop, up to the bracket of its header. -/
def forPieces : List Piece :=
  [.keyword "for", .space]

/-- The end of a header: its bracket and the brace of its block. -/
def blockPieces : List Piece :=
  [.mark (.closer .round), .space, .mark (.opener .curly)]

def Form.pieces : Form → List Piece
  | declare x v => declarationPieces x ++ v.pieces ++ [.mark .semicolon]
  | assign x v => [x.piece, .space, .sign .assign, .space] ++ v.pieces ++ [.mark .semicolon]
  | branch c => [.keyword "if", .space, .mark (.opener .round)] ++ c.pieces ++ blockPieces
  | otherwise =>
    [.mark (.closer .curly), .space, .keyword "else", .space, .mark (.opener .curly)]
  | whileLoop c => [.keyword "while", .space, .mark (.opener .round)] ++ c.pieces ++ blockPieces
  | doLoop => [.keyword "do", .space, .mark (.opener .curly)]
  | doEnd c =>
    [.mark (.closer .curly), .space, .keyword "while", .space, .mark (.opener .round)] ++
      c.pieces ++ [.mark (.closer .round), .mark .semicolon]
  | countLoop x start c target source step =>
    forPieces ++ [.mark (.opener .round)] ++
      (declarationPieces x ++ [.number start, .mark .semicolon, .space] ++ c.pieces ++
        [.mark .semicolon, .space, target.piece, .space, .sign .assign, .space, source.piece,
          .space, .sign .plus, .space, .number step]) ++ blockPieces
  | itemLoop x items =>
    forPieces ++ [.mark (.opener .round)] ++ itemPieces x items ++ blockPieces
  | function name parameters =>
    [.keyword "fun", .space, name.piece, .mark (.opener .round)] ++ parameterPieces parameters ++
      blockPieces
  | close => [.mark (.closer .curly)]

theorem textOf_parameterPieces (xs : List Identifier) :
    textOf (parameterPieces xs) = List.intercalate ", ".toList (xs.map fun x => x.text) := by
  fun_induction parameterPieces xs with
  | case1 => rfl
  | case2 x => simp [Piece.text, Identifier.piece]
  | case3 x y xs ih => simp [ih, Piece.text, Identifier.piece, Mark.char]

/-! ## 3. No two pieces of a form run together -/

/-- A piece that nothing runs together with can stand before any others. -/
theorem separated_cons {p : Piece} (hp : p.isBound = false) {ps : List Piece} (h : Separated ps) :
    Separated (p :: ps) := by
  cases ps with
  | nil => trivial
  | cons q ps => exact ⟨fun hbound => by rw [hp] at hbound; contradiction, h⟩

theorem separated_parameterPieces (xs : List Identifier) : Separated (parameterPieces xs) := by
  fun_induction parameterPieces xs with
  | case1 => trivial
  | case2 x => trivial
  | case3 x y xs ih => exact ⟨fun _ => rfl, separated_cons rfl (separated_cons rfl ih)⟩

/-- **No two pieces of a form run together**, so that its tokens can be told. -/
theorem Form.separated (f : Form) : Separated f.pieces := by
  have hblock : Separated blockPieces := by simp [blockPieces, Separated, Piece.isBound]
  cases f with
  | declare x v | assign x v =>
    cases v with
    | boolean b =>
      cases b <;> simp [pieces, declarationPieces, Value.pieces, Separated, Piece.isBound]
    | number | null | emptyList | string =>
      simp [pieces, declarationPieces, Value.pieces, Separated, Piece.isBound]
  | function name parameters =>
    have hname : Separated [.keyword "fun", .space, name.piece] := by
      simp [Separated, Piece.isBound]
    have hopener : Separated (.mark (.opener .round) :: parameterPieces parameters) :=
      separated_cons rfl (separated_parameterPieces parameters)
    have hfront := separated_append hname hopener (by simp [Piece.isBound])
    exact separated_append hfront hblock (by simp [blockPieces, Piece.isBound])
  | branch | otherwise | whileLoop | doLoop | doEnd | countLoop | itemLoop | close =>
    simp [pieces, declarationPieces, forPieces, itemPieces, blockPieces, Condition.pieces,
      Separated, Piece.isBound]

/-! ## 4. The code of a form -/

/-- The text holds neither a quote nor a slash, so all of it is code, and no line break. -/
def IsPlain (t : Text) : Prop :=
  ∀ c ∈ t, c ≠ '"' ∧ c ≠ '/' ∧ c ≠ '\n'

theorem codeFrom_plain {t : Text} (h : IsPlain t) (rest : Text) :
    codeFrom .outside (t ++ rest) = t ++ codeFrom .outside rest := by
  induction t with
  | nil => rfl
  | cons c cs ih =>
    obtain ⟨hquote, hslash, -⟩ := h c List.mem_cons_self
    rw [List.cons_append, codeFrom_cons hquote fun hcomment => hslash hcomment.1,
      ih fun d hd => h d (List.mem_cons_of_mem _ hd), List.cons_append]

theorem isPlain_of_all {t : Text} (h : t.all fun c => c != '"' && c != '/' && c != '\n') :
    IsPlain t := by
  intro c hc
  simpa [and_assoc] using List.all_eq_true.mp h c hc

theorem isPlain_of_isAsciiNameChar {t : Text} (h : ∀ c ∈ t, isAsciiNameChar c) : IsPlain t := by
  intro c hc
  refine ⟨?_, ?_, ?_⟩ <;> (rintro rfl; exact absurd (h _ hc) (by decide))

/-- Whether the piece is a string literal. -/
def Piece.isLiteral : Piece → Bool
  | literal _ => true
  | _ => false

/-- All pieces but string literals are plain. -/
theorem isPlain_piece {p : Piece} (hp : p.isLiteral = false) : IsPlain p.text := by
  cases p with
  | name w => exact isPlain_of_isAsciiNameChar w.isAsciiNameChar
  | number n =>
    exact isPlain_of_isAsciiNameChar fun c hc => isAsciiNameChar_of_isDigit (n.isDigits c hc)
  | space => exact isPlain_of_all rfl
  | sign s =>
    refine isPlain_of_all ?_
    cases s with
    | assign | plus => decide
    | order o => cases o <;> decide
  | mark m =>
    refine isPlain_of_all ?_
    cases m with
    | opener b | closer b => cases b <;> decide
    | comma | semicolon | colon => decide
  | literal size => simp [Piece.isLiteral] at hp

theorem isPlain_textOf {ps : List Piece} (h : ∀ p ∈ ps, p.isLiteral = false) :
    IsPlain (textOf ps) := by
  intro c hc
  obtain ⟨p, hp, hmem⟩ := List.mem_flatMap.mp hc
  exact isPlain_piece (h p hp) c hmem

/-- Without literals the pieces are the code as it is typed. -/
theorem codeFrom_textOf {ps : List Piece} (h : ∀ p ∈ ps, p.isLiteral = false) (rest : Text) :
    codeFrom .outside (textOf ps ++ rest) = textOf ps ++ codeFrom .outside rest :=
  codeFrom_plain (isPlain_textOf h) rest

/-- **The code of a value is its pieces**: the inside of a string is blanked, and of that the piece
keeps the number of bytes. -/
theorem codeFrom_value (v : Value) (rest : Text) :
    codeFrom .outside (v.text ++ rest) = textOf v.pieces ++ codeFrom .outside rest := by
  cases v with
  | string body hbody =>
    have hliteral : IsLiteralBody (fun _ => true) body := by
      induction body with
      | nil => exact .nil
      | cons c cs ih =>
        obtain ⟨hquote, hbackslash, -⟩ := hbody c List.mem_cons_self
        exact .plain hquote hbackslash (ih fun d hd => hbody d (List.mem_cons_of_mem _ hd))
    unfold Value.text Value.pieces
    simpa [Piece.text] using codeFrom_literal hliteral rest
  | number n =>
    have htext : (Value.number n).text = textOf [.number n] := (List.append_nil _).symm
    rw [htext]
    exact codeFrom_textOf (by simp [Piece.isLiteral]) rest
  | boolean b =>
    have hplain : ∀ p ∈ (Value.boolean b).pieces, p.isLiteral = false := by cases b <;> decide
    cases b <;> exact codeFrom_textOf hplain rest
  | null =>
    have hplain : ∀ p ∈ Value.null.pieces, p.isLiteral = false := by decide
    exact codeFrom_textOf hplain rest
  | emptyList =>
    have hplain : ∀ p ∈ Value.emptyList.pieces, p.isLiteral = false := by decide
    exact codeFrom_textOf hplain rest

theorem isLiteral_parameterPieces (xs : List Identifier) :
    ∀ p ∈ parameterPieces xs, p.isLiteral = false := by
  fun_induction parameterPieces xs with
  | case1 => simp
  | case2 x => simp [Identifier.piece, Piece.isLiteral]
  | case3 x y xs ih => simpa [Identifier.piece, Piece.isLiteral] using ih

/-- **The text of a form is that of its pieces**, but for the value of a statement. A string has
other characters than its piece has. -/
theorem Form.text_cases (f : Form) :
    (f.text = textOf f.pieces ∧ ∀ p ∈ f.pieces, p.isLiteral = false) ∨
      ∃ (front : List Piece) (v : Value), (∀ p ∈ front, p.isLiteral = false) ∧
        f.text = textOf front ++ (v.text ++ textOf [.mark .semicolon]) ∧
        f.pieces = front ++ (v.pieces ++ [.mark .semicolon]) := by
  -- only what is declared or assigned can be a string, whose text is not that of its piece
  cases f with
  | declare x v =>
    refine .inr ⟨declarationPieces x, v, ?_, ?_, List.append_assoc _ _ _⟩
    · simp [declarationPieces, Identifier.piece, Piece.keyword, Piece.isLiteral]
    · unfold text
      simp [declarationPieces, Sign.text, Mark.char]
  | assign x v =>
    refine .inr ⟨[x.piece, .space, .sign .assign, .space], v, ?_, ?_, rfl⟩
    · simp [Identifier.piece, Piece.isLiteral]
    · unfold text
      simp [Sign.text, Mark.char]
  | function name parameters =>
    refine .inl ⟨?_, ?_⟩
    · unfold text pieces
      simp [blockPieces, textOf_parameterPieces, Mark.char]
    · intro p hp
      simp only [pieces, List.mem_append] at hp
      rcases hp with (hp | hp) | hp
      · revert p
        simp [Identifier.piece, Piece.keyword, Piece.isLiteral]
      · exact isLiteral_parameterPieces parameters p hp
      · revert p
        simp [blockPieces, Piece.isLiteral]
  | branch | otherwise | whileLoop | doLoop | doEnd | countLoop | itemLoop | close =>
    refine .inl ⟨?_, ?_⟩
    · unfold text pieces
      simp [declarationPieces, forPieces, itemPieces, blockPieces, Condition.text,
        Condition.pieces, Mark.char, Sign.text]
    · simp [pieces, declarationPieces, forPieces, itemPieces, blockPieces, Condition.pieces,
        Identifier.piece, Piece.keyword, Piece.isLiteral]

/-- **The code of a form is its pieces**, with or without a string in it. -/
theorem Form.codeOf_text (f : Form) : codeOf f.text = textOf f.pieces := by
  rcases f.text_cases with ⟨htext, hplain⟩ | ⟨front, v, hfront, htext, hpieces⟩
  · have hcode := codeFrom_textOf hplain []
    rw [List.append_nil, codeFrom, List.append_nil] at hcode
    rw [codeOf, htext, hcode]
  · have hend : codeFrom .outside (textOf [.mark .semicolon]) = textOf [.mark .semicolon] := by
      decide
    rw [codeOf, htext, hpieces, codeFrom_textOf hfront, codeFrom_value, hend, textOf_append,
      textOf_append]

/-- A form is written in one line. A string cannot hold a line break either. -/
theorem Form.newline_not_mem (f : Form) : '\n' ∉ f.text := by
  have hplain {ps : List Piece} (h : ∀ p ∈ ps, p.isLiteral = false) : '\n' ∉ textOf ps :=
    fun hmem => (isPlain_textOf h _ hmem).2.2 rfl
  rcases f.text_cases with ⟨htext, h⟩ | ⟨front, v, hfront, htext, -⟩
  · rw [htext]
    exact hplain h
  · have hvalue : '\n' ∉ v.text := by
      cases v with
      | string body hbody =>
        intro hmem
        have hbody' : '\n' ∈ body := by simpa [Value.text] using hmem
        exact (hbody _ hbody').2.2 rfl
      | number n =>
        intro hmem
        exact absurd (n.isDigits _ hmem) (by decide)
      | boolean b => cases b <;> decide
      | null | emptyList => decide
    rw [htext, List.mem_append, List.mem_append]
    rintro (hmem | hmem | hmem)
    · exact hplain hfront hmem
    · exact hvalue hmem
    · exact absurd hmem (by decide)

/-! ## 5. Lines of a program -/

namespace ProgramLine

/-- The indentation and the pieces: the code of the line, as `codeOf_text` says. -/
def code (l : ProgramLine) : Text :=
  l.indent ++ textOf l.form.pieces

/-- **The code of a line is its indentation and its pieces.** -/
theorem codeOf_text (l : ProgramLine) : codeOf l.text = l.code := by
  have hplain : IsPlain l.indent := by
    intro c hc
    rcases l.isIndent c hc with rfl | rfl <;> decide
  rw [codeOf, text, codeFrom_plain hplain, ← codeOf, l.form.codeOf_text, code]

theorem isBlank_indent (l : ProgramLine) : ∀ c ∈ l.indent, isBlank c := by
  intro c hc
  rcases l.isIndent c hc with rfl | rfl <;> decide

theorem startsWord_indent (l : ProgramLine) : ∀ c ∈ l.indent, startsWord c = false := by
  intro c hc
  rcases l.isIndent c hc with rfl | rfl <;> decide

/-- **The tokens of a line are its pieces.** The indentation only moves them. -/
theorem scan_code (l : ProgramLine) :
    Token.scan l.code = tokensOf (Text.byteSize l.indent) l.form.pieces := by
  rw [Token.scan, code, Token.scanFrom_blanks l.isBlank_indent,
    scanFrom_textOf l.form.separated, Nat.zero_add]

end ProgramLine

end MacroScript
