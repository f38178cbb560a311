import MacroScript.Proofs.Line.Indent
import MacroScript.Symbol.Collector

/-!
# Symbols of indented lines

The reader takes names, values and parameters out of a line by places that it finds in the same
line, and keeps none of these places: what goes into the table are characters and line numbers. So
**an indented line is read like the line without its white space** (`Indent.readLine_indented`), and
indented lines have the same table (`Indent.table_eq`).
-/
namespace MacroScript

open Text

/-! ## 1. Values and names -/

namespace Collector

/-- The search for the end of a value counts from where it starts, so a later start moves what it
finds by as much. -/
theorem semicolonFrom_add (k : Nat) (depth : Int) (offset : Nat) (t : Text) :
    semicolonFrom depth (k + offset) t = (semicolonFrom depth offset t).map (k + ·) := by
  induction t generalizing depth offset with
  | nil => rfl
  | cons c t ih =>
    rw [semicolonFrom, semicolonFrom, Nat.add_assoc, ih]
    split <;> rfl

/-- The end of a declared name moves with the tokens: it is that of the equals sign, of a semicolon,
or of the line. -/
theorem nameEnd_moved (lead t : Text) (tokens : List Token) :
    nameEnd (lead ++ t) (tokens.map (Token.moved (byteSize lead))) =
      byteSize lead + nameEnd t tokens := by
  unfold nameEnd
  rw [Token.find?_moved _ _ rfl, Token.find?_moved _ _ rfl]
  cases tokens.find? Token.assigns with
  | some assign => rfl
  | none =>
    cases tokens.find? fun token => token.kind = .semicolon with
    | some semicolon => rfl
    | none => exact byteSize_append lead t

/-- Braces and words are read by kind and text, so that the reader does not see where a token
stands. -/
@[simp] theorem readToken_moved (line k : Nat) (c : Collector) (t : Token) :
    readToken line c (t.moved k) = readToken line c t := rfl

theorem foldl_readToken_moved (line k : Nat) (c : Collector) (tokens : List Token) :
    (tokens.map (Token.moved k)).foldl (readToken line) c = tokens.foldl (readToken line) c := by
  rw [List.foldl_map]
  rfl

end Collector

namespace Indent

open Collector

variable (i : Indent)

/-- A value ends as many bytes later as the line is indented. -/
theorem valueStop_indented (start : Nat) :
    valueStop i.indented.code (i.size + start) = i.size + valueStop i.line.code start := by
  rw [valueStop, valueStop, dropBytes_indented, semicolonFrom_add, byteSize_indented]
  cases semicolonFrom 0 start (dropBytes start i.line.code) <;> rfl

/-- **A value has the same characters.** Both its ends have moved by the indent, and the bytes
between them are those of the line. -/
theorem initializer_indented (start : Nat) :
    initializer i.indented (i.size + start) = initializer i.line start := by
  rw [initializer, initializer, valueStop_indented, slice?_indented]

/-- A declared name has the same characters, for the same reason. -/
theorem declaredName_indented (keyword : Token) (tokens : List Token) :
    declaredName i.indented.code (keyword.moved i.size) (tokens.map (Token.moved i.size)) =
      declaredName i.line.code keyword tokens := by
  have hend : nameEnd i.indented.code (tokens.map (Token.moved i.size)) =
      i.size + nameEnd i.line.code tokens := by
    rw [code_indented]
    exact nameEnd_moved i.lead i.line.code tokens
  rw [declaredName, declaredName, hend, Token.stop_moved, between_indented]

/-- The items that a loop runs over stand between two tokens, or go to the end of the line; either
way they keep their characters. -/
theorem loopItems_indented (separator : Token) (tokens : List Token) :
    loopItems i.indented (separator.moved i.size) (tokens.map (Token.moved i.size)) =
      loopItems i.line separator tokens := by
  simp only [loopItems]
  rw [← List.map_reverse, Token.find?_moved _ _ rfl, byteSize_indented]
  cases tokens.reverse.find? fun t => t.kind = .closer .round with
  | none => simp only [Option.map_none, Token.stop_moved, slice?_indented]
  | some closer =>
    simp only [Option.map_some, Token.stop_moved, Token.offset_moved, slice?_indented]

/-! ## 2. Statements and headers -/

section Read

variable (c : Collector) (tokens : List Token)

/-- What a loop variable is given at first has the same value and the same tag. -/
theorem loopValue_indented (next : Option Token) :
    c.loopValue i.indented (tokens.map (Token.moved i.size)) (next.map (Token.moved i.size)) =
      c.loopValue i.line tokens next := by
  cases next with
  | none => rfl
  | some t =>
    rw [Option.map_some, loopValue, loopValue, Token.valueOffset_moved, initializer_indented,
      loopItems_indented]
    rfl

/-- A `var` declares the same: its name and its value have the same characters, and the line has the
same number. -/
theorem declaredVariable?_indented (keyword : Token) :
    c.declaredVariable? i.indented (keyword.moved i.size) (tokens.map (Token.moved i.size)) =
      c.declaredVariable? i.line keyword tokens := by
  simp only [declaredVariable?, declaredName_indented, index_indented]
  rw [Token.find?_moved _ _ rfl]
  cases tokens.find? Token.assigns with
  | none => rfl
  | some assign => simp only [Option.map_some, Token.valueOffset_moved, initializer_indented]

/-- A `for` declares the same. -/
theorem declaredLoopVariable?_indented :
    c.declaredLoopVariable? i.indented (tokens.map (Token.moved i.size)) =
      c.declaredLoopVariable? i.line tokens := by
  match tokens with
  | [] | [_] | [_, _] | [_, _, _] => rfl
  | first :: opener :: keyword :: name :: rest =>
    have hvalue := i.loopValue_indented c (first :: opener :: keyword :: name :: rest) rest.head?
    rw [← List.head?_map] at hvalue
    simp only [List.map_cons] at hvalue
    simp only [List.map_cons, declaredLoopVariable?, hvalue]
    rfl

theorem recordAssignment_indented :
    c.recordAssignment i.indented (tokens.map (Token.moved i.size)) =
      c.recordAssignment i.line tokens := by
  match tokens with
  | [] | [_] => rfl
  | target :: assign :: rest =>
    simp only [List.map_cons, recordAssignment, Token.valueOffset_moved, initializer_indented]
    rfl

theorem readStatement_indented (first : Token) :
    c.readStatement i.indented (first.moved i.size) (tokens.map (Token.moved i.size)) =
      c.readStatement i.line first tokens := by
  simp only [readStatement, Token.isWord_moved, declaredVariable?_indented,
    declaredLoopVariable?_indented, recordAssignment_indented, index_indented]

/-- A header has the same name and the same parameters, cut out of the line by tokens that have
moved with it. -/
theorem readHeader_indented (keyword : Token) :
    c.readHeader i.indented (keyword.moved i.size) (tokens.map (Token.moved i.size)) =
      c.readHeader i.line keyword tokens := by
  simp only [readHeader]
  rw [Token.findIdx?_moved _ _ rfl]
  cases tokens.findIdx? fun t => t.kind = .opener .round with
  | none => rfl
  | some n =>
    dsimp only
    rw [Token.closer_moved, List.getElem?_map, byteSize_indented]
    cases tokens[n]? with
    | none => rfl
    | some opener =>
      cases (Token.partner? tokens n).bind (tokens[·]?) with
      | none =>
        simp only [Option.map_some, Option.map_none, Token.stop_moved, Token.offset_moved,
          between_indented]
        rfl
      | some closer =>
        simp only [Option.map_some, Token.stop_moved, Token.offset_moved, between_indented]
        rfl

/-- **An indented line is read like the line**: its tokens are those of the line, moved, and each of
the reader's steps is blind to that. -/
theorem readLine_indented : c.readLine i.indented = c.readLine i.line := by
  rw [readLine, readLine, scan_indented]
  cases Token.scan i.line.code with
  | nil => rfl
  | cons first rest =>
    have hheader := fun c => i.readHeader_indented c (first :: rest) first
    have hstatement := fun c => i.readStatement_indented c (first :: rest) first
    simp only [List.map_cons] at hheader hstatement
    simp only [List.map_cons, readFirst, Token.isWord_moved, hheader, readToken_moved,
      foldl_readToken_moved, hstatement, index_indented]

end Read

/-- **Indented lines have the same table.** Which of the lines are code does not change either. -/
theorem table_eq (indents : List Indent) :
    Symbol.Table.ofLines (indents.map indented) = Symbol.Table.ofLines (indents.map line) := by
  obtain ⟨hindented, hline⟩ := filter_isCode indents
  rw [Symbol.Table.ofLines, Symbol.Table.ofLines, readLines, readLines, hindented, hline,
    List.foldl_map, List.foldl_map]
  simp only [readLine_indented]

end Indent

end MacroScript
