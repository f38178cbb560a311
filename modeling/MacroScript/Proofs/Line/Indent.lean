import MacroScript.Proofs.Line.Comment
import MacroScript.Proofs.Token.OpenLiteral

/-!
# Indented lines

White space in front of a line moves everything on it. This module says so of the parts that the
analysis is made of: the places in a text behind a front part (`Text.between_behind` and the other
cuts), the words and the tokens behind white space (`Text.wholeWords_behind`, `Token.scan_behind`),
and the code of an indented line (`Indent.code_indented`), which is the code of the line behind the
same white space.
-/
namespace MacroScript

open Text

/-! ## 1. Behind a front part -/

namespace Text

section Front

variable (u v : Text)

/-- The bytes of the front part are taken first, and the others from what is behind it. -/
theorem takeBytes_behind (n : Nat) : takeBytes (byteSize u + n) (u ++ v) = u ++ takeBytes n v := by
  induction u with
  | nil => rw [byteSize_nil, Nat.zero_add, List.nil_append, List.nil_append]
  | cons c u ih =>
    have hsub : c.utf8Size + byteSize u + n - c.utf8Size = byteSize u + n := by omega
    rw [byteSize_cons, List.cons_append, takeBytes, if_pos (by omega), hsub, ih, List.cons_append]

theorem dropBytes_behind (n : Nat) : dropBytes (byteSize u + n) (u ++ v) = dropBytes n v := by
  have hwhole := takeBytes_append_dropBytes (byteSize u + n) (u ++ v)
  rw [takeBytes_behind, List.append_assoc] at hwhole
  have hrest := (List.append_cancel_left hwhole).trans (takeBytes_append_dropBytes n v).symm
  exact List.append_cancel_left hrest

/-- What stands between two places behind a front part is what stands between them in the rest. -/
theorem between_behind (start stop : Nat) :
    between (byteSize u + start) (byteSize u + stop) (u ++ v) = between start stop v := by
  rw [between, between, dropBytes_behind, Nat.add_sub_add_left]

/-- A place behind a front part is a boundary if it is one of the rest. -/
theorem isBoundary_behind (n : Nat) : isBoundary (byteSize u + n) (u ++ v) = isBoundary n v := by
  rw [isBoundary, isBoundary, takeBytes_behind, byteSize_append, Bool.eq_iff_iff]
  simp

theorem slice?_behind (start stop : Nat) :
    slice? (byteSize u + start) (byteSize u + stop) (u ++ v) = slice? start stop v := by
  rw [slice?, slice?, isBoundary_behind, isBoundary_behind, between_behind]
  simp

/-- Columns move by the length of the front part in UTF-16. Both sides are numbers of 32 bits, which
wrap around alike. -/
theorem columnOf_behind (n : Nat) :
    columnOf (u ++ v) (byteSize u + n) = columnOf v n + (utf16Length u).toUInt32 := by
  rw [columnOf, columnOf, takeBytes_behind, utf16Length_append, Nat.add_comm]
  simp [Nat.toUInt32]

end Front

/-! ## 2. Behind white space -/

section Lead

variable {lead : Text} (hlead : isAllBlank lead) (t : Text)
include hlead

theorem isAllBlank_behind : isAllBlank (lead ++ t) = isAllBlank t := by
  rw [isAllBlank, List.all_append, ← isAllBlank, ← isAllBlank, hlead, Bool.true_and]

theorem trimStart_behind : trimStart (lead ++ t) = trimStart t :=
  List.dropWhile_append_of_pos (List.all_eq_true.mp hlead)

/-- White space in front of a text is trimmed off with the text's own. -/
theorem trim_behind : trim (lead ++ t) = trim t := by
  rw [trim, trimStart_behind hlead, trim]

variable {t}

/-- White space moves the core of a text that has one. (A text of white space has its core at its
end, which moves all the same but is no place of a character.) -/
theorem coreSpan_behind (ht : isAllBlank t = false) :
    coreSpan (lead ++ t) =
      (byteSize lead + (coreSpan t).1, byteSize lead + (coreSpan t).2) := by
  obtain ⟨front, core, back, rfl, hfront, hback, hcore, hspan⟩ := exists_core ht
  have hfront' : isAllBlank (lead ++ front) := by rwa [isAllBlank_behind hlead]
  rw [hspan, ← List.append_assoc, ← List.append_assoc, coreSpan_core hfront' hcore hback,
    byteSize_append, Nat.add_assoc]

/-- White space at the far end of the neighbours of a place does not go on with a word. -/
theorem endsWord_behind (before : Text) : endsWord (before ++ lead.reverse) = endsWord before := by
  cases before with
  | cons c before => rfl
  | nil =>
    cases hlast : lead.reverse with
    | nil => rfl
    | cons c cs =>
      have hc : isBlank c := List.all_eq_true.mp hlead c (by
        rw [← List.mem_reverse, hlast]
        exact List.mem_cons_self)
      simp [endsWord, isWordChar_of_isBlank hc]

end Lead

end Text

/-- The occurrence in a text with `lead` in front of it. -/
def WordOccurrence.behind (lead : Text) (word : WordOccurrence) : WordOccurrence :=
  ⟨word.before ++ lead.reverse, byteSize lead + word.offset, word.after⟩

namespace Text

/-- Words are found where they were, further to the right, and with the white space among the
characters before them. -/
theorem wholeWordsFrom_behind {lead : Text} (hlead : isAllBlank lead) (word before : Text)
    (offset : Nat) (t : Text) :
    wholeWordsFrom word (before ++ lead.reverse) (byteSize lead + offset) t =
      (wholeWordsFrom word before offset t).map (WordOccurrence.behind lead) := by
  induction t generalizing before offset with
  | nil => rfl
  | cons c t ih =>
    have hlater := ih (c :: before) (offset + c.utf8Size)
    rw [List.cons_append, ← Nat.add_assoc] at hlater
    rw [wholeWordsFrom, wholeWordsFrom, hlater, endsWord_behind hlead]
    split <;> rfl

/-- A word that starts with no white space does not start in it, so the search passes over the white
space. -/
theorem wholeWordsFrom_blanks {lead : Text} (hlead : isAllBlank lead) {word : Text}
    (hword : word.head?.any fun c => !isBlank c) (before : Text) (offset : Nat) (t : Text) :
    wholeWordsFrom word before offset (lead ++ t) =
      wholeWordsFrom word (lead.reverse ++ before) (offset + byteSize lead) t := by
  induction lead generalizing before offset with
  | nil => rfl
  | cons c lead ih =>
    rw [isAllBlank, List.all_cons, Bool.and_eq_true] at hlead
    -- the characters passed over go to the left of what is found later
    have hnot : word.isPrefixOf (c :: (lead ++ t)) = false := by
      cases word with
      | nil => simp at hword
      | cons d word =>
        have hd : isBlank d = false := by simpa using hword
        have hne : d ≠ c := by
          rintro rfl
          rw [hlead.1] at hd
          contradiction
        simp [List.isPrefixOf, hne]
    rw [List.cons_append, wholeWordsFrom, hnot]
    simp only [Bool.and_false, Bool.false_and, Bool.false_eq_true, if_false]
    rw [ih hlead.2, List.reverse_cons, List.append_assoc, List.singleton_append, byteSize_cons,
      Nat.add_assoc]

/-- **White space in front of a text moves its words.** -/
theorem wholeWords_behind {lead : Text} (hlead : isAllBlank lead) {word : Text}
    (hword : word.head?.any fun c => !isBlank c) (t : Text) :
    wholeWords word (lead ++ t) = (wholeWords word t).map (WordOccurrence.behind lead) := by
  rw [wholeWords, wholeWordsFrom_blanks hlead hword, List.append_nil, Nat.zero_add]
  exact wholeWordsFrom_behind hlead word [] 0 t

end Text

/-! ## 3. Tokens -/

namespace Token

/-- **White space in front of a text moves its tokens**: it is no part of any of them. -/
theorem scan_behind {lead : Text} (hlead : isAllBlank lead) (t : Text) :
    scan (lead ++ t) = (scan t).map (moved (byteSize lead)) := by
  rw [scan, scanFrom_blanks (List.all_eq_true.mp hlead), Nat.zero_add]
  exact scanFrom_add (byteSize lead) 0 t

section Moved

variable (k : Nat) (t : Token) (tokens : List Token)

@[simp] theorem kind_moved : (t.moved k).kind = t.kind := rfl

@[simp] theorem text_moved : (t.moved k).text = t.text := rfl

@[simp] theorem offset_moved : (t.moved k).offset = k + t.offset := rfl

@[simp] theorem stop_moved : (t.moved k).stop = k + t.stop :=
  Nat.add_assoc ..

@[simp] theorem valueOffset_moved : (t.moved k).valueOffset = k + t.valueOffset :=
  Nat.add_assoc ..

@[simp] theorem isWord_moved (word : String) : (t.moved k).isWord word = t.isWord word := rfl

/-- A search that does not look at places finds the token that has moved. The hypothesis holds by
definition for the searches of the analysis, which ask for kinds and words. -/
theorem find?_moved {p : Token → Bool} (hp : p ∘ moved k = p) :
    (tokens.map (moved k)).find? p = (tokens.find? p).map (moved k) := by
  rw [List.find?_map, hp]

theorem findIdx?_moved {p : Token → Bool} (hp : p ∘ moved k = p) :
    (tokens.map (moved k)).findIdx? p = tokens.findIdx? p := by
  rw [List.findIdx?_map, hp]

/-- Brackets are counted by kind, so the scan for a partner does not notice a move. -/
theorem closeAfter_moved (bracket : Bracket) (depth : Nat) :
    closeAfter bracket depth (tokens.map (moved k)) = closeAfter bracket depth tokens := by
  induction tokens generalizing depth with
  | nil => rfl
  | cons t tokens ih => simp only [List.map_cons, closeAfter, kind_moved, ih]

@[simp] theorem partner?_moved (i : Nat) :
    partner? (tokens.map (moved k)) i = partner? tokens i := by
  rw [partner?, partner?, ← List.map_drop]
  cases tokens.drop i with
  | nil => rfl
  | cons t ts => simp only [List.map_cons, kind_moved, closeAfter_moved]

/-- The token that closes a group moves with the others. -/
theorem closer_moved (i : Nat) :
    ((partner? (tokens.map (moved k)) i).bind ((tokens.map (moved k))[·]?)) =
      ((partner? tokens i).bind (tokens[·]?)).map (moved k) := by
  rw [partner?_moved]
  cases partner? tokens i with
  | none => rfl
  | some j => simp

end Moved

end Token

/-! ## 4. Lines -/

/-- A line of a document and the white space that is put in front of it. With white space in front
of the lines above, the line may start at another place in the document. That the text in front is
white space is part of the structure, so no lemma asks for it again. -/
structure Indent where
  line : Line
  lead : Text
  offset : Nat
  isAllBlank_lead : Text.isAllBlank lead

namespace Indent

variable (i : Indent)

/-- How many bytes the line moves. -/
def size : Nat :=
  byteSize i.lead

/-- The line with the white space in front of it. -/
def indented : Line :=
  ⟨i.line.index, i.offset, i.lead ++ i.line.raw⟩

@[simp] theorem index_indented : i.indented.index = i.line.index := rfl

/-- **The code of an indented line is the code of the line behind the same white space.** So all
that is found in it is found in the line, further to the right. -/
theorem code_indented : i.indented.code = i.lead ++ i.line.code :=
  codeOf_append_of_isAllBlank i.isAllBlank_lead i.line.raw

/-- An indented line takes part in the analysis exactly if the line does. -/
theorem isCode_indented : i.indented.isCode = i.line.isCode := by
  rw [Line.isCode_eq, Line.isCode_eq, Line.isEmpty, Line.isEmpty, code_indented,
    isAllBlank_behind i.isAllBlank_lead]

/-- Its tokens are those of the line, moved. -/
theorem scan_indented :
    Token.scan i.indented.code = (Token.scan i.line.code).map (Token.moved i.size) := by
  rw [code_indented, Token.scan_behind i.isAllBlank_lead, size]

theorem between_indented (start stop : Nat) :
    between (i.size + start) (i.size + stop) i.indented.code = between start stop i.line.code := by
  rw [code_indented]
  exact between_behind i.lead i.line.code start stop

theorem dropBytes_indented (n : Nat) :
    dropBytes (i.size + n) i.indented.code = dropBytes n i.line.code := by
  rw [code_indented]
  exact dropBytes_behind i.lead i.line.code n

theorem slice?_indented (start stop : Nat) :
    slice? (i.size + start) (i.size + stop) i.indented.raw = slice? start stop i.line.raw :=
  slice?_behind i.lead i.line.raw start stop

theorem byteSize_indented : byteSize i.indented.code = i.size + byteSize i.line.code := by
  rw [code_indented, byteSize_append, size]

theorem trim_indented : trim i.indented.code = trim i.line.code := by
  rw [code_indented, trim_behind i.isAllBlank_lead]

theorem trimStart_indented : trimStart i.indented.code = trimStart i.line.code := by
  rw [code_indented, trimStart_behind i.isAllBlank_lead]

/-- The lines of code among indented lines are those that were lines of code. Both filters are told
by the same list of indents, so that the two can be compared line by line. -/
theorem filter_isCode (indents : List Indent) :
    (indents.map indented).filter Line.isCode =
        (indents.filter fun i => i.line.isCode).map indented ∧
      (indents.map line).filter Line.isCode =
        (indents.filter fun i => i.line.isCode).map line := by
  have hcode : Line.isCode ∘ indented = fun i => i.line.isCode := funext isCode_indented
  rw [List.filter_map, List.filter_map, hcode]
  exact ⟨rfl, rfl⟩

end Indent

end MacroScript
