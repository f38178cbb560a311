import MacroScript.Diagnostic.Statement
import MacroScript.Proofs.Token.OpenLiteral

/-!
# Code in pieces

A line of code can be given piece by piece: words, numbers, operators, marks of punctuation, string
literals whose inside is blanked, and the spaces between them. If no two pieces run together, what
the scans make of such a line can be read off its pieces. **Its tokens are the pieces**
(`scanFrom_textOf`), and **its words are the words among them** (`exists_name_of_mem_wholeWords`): a
word cannot start inside another one, nor in any other piece.
-/
namespace MacroScript

/-! ## 1. Pieces -/

/-- A letter, and letters, digits and underscores after it. -/
def Text.isAsciiWord : Text → Bool
  | [] => false
  | c :: cs => c.isAlpha && cs.all isAsciiNameChar

/-- A word of letters, digits and underscores, with the proof that it is one. -/
structure Word where
  text : Text
  isWord : text.isAsciiWord

/-- Digits, at least one. There are no points and no signs in it. -/
structure Numeral where
  text : Text
  ne_nil : text ≠ []
  isDigits : ∀ c ∈ text, c.isDigit

/-- The ways to compare two values. -/
inductive Order where
  | equal
  | notEqual
  | atMost
  | atLeast
  | less
  | greater
deriving DecidableEq, Repr

def Order.text : Order → Text
  | equal => "==".toList
  | notEqual => "!=".toList
  | atMost => "<=".toList
  | atLeast => ">=".toList
  | less => "<".toList
  | greater => ">".toList

/-- The operators of a program. -/
inductive Sign where
  | assign
  | plus
  | order (o : Order)
deriving DecidableEq, Repr

def Sign.text : Sign → Text
  | assign => "=".toList
  | plus => "+".toList
  | order o => o.text

/-- The marks of punctuation of a program. -/
inductive Mark where
  | opener (b : Bracket)
  | closer (b : Bracket)
  | comma
  | semicolon
  | colon
deriving DecidableEq, Repr

def Mark.char : Mark → Char
  | opener .round => '('
  | opener .curly => '{'
  | opener .square => '['
  | closer .round => ')'
  | closer .curly => '}'
  | closer .square => ']'
  | comma => ','
  | semicolon => ';'
  | colon => ':'

def Mark.kind : Mark → Token.Kind
  | opener b => .opener b
  | closer b => .closer b
  | comma => .comma
  | semicolon => .semicolon
  | colon => .colon

/-- A piece of a line of code. Of a string literal only the number of bytes between its quotes is
left, which is all that the code keeps of it. -/
inductive Piece where
  | space
  | name (w : Word)
  | number (n : Numeral)
  | sign (s : Sign)
  | mark (m : Mark)
  | literal (size : Nat)

namespace Piece

def text : Piece → Text
  | space => [' ']
  | name w => w.text
  | number n => n.text
  | sign s => s.text
  | mark m => [m.char]
  | literal size => '"' :: (List.replicate size ' ' ++ ['"'])

/-- The kind of the token that the piece is. -/
def kind? : Piece → Option Token.Kind
  | space => none
  | name _ => some .name
  | number _ => some .number
  | sign _ => some .operator
  | mark m => some m.kind
  | literal _ => some .string

/-- Run together with a piece of this sort, another one would change it. -/
def isBound : Piece → Bool
  | name _ | number _ | sign _ => true
  | _ => false

end Piece

/-- The text of some pieces. -/
def textOf (ps : List Piece) : Text :=
  ps.flatMap Piece.text

/-- The tokens that some pieces are, the first of them standing at byte `offset`. A space is no
token, but counts for a byte. -/
def tokensOf (offset : Nat) : List Piece → List Token
  | [] => []
  | p :: ps =>
    (p.kind?.map fun kind => ⟨kind, p.text, offset⟩).toList ++
      tokensOf (offset + Text.byteSize p.text) ps

/-- No two pieces run together: between two that could be taken for one there is a space or a mark.
-/
def Separated : List Piece → Prop
  | p :: q :: ps => (p.isBound → q.isBound = false) ∧ Separated (q :: ps)
  | _ => True

@[simp] theorem textOf_nil : textOf [] = [] := rfl

@[simp] theorem textOf_cons (p : Piece) (ps : List Piece) :
    textOf (p :: ps) = p.text ++ textOf ps := rfl

@[simp] theorem textOf_append (ps qs : List Piece) : textOf (ps ++ qs) = textOf ps ++ textOf qs :=
  List.flatMap_append

theorem tokensOf_append (offset : Nat) (ps qs : List Piece) :
    tokensOf offset (ps ++ qs) =
      tokensOf offset ps ++ tokensOf (offset + Text.byteSize (textOf ps)) qs := by
  induction ps generalizing offset with
  | nil => rfl
  | cons p ps ih =>
    rw [List.cons_append, tokensOf, ih, tokensOf, List.append_assoc, textOf_cons,
      Text.byteSize_append, Nat.add_assoc]

theorem Separated.tail {p : Piece} {ps : List Piece} (h : Separated (p :: ps)) : Separated ps := by
  cases ps with
  | nil => trivial
  | cons q ps => exact h.2

/-- Each of two parts of separated pieces is separated. -/
theorem Separated.of_append {ps qs : List Piece} (h : Separated (ps ++ qs)) : Separated qs := by
  induction ps with
  | nil => exact h
  | cons p ps ih => exact ih h.tail

theorem Separated.of_append_left {ps qs : List Piece} (h : Separated (ps ++ qs)) :
    Separated ps := by
  induction ps with
  | nil => trivial
  | cons p ps ih =>
    cases ps with
    | nil => trivial
    | cons q ps => exact ⟨h.1, ih h.2⟩

/-- They can be put together if the second does not start with a piece that could run into the
first. -/
theorem separated_append {ps qs : List Piece} (hps : Separated ps) (hqs : Separated qs)
    (hfree : ∀ q ∈ qs.head?, q.isBound = false) : Separated (ps ++ qs) := by
  induction ps with
  | nil => exact hqs
  | cons p ps ih =>
    cases ps with
    | nil =>
      cases qs with
      | nil => trivial
      | cons q qs => exact ⟨fun _ => hfree q rfl, hqs⟩
    | cons q ps => exact ⟨hps.1, ih hps.2⟩

/-! ## 2. What ends a piece -/

/-- A character that ends a word, a number and an operator. One notion will do for the three, since
a space and every mark is such a character. -/
def isApart (c : Char) : Bool :=
  !isNameChar c && !isWordChar c && !isOperatorSign c && c != '.'

/-- The text is at its end, or goes on with a character that ends the piece before it. -/
def StartsApart (t : Text) : Prop :=
  ∀ c ∈ t.head?, isApart c

/-- **What follows a bound piece starts apart from it**, so that the scan takes the piece and no
more. -/
theorem startsApart_of_separated {p : Piece} {ps : List Piece} (h : Separated (p :: ps))
    (hp : p.isBound) : StartsApart (textOf ps) := by
  intro c hc
  cases ps with
  | nil => simp at hc
  | cons q ps =>
    have hq := h.1 hp
    rw [textOf_cons] at hc
    cases q with
    | name | number | sign => simp [Piece.isBound] at hq
    | space =>
      obtain rfl : ' ' = c := by simpa [Piece.text] using hc
      decide
    | mark m =>
      obtain rfl : m.char = c := by simpa [Piece.text] using hc
      cases m with
      | opener b | closer b => cases b <;> decide
      | comma | semicolon | colon => decide
    | literal size =>
      obtain rfl : '"' = c := by simpa [Piece.text] using hc
      decide

theorem isNameChar_of_isApart {c : Char} (h : isApart c) : isNameChar c = false := by
  simp only [isApart, Bool.and_eq_true, Bool.not_eq_true'] at h
  exact h.1.1.1

theorem isWordChar_of_isApart {c : Char} (h : isApart c) : isWordChar c = false := by
  simp only [isApart, Bool.and_eq_true, Bool.not_eq_true'] at h
  exact h.1.1.2

theorem isOperatorSign_of_isApart {c : Char} (h : isApart c) : isOperatorSign c = false := by
  simp only [isApart, Bool.and_eq_true, Bool.not_eq_true'] at h
  exact h.1.2

/-! ## 3. Characters of words and numbers -/

/-- A word starts with a letter. -/
theorem Word.exists_cons (w : Word) :
    ∃ c cs, w.text = c :: cs ∧ c.isAlpha ∧ ∀ d ∈ cs, isAsciiNameChar d := by
  obtain ⟨t, ht⟩ := w
  cases t with
  | nil => simp [Text.isAsciiWord] at ht
  | cons c cs =>
    rw [Text.isAsciiWord, Bool.and_eq_true, List.all_eq_true] at ht
    exact ⟨c, cs, rfl, ht⟩

theorem Word.isAsciiNameChar (w : Word) : ∀ c ∈ w.text, isAsciiNameChar c := by
  obtain ⟨c, cs, htext, hc, hcs⟩ := w.exists_cons
  rw [htext]
  intro d hd
  rcases List.mem_cons.mp hd with rfl | hd
  · exact isAsciiNameChar_of_isAlpha hc
  · exact hcs d hd

theorem kindOf_of_isAlpha {c : Char} (h : c.isAlpha) : Token.kindOf c = .name := by
  have hp := forall_of_isAsciiNameChar
    (p := fun c => !c.isAlpha || decide (Token.kindOf c = .name)) (by decide +kernel)
    (isAsciiNameChar_of_isAlpha h)
  simpa [h] using hp

/-- Every piece but a space starts with a character that is not white space and tells its kind. The
scan decides by this character. -/
theorem exists_head_of_ne_space {p : Piece} (h : p ≠ .space) :
    ∃ c cs, p.text = c :: cs ∧ isBlank c = false ∧ p.kind? = some (Token.kindOf c) := by
  cases p with
  | space => exact absurd rfl h
  | name w =>
    obtain ⟨c, cs, htext, hc, -⟩ := w.exists_cons
    exact ⟨c, cs, htext, isBlank_of_isAsciiNameChar (isAsciiNameChar_of_isAlpha hc),
      by rw [kindOf_of_isAlpha hc]; rfl⟩
  | number n =>
    obtain ⟨c, cs, htext⟩ := List.exists_cons_of_ne_nil n.ne_nil
    have hc := n.isDigits c (by rw [htext]; exact List.mem_cons_self)
    exact ⟨c, cs, htext, isBlank_of_isAsciiNameChar (isAsciiNameChar_of_isDigit hc),
      by rw [Token.kindOf_eq_number.mpr hc]; rfl⟩
  | sign s =>
    cases s with
    | assign | plus => exact ⟨_, _, rfl, by decide, by decide⟩
    | order o => cases o <;> exact ⟨_, _, rfl, by decide, by decide⟩
  | mark m =>
    cases m with
    | opener b | closer b => cases b <;> exact ⟨_, _, rfl, by decide, by decide⟩
    | comma | semicolon | colon => exact ⟨_, _, rfl, by decide, by decide⟩
  | literal size => exact ⟨_, _, rfl, by decide, rfl⟩

/-! ## 4. The tokens of pieces -/

namespace Token

/-- A number ends with its digits, as no point follows. -/
theorem numberTail_append {cs rest : Text} (hcs : ∀ c ∈ cs, c.isDigit)
    (hrest : StartsApart rest) : numberTail (cs ++ rest) = cs := by
  induction cs with
  | nil =>
    cases rest with
    | nil => rfl
    | cons c rest =>
      have hc := hrest c rfl
      -- a digit would be a character of names, and those do not stand apart
      have hdigit : isAsciiDigit c = false := by
        by_contra h
        have hname := isNameChar_of_isAsciiNameChar
          (isAsciiNameChar_of_isDigit (by simpa [isAsciiDigit] using h))
        rw [isNameChar_of_isApart hc] at hname
        exact Bool.false_ne_true hname
      have hpoint : c ≠ '.' := by
        rintro rfl
        exact absurd hc (by decide)
      simp [numberTail, hdigit, hpoint]
  | cons c cs ih =>
    have hc : isAsciiDigit c := hcs c List.mem_cons_self
    rw [List.cons_append, numberTail, hc, Bool.true_or, if_pos rfl,
      ih fun d hd => hcs d (List.mem_cons_of_mem _ hd)]

/-- A blanked literal ends at its own quote: there is no other and no backslash in it. -/
theorem stringTail_blanked (size : Nat) (rest : Text) :
    stringTail '"' false (List.replicate size ' ' ++ ['"'] ++ rest) =
      List.replicate size ' ' ++ ['"'] := by
  induction size with
  | zero => rfl
  | succ size ih =>
    rw [List.replicate_succ, List.cons_append, List.cons_append, stringTail, if_neg (by decide),
      if_neg (by decide), ih]

end Token

/-- What follows the first character of a piece is what the scan takes with it. Each kind of piece
has its own way to end. -/
theorem tail_piece {p : Piece} {c : Char} {cs rest : Text} (htext : p.text = c :: cs)
    {kind : Token.Kind} (hkind : p.kind? = some kind) (hrest : p.isBound → StartsApart rest) :
    Token.tail kind c (cs ++ rest) = cs := by
  cases p with
  | space => simp [Piece.kind?] at hkind
  | name w =>
    obtain rfl : Token.Kind.name = kind := by simpa [Piece.kind?] using hkind
    -- all of the word goes on with the name, and what is behind it does not
    refine Text.takeWhile_append ?_ fun d hd => isNameChar_of_isApart (hrest rfl d hd)
    intro d hd
    refine isNameChar_of_isAsciiNameChar (w.isAsciiNameChar d ?_)
    rw [show w.text = _ from htext]
    exact List.mem_cons_of_mem _ hd
  | number n =>
    obtain rfl : Token.Kind.number = kind := by simpa [Piece.kind?] using hkind
    refine Token.numberTail_append (fun d hd => n.isDigits d ?_) (hrest rfl)
    rw [show n.text = _ from htext]
    exact List.mem_cons_of_mem _ hd
  | sign s =>
    obtain rfl : Token.Kind.operator = kind := by simpa [Piece.kind?] using hkind
    refine Text.takeWhile_append ?_ fun d hd => isOperatorSign_of_isApart (hrest rfl d hd)
    have hsigns : s.text.all isOperatorSign := by
      cases s with
      | assign | plus => decide
      | order o => cases o <;> decide
    intro d hd
    refine List.all_eq_true.mp hsigns d ?_
    rw [show s.text = _ from htext]
    exact List.mem_cons_of_mem _ hd
  | mark m =>
    obtain rfl : m.kind = kind := by simpa [Piece.kind?] using hkind
    obtain ⟨rfl, rfl⟩ := List.cons.inj htext
    cases m <;> rfl
  | literal size =>
    obtain rfl : Token.Kind.string = kind := by simpa [Piece.kind?] using hkind
    obtain ⟨rfl, rfl⟩ := List.cons.inj htext
    exact Token.stringTail_blanked size rest

/-- What the scan makes of a piece: one token, or none of a space. -/
theorem scanFrom_piece {p : Piece} {rest : Text} (hrest : p.isBound → StartsApart rest)
    (offset : Nat) :
    Token.scanFrom offset (p.text ++ rest) =
      (p.kind?.map fun kind => ⟨kind, p.text, offset⟩).toList ++
        Token.scanFrom (offset + Text.byteSize p.text) rest := by
  by_cases hspace : p = .space
  · subst hspace
    exact Token.scanFrom_blank offset rest (by decide)
  · obtain ⟨c, cs, htext, hblank, hkind⟩ := exists_head_of_ne_space hspace
    have hscan := Token.scanFrom_append hblank (tail_piece htext hkind hrest) offset
    rw [htext, hkind, hscan]
    rfl

/-- **The tokens of separated pieces are the pieces**, one after the other. -/
theorem scanFrom_textOf {ps : List Piece} (h : Separated ps) (offset : Nat) :
    Token.scanFrom offset (textOf ps) = tokensOf offset ps := by
  induction ps generalizing offset with
  | nil => exact Token.scanFrom_nil offset
  | cons p ps ih =>
    rw [textOf_cons, scanFrom_piece (startsApart_of_separated h), ih h.tail, tokensOf]

/-! ## 5. Where a word can start -/

/-- A character that a word of the language can start with. -/
def startsWord (c : Char) : Bool :=
  c.isAlpha || c == '_'

/-- Only a word has characters that a word can start with. A digit goes on with a word but does not
start one. -/
theorem startsWord_of_mem_text {p : Piece} (hp : ∀ w, p ≠ .name w) {c : Char} (hc : c ∈ p.text) :
    startsWord c = false := by
  cases p with
  | name w => exact absurd rfl (hp w)
  | number n =>
    have hdigit := n.isDigits c hc
    -- the ten digits are tried
    have hall := forall_of_isAsciiNameChar (p := fun c => !c.isDigit || !startsWord c)
      (by decide +kernel) (isAsciiNameChar_of_isDigit hdigit)
    simpa [hdigit] using hall
  | space =>
    obtain rfl : c = ' ' := by simpa [Piece.text] using hc
    decide
  | sign s =>
    have hsign : s.text.all fun d => !startsWord d := by
      cases s with
      | assign | plus => decide
      | order o => cases o <;> decide
    simpa using List.all_eq_true.mp hsign c hc
  | mark m =>
    obtain rfl : c = m.char := by simpa [Piece.text] using hc
    cases m with
    | opener b | closer b => cases b <;> decide
    | comma | semicolon | colon => decide
  | literal size =>
    have hchar : c = '"' ∨ c = ' ' := by
      simp only [Piece.text, List.mem_cons, List.mem_append, List.mem_replicate,
        List.not_mem_nil, or_false] at hc
      tauto
    rcases hchar with rfl | rfl <;> decide

/-- **A word of the text starts with a word among the pieces.** The induction goes over the pieces
up to the one in which the cut falls. If it falls inside a word, that word has not ended. -/
theorem exists_name_of_split {ps : List Piece} {before u v : Text} (hsplit : textOf ps = u ++ v)
    (hends : Text.endsWord (u.reverse ++ before)) (hstarts : v.head?.any startsWord) :
    ∃ front w back, ps = front ++ .name w :: back ∧ v = w.text ++ textOf back := by
  induction ps generalizing u before with
  | nil =>
    obtain ⟨-, rfl⟩ := List.append_eq_nil_iff.mp hsplit.symm
    simp at hstarts
  | cons p ps ih =>
    rw [textOf_cons] at hsplit
    rcases List.append_eq_append_iff.mp hsplit with ⟨u', rfl, hv⟩ | ⟨m, hp, rfl⟩
    · -- the cut is behind the piece
      rw [List.reverse_append, List.append_assoc] at hends
      obtain ⟨front, w, back, rfl, rfl⟩ := ih hv hends
      exact ⟨p :: front, w, back, rfl, rfl⟩
    · cases m with
      | nil =>
        -- the cut is at its end
        rw [List.append_nil] at hp
        rw [← hp] at hends
        obtain ⟨front, w, back, rfl, hback⟩ := ih (u := []) rfl hends
        exact ⟨p :: front, w, back, rfl, hback⟩
      | cons c m =>
        have hc : startsWord c := hstarts
        have hmem : c ∈ p.text := by rw [hp]; simp
        by_cases hname : ∃ w, p = .name w
        · obtain ⟨w, rfl⟩ := hname
          rcases List.eq_nil_or_concat u with rfl | ⟨u, d, rfl⟩
          · exact ⟨[], w, ps, rfl, by rw [show w.text = _ from hp]; rfl⟩
          · -- inside a word no word starts
            have hd : isWordChar d := isWordChar_of_isAsciiNameChar
              (w.isAsciiNameChar d (by rw [show w.text = _ from hp]; simp))
            simp [Text.endsWord, hd] at hends
        · have hnot := startsWord_of_mem_text (fun w hw => hname ⟨w, hw⟩) hmem
          rw [hc] at hnot
          contradiction

/-- The same in a line that is indented. No word starts in the indentation. -/
theorem exists_name_of_indented {indent : Text} (hindent : ∀ c ∈ indent, startsWord c = false)
    {ps : List Piece} {u v : Text} (hsplit : indent ++ textOf ps = u ++ v)
    (hends : Text.endsWord u.reverse) (hstarts : v.head?.any startsWord) :
    ∃ front w back, ps = front ++ .name w :: back ∧ v = w.text ++ textOf back := by
  rcases List.append_eq_append_iff.mp hsplit with ⟨u', rfl, hv⟩ | ⟨m, rfl, rfl⟩
  · rw [List.reverse_append] at hends
    exact exists_name_of_split hv hends hstarts
  · cases m with
    | nil => exact exists_name_of_split (u := []) rfl (by simpa using hends) hstarts
    | cons c m =>
      have hnot := hindent c (by simp)
      have hc : startsWord c := hstarts
      rw [hc] at hnot
      contradiction

/-! ## 6. Whole words -/

/-- A whole word stands where a word has ended before it, and ends one itself. -/
theorem exists_split_of_mem_wholeWordsFrom {word before t : Text} {offset : Nat}
    {occurrence : WordOccurrence} (h : occurrence ∈ Text.wholeWordsFrom word before offset t) :
    ∃ u v, t = u ++ v ∧ Text.endsWord (u.reverse ++ before) ∧ v = word ++ occurrence.after ∧
      Text.endsWord occurrence.after := by
  induction t generalizing before offset with
  | nil => simp [Text.wholeWordsFrom] at h
  | cons c cs ih =>
    have hlater (h : occurrence ∈ Text.wholeWordsFrom word (c :: before) (offset + c.utf8Size) cs) :
        ∃ u v, c :: cs = u ++ v ∧ Text.endsWord (u.reverse ++ before) ∧
          v = word ++ occurrence.after ∧ Text.endsWord occurrence.after := by
      obtain ⟨u, v, rfl, hends, hv⟩ := ih h
      exact ⟨c :: u, v, rfl, by simpa using hends, hv⟩
    rw [Text.wholeWordsFrom] at h
    split at h
    · next hhere =>
      rcases List.mem_cons.mp h with rfl | h
      · simp only [Bool.and_eq_true, List.isPrefixOf_iff_prefix] at hhere
        obtain ⟨⟨hbefore, hword⟩, hafter⟩ := hhere
        exact ⟨[], c :: cs, rfl, hbefore, List.prefix_iff_eq_append.mp hword |>.symm, hafter⟩
      · exact hlater h
    · exact hlater h

theorem endsWord_of_startsApart {t : Text} (h : StartsApart t) : Text.endsWord t := by
  cases t with
  | nil => rfl
  | cons c cs => simp [Text.endsWord, isWordChar_of_isApart (h c rfl)]

/-- A word is as long as its characters go on. -/
theorem Word.takeWhile_append (w : Word) {rest : Text} (h : Text.endsWord rest) :
    (w.text ++ rest).takeWhile isWordChar = w.text := by
  refine Text.takeWhile_append
    (fun c hc => isWordChar_of_isAsciiNameChar (w.isAsciiNameChar c hc)) fun c hc => ?_
  simpa [Text.endsWord, Option.mem_def.mp hc] using h

/-- **The whole words of a line are words among its pieces**, and what comes after the one comes
after the other. -/
theorem exists_name_of_mem_wholeWords {indent : Text}
    (hindent : ∀ c ∈ indent, startsWord c = false) {ps : List Piece} (hps : Separated ps)
    {word : Word} {occurrence : WordOccurrence}
    (h : occurrence ∈ Text.wholeWords word.text (indent ++ textOf ps)) :
    ∃ front w back, ps = front ++ .name w :: back ∧ w.text = word.text ∧
      occurrence.after = textOf back := by
  obtain ⟨u, v, hsplit, hbefore, hword, hafter⟩ := exists_split_of_mem_wholeWordsFrom h
  rw [List.append_nil] at hbefore
  have hstarts : v.head?.any startsWord := by
    obtain ⟨c, cs, htext, hc, -⟩ := word.exists_cons
    rw [hword, htext]
    simp [startsWord, hc]
  obtain ⟨front, w, back, rfl, hv⟩ := exists_name_of_indented hindent hsplit hbefore hstarts
  -- both words are the run of word characters with which `v` starts
  have hback := endsWord_of_startsApart (startsApart_of_separated hps.of_append rfl)
  have hsame : w.text = word.text := by
    rw [← word.takeWhile_append hafter, ← hword, hv, w.takeWhile_append hback]
  refine ⟨front, w, back, rfl, hsame, ?_⟩
  rw [hv, hsame] at hword
  exact (List.append_cancel_left hword).symm

/-! ## 7. Operators and quotes -/

/-- No operator of a program holds one of another language. The operators are gone through pair by
pair. -/
theorem occurrences_of_sign (s : Sign) (operator : ForeignOperator) :
    Text.occurrences operator.spelling.toList s.text = [] := by
  cases s with
  | assign | plus => cases operator <;> decide
  | order o => cases o <;> cases operator <;> decide

/-- Every token comes from a piece. -/
theorem exists_piece_of_mem_tokensOf {offset : Nat} {ps : List Piece} {t : Token}
    (h : t ∈ tokensOf offset ps) : ∃ p ∈ ps, p.kind? = some t.kind ∧ p.text = t.text := by
  induction ps generalizing offset with
  | nil => simp [tokensOf] at h
  | cons p ps ih =>
    rw [tokensOf, List.mem_append] at h
    rcases h with h | h
    · rw [Option.mem_toList, Option.map_eq_some_iff] at h
      obtain ⟨kind, hkind, rfl⟩ := h
      exact ⟨p, List.mem_cons_self, hkind, rfl⟩
    · obtain ⟨q, hq, hpiece⟩ := ih h
      exact ⟨q, List.mem_cons_of_mem _ hq, hpiece⟩

theorem foreignOccurrences_tokensOf (offset : Nat) (ps : List Piece) (operator : ForeignOperator) :
    foreignOccurrences (tokensOf offset ps) operator = [] := by
  rw [foreignOccurrences, List.flatMap_eq_nil_iff]
  intro t ht
  obtain ⟨hmem, hkind⟩ := List.mem_filter.mp ht
  rw [decide_eq_true_eq] at hkind
  obtain ⟨p, -, hp, htext⟩ := exists_piece_of_mem_tokensOf hmem
  rw [hkind] at hp
  cases p with
  | sign s =>
    rw [← htext, show (Piece.sign s).text = s.text from rfl, occurrences_of_sign, List.map_nil]
  | mark m => cases m <;> simp [Piece.kind?, Mark.kind] at hp
  | space | name | number | literal => simp [Piece.kind?] at hp

/-- So nothing is found when these are looked for one after the other. -/
theorem foreignFindings_tokensOf (offset : Nat) (ps : List Piece)
    (operators : List ForeignOperator) :
    foreignFindings (tokensOf offset ps) [] operators = [] := by
  induction operators with
  | nil => rfl
  | cons operator operators ih =>
    simpa [foreignFindings, foreignFinding?, foreignOccurrences_tokensOf] using ih

/-- The literals of a program are in double quotes. -/
theorem find?_hasForeignQuotes_tokensOf (offset : Nat) (ps : List Piece) :
    (tokensOf offset ps).find? hasForeignQuotes = none := by
  rw [List.find?_eq_none]
  intro t ht
  obtain ⟨p, -, hp, htext⟩ := exists_piece_of_mem_tokensOf ht
  rw [hasForeignQuotes, ← htext]
  by_cases hkind : t.kind = .string
  · rw [hkind] at hp
    cases p with
    | literal size => simp [Piece.text]
    | mark m => cases m <;> simp [Piece.kind?, Mark.kind] at hp
    | space | name | number | sign => simp [Piece.kind?] at hp
  · simp [hkind]

end MacroScript
