import MacroScript.Proofs.Line.Literal
import MacroScript.Proofs.Token.Name

/-!
# Chains

A *chain* is what can own a member: a name, a number, a string literal or a list in brackets, and
after it any number of members, calls and indexes. The texts in its brackets are free but for three
things: their brackets are well nested, the only quotes are those of whole string literals in double
quotes, and outside of these there is no `//`.

The scans that ask whether anything is offered at a place go forward and know about escaped
characters. For them **a chain is settled**: a scan that comes in outside of all literals leaves it
outside, and no part of it is taken for a comment (`IsChain.isSettled`).
-/
namespace MacroScript

/-! ## 1. Literals, texts in brackets, chains -/

/-- The two pairs of brackets that a chain can have. -/
inductive ChainBracket where
  | round
  | square
deriving DecidableEq, Repr

namespace ChainBracket

def opener : ChainBracket → Char
  | round => '('
  | square => '['

def closer : ChainBracket → Char
  | round => ')'
  | square => ']'

end ChainBracket

/-- Neither a quote nor one of the brackets of a chain. Curly brackets are free: no scan of an owner
counts them. -/
def isFreeChar (c : Char) : Bool :=
  !isQuote c && !(['(', ')', '[', ']'].contains c)

/-- A text with well-nested brackets in which quotes only stand around whole string literals, and
with no `//` outside of these. The last condition is told at each slash, so that the text can be
read from left to right. -/
inductive IsNested (escapes : Char → Bool) : Text → Prop
  | nil : IsNested escapes []
  | plain {c : Char} {cs : Text} (hc : isFreeChar c) (hslash : c = '/' → cs.head? ≠ some '/')
      (hcs : IsNested escapes cs) : IsNested escapes (c :: cs)
  | literal {body cs : Text} (hbody : IsLiteralBody escapes body) (hcs : IsNested escapes cs) :
      IsNested escapes ('"' :: (body ++ '"' :: cs))
  | group (b : ChainBracket) {inner cs : Text} (hinner : IsNested escapes inner)
      (hcs : IsNested escapes cs) : IsNested escapes (b.opener :: (inner ++ b.closer :: cs))

/-- A number: digits, or digits around a point. -/
inductive IsAsciiNumber : Text → Prop
  | whole {digits : Text} (hne : digits ≠ []) (hdigits : digits.all Char.isDigit) :
      IsAsciiNumber digits
  | decimal {digits fraction : Text} (hne : digits ≠ []) (hdigits : digits.all Char.isDigit)
      (hfraction : fraction ≠ []) (hfractions : fraction.all Char.isDigit) :
      IsAsciiNumber (digits ++ '.' :: fraction)

/-- A chain. Its literals escape such characters only. A name that is `var` is left out, since a
line that opens with it is a declaration. -/
inductive IsChain (escapes : Char → Bool) : Text → Prop
  | name {n : Text} (hn : n.isAsciiName) (hvar : n ≠ "var".toList) : IsChain escapes n
  | number {n : Text} (hn : IsAsciiNumber n) : IsChain escapes n
  | literal {body : Text} (hbody : IsLiteralBody escapes body) :
      IsChain escapes ('"' :: (body ++ ['"']))
  | list {inner : Text} (hinner : IsNested escapes inner) :
      IsChain escapes ('[' :: (inner ++ [']']))
  | member {t n : Text} (ht : IsChain escapes t) (hn : n.isAsciiName) :
      IsChain escapes (t ++ '.' :: n)
  | bracket {t : Text} (b : ChainBracket) {inner : Text} (ht : IsChain escapes t)
      (hinner : IsNested escapes inner) : IsChain escapes (t ++ b.opener :: (inner ++ [b.closer]))

section

variable {escapes escapes' : Char → Bool} (h : ∀ c, escapes c → escapes' c)

include h

/-- Literals that escape fewer characters are literals all the same. -/
theorem IsNested.mono {t : Text} (ht : IsNested escapes t) : IsNested escapes' t := by
  induction ht with
  | nil => exact .nil
  | plain hc hslash _ ih => exact .plain hc hslash ih
  | literal hbody _ ih => exact .literal (hbody.mono h) ih
  | group b _ _ ihinner ih => exact .group b ihinner ih

theorem IsChain.mono {t : Text} (ht : IsChain escapes t) : IsChain escapes' t := by
  induction ht with
  | name hn hvar => exact .name hn hvar
  | number hn => exact .number hn
  | literal hbody => exact .literal (hbody.mono h)
  | list hinner => exact .list (hinner.mono h)
  | member _ hn ih => exact .member ih hn
  | bracket b _ hinner ih => exact .bracket b ih (hinner.mono h)

end

/-! ## 2. Settled texts -/

/-- A scan that comes to the text outside of all literals leaves it outside, and all of the text is
code, whatever comes after it. A slash right after the text is ruled out, since it might make a
comment with a slash at its end. -/
structure IsSettled (t : Text) : Prop where
  quoting : Quoting.outside.past isQuote t = .outside
  code : ∀ rest : Text, rest.head? ≠ some '/' →
    Text.byteSize (codeFrom .outside (t ++ rest)) =
      Text.byteSize t + Text.byteSize (codeFrom .outside rest)

theorem isSettled_nil : IsSettled [] :=
  ⟨rfl, fun rest _ => by simp⟩

/-- A character that is no quote and begins no comment may stand before a settled text. -/
theorem isSettled_cons {c : Char} {cs : Text} (hquote : isQuote c = false)
    (hslash : c = '/' → cs.head? ≠ some '/') (hcs : IsSettled cs) : IsSettled (c :: cs) := by
  have hdouble : c ≠ '"' := by
    rintro rfl
    exact absurd hquote (by decide)
  refine ⟨?_, fun rest hrest => ?_⟩
  · rw [Quoting.past_cons, Quoting.next_of_not_opens hquote, hcs.quoting]
  · have hnext : ¬ (c = '/' ∧ (cs ++ rest).head? = some '/') := by
      rintro ⟨hc, hhead⟩
      cases cs with
      | nil => exact hrest hhead
      | cons d cs => exact hslash hc hhead
    rw [List.cons_append, codeFrom_cons hdouble hnext, Text.byteSize_cons, Text.byteSize_cons,
      hcs.code rest hrest]
    omega

/-- Settled texts follow each other, if no comment begins where they meet. -/
theorem IsSettled.append {t u : Text} (ht : IsSettled t) (hhead : u.head? ≠ some '/')
    (hu : IsSettled u) : IsSettled (t ++ u) := by
  refine ⟨?_, fun rest hrest => ?_⟩
  · rw [Quoting.past_append, ht.quoting, hu.quoting]
  · have hnext : (u ++ rest).head? ≠ some '/' := by
      cases u with
      | nil => exact hrest
      | cons c u => exact hhead
    rw [List.append_assoc, ht.code _ hnext, hu.code rest hrest, Text.byteSize_append]
    omega

/-- A text without quotes and slashes is settled, character by character. -/
theorem isSettled_of_all {t : Text} (h : ∀ c ∈ t, isQuote c = false ∧ c ≠ '/') : IsSettled t := by
  induction t with
  | nil => exact isSettled_nil
  | cons c cs ih =>
    obtain ⟨hquote, hslash⟩ := h c List.mem_cons_self
    exact isSettled_cons hquote (fun hc => absurd hc hslash)
      (ih fun d hd => h d (List.mem_cons_of_mem _ hd))

/-- A whole literal leads back outside, and its inside is blanked byte for byte, so that the sizes
agree. -/
theorem isSettled_literal_append {escapes : Char → Bool} {body cs : Text}
    (hbody : IsLiteralBody escapes body) (hcs : IsSettled cs) :
    IsSettled ('"' :: (body ++ '"' :: cs)) := by
  refine ⟨?_, fun rest hrest => ?_⟩
  · have hopen : Quoting.outside.next isQuote '"' = .inside '"' false := rfl
    have hclose : (Quoting.inside '"' false).next isQuote '"' = .outside := rfl
    rw [Quoting.past_cons, hopen, Quoting.past_append, hbody.quoting, Quoting.past_cons, hclose,
      hcs.quoting]
  · rw [List.cons_append, List.append_assoc, List.cons_append, codeFrom_literal hbody]
    simp only [Text.byteSize_cons, Text.byteSize_append, Text.byteSize_replicate_space,
      hcs.code rest hrest]
    omega

/-- Brackets are neither quotes nor slashes, so a group around a settled text is settled. -/
theorem isSettled_group (b : ChainBracket) {inner cs : Text} (hinner : IsSettled inner)
    (hcs : IsSettled cs) : IsSettled (b.opener :: (inner ++ b.closer :: cs)) := by
  have hopener : isQuote b.opener = false ∧ b.opener ≠ '/' := by cases b <;> decide
  have hcloser : isQuote b.closer = false ∧ b.closer ≠ '/' := by cases b <;> decide
  have hrest : IsSettled (b.closer :: cs) :=
    isSettled_cons hcloser.1 (fun h => absurd h hcloser.2) hcs
  have hhead : (b.closer :: cs).head? ≠ some '/' := by
    rw [List.head?_cons]
    exact fun h => hcloser.2 (Option.some.inj h)
  exact isSettled_cons hopener.1 (fun h => absurd h hopener.2) (hinner.append hhead hrest)

theorem isSettled_of_isAllBlank {indent : Text} (h : Text.isAllBlank indent) :
    IsSettled indent := by
  refine isSettled_of_all fun c hc => ?_
  have hblank := List.all_eq_true.mp h c hc
  refine ⟨isQuote_of_isBlank hblank, ?_⟩
  rintro rfl
  exact absurd hblank (by decide)

/-! ## 3. Names and numbers -/

/-- A character of a name or a number. The point is one of these, since a number may have it inside.
-/
def isAtomChar (c : Char) : Bool :=
  isAsciiNameChar c || c == '.'

theorem IsAsciiNumber.ne_nil {n : Text} (h : IsAsciiNumber n) : n ≠ [] := by
  cases h with
  | whole hne _ => exact hne
  | decimal => simp

theorem isAtomChar_of_isAsciiNumber {n : Text} (h : IsAsciiNumber n) : ∀ c ∈ n, isAtomChar c := by
  have hdigit {ds : Text} (hds : ds.all Char.isDigit) {c : Char} (hc : c ∈ ds) : isAtomChar c := by
    rw [isAtomChar, isAsciiNameChar_of_isDigit (List.all_eq_true.mp hds c hc), Bool.true_or]
  intro c hc
  cases h with
  | whole _ hdigits => exact hdigit hdigits hc
  | decimal _ hdigits _ hfraction =>
    rcases List.mem_append.mp hc with hc | hc
    · exact hdigit hdigits hc
    · rcases List.mem_cons.mp hc with rfl | hc
      · rfl
      · exact hdigit hfraction hc

/-- **No character of a name or a number means anything to a scan**: it is no quote, no slash, no
white space and no bracket. All 128 characters of ASCII are gone through at once. -/
theorem isAtomChar_facts {c : Char} (h : isAtomChar c) :
    isQuote c = false ∧ c ≠ '/' ∧ isBlank c = false ∧
      ¬ (c = ')' ∨ c = ']') ∧ ¬ (c = '(' ∨ c = '[') := by
  have hascii : isAscii c := by
    rw [isAtomChar, Bool.or_eq_true, beq_iff_eq] at h
    rcases h with h | rfl
    · exact isAscii_of_isAsciiNameChar h
    · rfl
  have hp := forall_of_isAscii (p := fun c => !isAtomChar c ||
    decide (isQuote c = false ∧ c ≠ '/' ∧ isBlank c = false ∧
      ¬ (c = ')' ∨ c = ']') ∧ ¬ (c = '(' ∨ c = '['))) (by decide +kernel) hascii
  simpa [h] using hp

theorem isSettled_of_isAtomChar {n : Text} (h : ∀ c ∈ n, isAtomChar c) : IsSettled n :=
  isSettled_of_all fun c hc => ⟨(isAtomChar_facts (h c hc)).1, (isAtomChar_facts (h c hc)).2.1⟩

theorem isAtomChar_of_isAsciiName {n : Text} (h : n.isAsciiName) : ∀ c ∈ n, isAtomChar c := by
  intro c hc
  rw [isAtomChar, isAsciiNameChar_of_isAsciiName h c hc, Bool.true_or]

/-! ## 4. Chains are settled -/

variable {escapes : Char → Bool} {t : Text}

/-- By induction over how the text is built, each case by the lemma for its construct. -/
theorem IsNested.isSettled (h : IsNested escapes t) : IsSettled t := by
  induction h with
  | nil => exact isSettled_nil
  | plain hc hslash _ ih =>
    rw [isFreeChar, Bool.and_eq_true, Bool.not_eq_true'] at hc
    exact isSettled_cons hc.1 hslash ih
  | literal hbody _ ih => exact isSettled_literal_append hbody ih
  | group b _ _ ihinner ih => exact isSettled_group b ihinner ih

/-- **A chain is settled.** Each link is, and no link starts with a slash. -/
theorem IsChain.isSettled (h : IsChain escapes t) : IsSettled t := by
  induction h with
  | name hn _ => exact isSettled_of_isAtomChar (isAtomChar_of_isAsciiName hn)
  | number hn => exact isSettled_of_isAtomChar (isAtomChar_of_isAsciiNumber hn)
  | literal hbody => exact isSettled_literal_append hbody isSettled_nil
  | list hinner => exact isSettled_group .square hinner.isSettled isSettled_nil
  | member _ hn ih =>
    refine ih.append (by simp) (isSettled_cons rfl (by simp) ?_)
    exact isSettled_of_isAtomChar (isAtomChar_of_isAsciiName hn)
  | bracket b _ hinner ih =>
    have hhead : b.opener ≠ '/' := by cases b <;> decide
    refine ih.append ?_ (isSettled_group b hinner.isSettled isSettled_nil)
    rw [List.head?_cons]
    exact fun h => hhead (Option.some.inj h)

/-- A chain starts with a character that is neither white space nor a slash, so that it can follow a
settled text. -/
theorem IsChain.exists_head (h : IsChain escapes t) :
    ∃ c cs, t = c :: cs ∧ isBlank c = false ∧ c ≠ '/' := by
  have hatoms {n : Text} (hne : n ≠ []) (hn : ∀ c ∈ n, isAtomChar c) :
      ∃ c cs, n = c :: cs ∧ isBlank c = false ∧ c ≠ '/' := by
    obtain ⟨c, cs, rfl⟩ := List.exists_cons_of_ne_nil hne
    have hc := isAtomChar_facts (hn c List.mem_cons_self)
    exact ⟨c, cs, rfl, hc.2.2.1, hc.2.1⟩
  -- a chain grows at its end, so its head is that of the link it starts with
  induction h with
  | name hn _ => exact hatoms (ne_nil_of_isAsciiName hn) (isAtomChar_of_isAsciiName hn)
  | number hn => exact hatoms hn.ne_nil (isAtomChar_of_isAsciiNumber hn)
  | literal _ => exact ⟨'"', _, rfl, by decide, by decide⟩
  | list _ => exact ⟨'[', _, rfl, by decide, by decide⟩
  | member _ _ ih | bracket _ _ _ ih =>
    obtain ⟨c, cs, rfl, hc⟩ := ih
    exact ⟨c, _, rfl, hc⟩

/-- A chain ends with a character that is not white space, which is where the search for an owner
sets out. -/
theorem IsChain.exists_last (h : IsChain escapes t) :
    ∃ cs c, t = cs ++ [c] ∧ isBlank c = false := by
  have hatoms {n : Text} (hne : n ≠ []) (hn : ∀ c ∈ n, isAtomChar c) :
      ∃ cs c, n = cs ++ [c] ∧ isBlank c = false := by
    refine ⟨n.dropLast, n.getLast hne, (List.dropLast_append_getLast hne).symm, ?_⟩
    exact (isAtomChar_facts (hn _ (List.getLast_mem hne))).2.2.1
  cases h with
  | name hn _ => exact hatoms (ne_nil_of_isAsciiName hn) (isAtomChar_of_isAsciiName hn)
  | number hn => exact hatoms hn.ne_nil (isAtomChar_of_isAsciiNumber hn)
  | @literal body _ => exact ⟨'"' :: body, '"', rfl, by decide⟩
  | @list inner _ => exact ⟨'[' :: inner, ']', rfl, by decide⟩
  | @member u n _ hn =>
    obtain ⟨cs, c, rfl, hc⟩ := hatoms (ne_nil_of_isAsciiName hn) (isAtomChar_of_isAsciiName hn)
    exact ⟨u ++ '.' :: cs, c, by simp, hc⟩
  | @bracket u b inner _ _ =>
    exact ⟨u ++ b.opener :: inner, b.closer, by simp, by cases b <;> decide⟩

/-- What starts with a name does not open with another word, unless the word goes on after it. -/
theorem opensWithWord_of_name {word n rest : Text} (hn : n.isAsciiName) (hne : n ≠ word)
    (hrest : ∀ c ∈ rest.head?, c ∉ word) : Text.opensWithWord word (n ++ rest) = false := by
  rw [← Bool.not_eq_true]
  intro hopens
  obtain ⟨after, hdrop, hafter⟩ := (Option.any_eq_true _ _).mp hopens
  have hword := Text.eq_append_of_dropWord? hdrop
  rcases List.append_eq_append_iff.mp hword with ⟨more, hmore, htail⟩ | ⟨more, hmore, htail⟩
  · -- the word goes beyond the name, into what follows it
    cases more with
    | nil => exact hne (by simpa using hmore.symm)
    | cons d more =>
      refine hrest d (by rw [htail]; rfl) ?_
      rw [hmore]
      simp
  · -- the name goes on where the word ends, so the word is not whole
    cases more with
    | nil => exact hne (by simpa using hmore)
    | cons d more =>
      have hd : isAsciiNameChar d :=
        isAsciiNameChar_of_isAsciiName hn d (by rw [hmore]; simp)
      rw [htail] at hafter
      simp [isLetterOrNumeral_of_isAsciiNameChar hd] at hafter

/-- **A chain does not open with `var`**, whichever way it goes on. The induction is on the chain,
with the character behind it left open, since that is what a link adds. -/
theorem IsChain.opensWithWord_var (h : IsChain escapes t) {c : Char}
    (hc : c = '.' ∨ c = '(' ∨ c = '[') (cs : Text) :
    Text.opensWithWord "var".toList (t ++ c :: cs) = false := by
  -- of all links only a name can start with the letter
  have hfirst {d : Char} (hd : d ≠ 'v') (ds : Text) :
      Text.opensWithWord "var".toList (d :: ds) = false := by
    simp [Text.opensWithWord, Text.dropWord?, Ne.symm hd]
  induction h generalizing c cs with
  | name hn hvar =>
    refine opensWithWord_of_name hn hvar ?_
    rintro d ⟨⟩
    rcases hc with rfl | rfl | rfl <;> decide
  | @number n hn =>
    have hdigit {digits : Text} (hne : digits ≠ []) (hdigits : digits.all Char.isDigit)
        (more : Text) : Text.opensWithWord "var".toList (digits ++ more) = false := by
      obtain ⟨d, ds, rfl⟩ := List.exists_cons_of_ne_nil hne
      refine hfirst ?_ _
      rintro rfl
      exact absurd (List.all_eq_true.mp hdigits 'v' List.mem_cons_self) (by decide)
    cases hn with
    | whole hne hdigits => exact hdigit hne hdigits _
    | decimal hne hdigits _ _ =>
      rw [List.append_assoc]
      exact hdigit hne hdigits _
  | literal _ => exact hfirst (by decide) _
  | list _ => exact hfirst (by decide) _
  | member _ _ ih =>
    rw [List.append_assoc]
    exact ih (.inl rfl) _
  | bracket b _ _ ih =>
    rw [List.append_assoc]
    exact ih (by cases b <;> decide) _

end MacroScript
