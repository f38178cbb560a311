import MacroScript.Proofs.Token.Ascii
import MacroScript.Proofs.Token.Span

/-!
# Names

A name is one token, and a text that is a name has nothing in it that any scan would stop at: no
white space, no sign, no bracket and no point. So it is trimmed as it stands, and **the reader of
tokens takes it whole wherever a character follows that cannot continue it**
(`Token.scanFrom_name`). The names in ASCII are those that the rules accept.
-/
namespace MacroScript

open Text

/-! ## 1. Texts that are names -/

/-- The text is a name: a character that starts one, and others that continue it. -/
def Text.isName : Text → Bool
  | [] => false
  | c :: cs => Token.kindOf c = .name && cs.all isNameChar

namespace Text

theorem isName_iff {t : Text} :
    t.isName ↔ ∃ c cs, t = c :: cs ∧ Token.kindOf c = .name ∧ ∀ d ∈ cs, isNameChar d := by
  cases t <;> simp [isName]

/-- All characters of a name belong to the class of names, the first one too. -/
theorem isNameChar_of_isName {t : Text} (h : t.isName) : ∀ c ∈ t, isNameChar c := by
  obtain ⟨c, cs, rfl, hc, hcs⟩ := isName_iff.mp h
  intro d hd
  rcases List.mem_cons.mp hd with rfl | hd
  · exact isNameChar_of_kindOf hc
  · exact hcs d hd

/-- A name holds no white space, since white space continues no name. -/
theorem not_isBlank_of_isName {t : Text} (h : t.isName) : ∀ c ∈ t, isBlank c = false := by
  intro c hc
  by_contra hblank
  have hnot := isNameChar_of_isBlank (Bool.not_eq_false _ ▸ hblank)
  rw [isNameChar_of_isName h c hc] at hnot
  contradiction

/-- A name is trimmed as it stands, so that trimming the text around it gives it back. -/
theorem isTrimmed_of_isName {t : Text} (h : t.isName) : t.isTrimmed := by
  refine isTrimmed_of_forall ?_ (not_isBlank_of_isName h)
  rintro rfl
  contradiction

/-- A character that is no part of names is not in a name: no sign, no bracket and no quote. -/
theorem not_mem_of_isName {t : Text} (h : t.isName) {c : Char} (hc : isNameChar c = false) :
    c ∉ t := by
  intro hmem
  rw [isNameChar_of_isName h c hmem] at hc
  contradiction

end Text

/-! ## 2. Names in ASCII -/

/-- A name in ASCII: a letter or an underscore, and then these or digits. -/
def Text.isAsciiName : Text → Bool
  | [] => false
  | c :: cs => (c.isAlpha || c == '_') && cs.all isAsciiNameChar

/-- All characters of a name in ASCII belong to the class of such names. -/
theorem isAsciiNameChar_of_isAsciiName {n : Text} (h : n.isAsciiName) :
    ∀ c ∈ n, isAsciiNameChar c := by
  cases n with
  | nil => simp
  | cons c cs =>
    rw [Text.isAsciiName, Bool.and_eq_true, List.all_eq_true] at h
    intro d hd
    rcases List.mem_cons.mp hd with rfl | hd
    · have hfirst := h.1
      rw [Bool.or_eq_true] at hfirst
      rcases hfirst with halpha | hscore
      · exact isAsciiNameChar_of_isAlpha halpha
      · simp [isAsciiNameChar, hscore]
    · exact h.2 d hd

theorem ne_nil_of_isAsciiName {n : Text} (h : n.isAsciiName) : n ≠ [] := by
  rintro rfl
  simp [Text.isAsciiName] at h

/-! ## 3. Names as tokens -/

/-- What starts with white space, or right away with a given character, starts with neither kind of
character if white space and that character are not of it. This is how a name or a sign is known to
end where it does. -/
theorem not_of_isAllBlank_append {p : Char → Bool} (hp : ∀ c, isBlank c → p c = false)
    {blanks : Text} (hblanks : isAllBlank blanks) {c : Char} (hc : p c = false) (rest : Text) :
    ∀ d ∈ (blanks ++ c :: rest).head?, p d = false := by
  intro d hd
  cases blanks with
  | nil =>
    obtain rfl : c = d := by simpa using hd
    exact hc
  | cons b bs =>
    obtain rfl : b = d := by simpa using hd
    exact hp b (List.all_eq_true.mp hblanks b List.mem_cons_self)

namespace Token

/-- **A name is taken whole** where a character follows that cannot continue it, and the rest is
read from its end. -/
theorem scanFrom_name {x rest : Text} (hx : x.isName)
    (hrest : ∀ c ∈ rest.head?, isNameChar c = false) (offset : Nat) :
    scanFrom offset (x ++ rest) = ⟨.name, x, offset⟩ :: scanFrom (offset + byteSize x) rest := by
  obtain ⟨c, cs, rfl, hkind, hcs⟩ := isName_iff.mp hx
  have htail : tail (kindOf c) c (cs ++ rest) = cs := by
    rw [hkind]
    exact Text.takeWhile_append hcs hrest
  have hscan := scanFrom_append (not_isBlank_of_isName hx c List.mem_cons_self) htail offset
  rwa [hkind] at hscan

/-- An equals sign is a token of its own if no sign of an operator follows it. -/
theorem scanFrom_equals {rest : Text} (hrest : ∀ c ∈ rest.head?, isOperatorSign c = false)
    (offset : Nat) :
    scanFrom offset ('=' :: rest) = ⟨.operator, ['='], offset⟩ :: scanFrom (offset + 1) rest :=
  @scanFrom_append '=' [] rest (by decide) (@Text.takeWhile_append _ [] rest (by simp) hrest) offset

/-- A semicolon is a token of its own, whatever follows. -/
theorem scanFrom_semicolon (rest : Text) (offset : Nat) :
    scanFrom offset (';' :: rest) = ⟨.semicolon, [';'], offset⟩ :: scanFrom (offset + 1) rest :=
  @scanFrom_append ';' [] rest (by decide) rfl offset

end Token

/-- White space and names leave the depth of brackets alone. -/
theorem bracketStep_of_isBlank_or_isNameChar {c : Char} (h : isBlank c ∨ isNameChar c) :
    bracketStep c = 0 := by
  unfold bracketStep
  split
  · next hopener =>
    simp only [Bool.or_eq_true, decide_eq_true_eq] at hopener
    rcases hopener with (rfl | rfl) | rfl <;> exact absurd h (by decide)
  · split
    · next hcloser =>
      simp only [Bool.or_eq_true, decide_eq_true_eq] at hcloser
      rcases hcloser with (rfl | rfl) | rfl <;> exact absurd h (by decide)
    · rfl

end MacroScript
