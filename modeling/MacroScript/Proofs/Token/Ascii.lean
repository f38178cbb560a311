import MacroScript.Text.Word
import MacroScript.Token.Basic
import Mathlib.Data.List.Basic

/-!
# ASCII characters and the classes of the analysis

The classes of characters are given by their ASCII part and by tables for what lies beyond. A fact
about all ASCII characters is settled by going through the 128 of them (`forall_of_isAscii`), and
one about the characters of a table by going through its intervals (`forall_of_inRanges`). This is
enough to tell the classes apart: **a character of an ASCII name belongs to every class of names and
words, and white space belongs to none of them.**
-/
namespace MacroScript

/-- A property of all 128 ASCII characters, to be settled by evaluation. The property is decidable,
so that a single `decide` goes through them. -/
theorem forall_of_isAscii {p : Char → Bool}
    (h : ∀ n ∈ List.range 128, p (Char.ofNat n)) {c : Char} (hc : isAscii c) : p c := by
  have hlt : c.toNat < 128 := by simpa [isAscii] using hc
  have hp := h c.toNat (List.mem_range.mpr hlt)
  rwa [Char.ofNat_toNat] at hp

/-- A property of all characters of a table, to be settled by going through its intervals. This is
feasible for the table of white space, which is short. -/
theorem forall_of_inRanges {table : List (Nat × Nat)} {p : Char → Bool}
    (h : ∀ range ∈ table, ∀ n ∈ List.range' range.1 (range.2 + 1 - range.1), p (Char.ofNat n))
    {c : Char} (hc : inRanges table c) : p c := by
  obtain ⟨range, hrange, hbounds⟩ := List.any_eq_true.mp hc
  rw [Bool.and_eq_true, decide_eq_true_eq, decide_eq_true_eq] at hbounds
  have hp := h range hrange c.toNat (List.mem_range'_1.mpr (by omega))
  rwa [Char.ofNat_toNat] at hp

/-! ## 1. Characters of ASCII names -/

theorem isAsciiNameChar_of_isAlpha {c : Char} (h : c.isAlpha) : isAsciiNameChar c := by
  simp [isAsciiNameChar, Char.isAlphanum, h]

theorem isAsciiNameChar_of_isDigit {c : Char} (h : c.isDigit) : isAsciiNameChar c := by
  simp [isAsciiNameChar, Char.isAlphanum, h]

/-- The characters of ASCII names are ASCII, as the name says: letters and digits by their code
points, and the underscore. -/
theorem isAscii_of_isAsciiNameChar {c : Char} (h : isAsciiNameChar c) : isAscii c := by
  rw [isAsciiNameChar, Bool.or_eq_true, beq_iff_eq] at h
  rcases h with h | rfl
  · delta Char.isAlphanum Char.isAlpha Char.isUpper Char.isLower Char.isDigit at h
    simp only [Bool.or_eq_true, Bool.and_eq_true, decide_eq_true_eq, UInt32.le_iff_toNat_le,
      ge_iff_le] at h
    have hval : c.val.toNat = c.toNat := rfl
    simp only [isAscii, decide_eq_true_eq]
    rcases h with (⟨-, h⟩ | ⟨-, h⟩) | ⟨-, h⟩
    all_goals
      refine Nat.lt_of_le_of_lt h ?_
      decide
  · rfl

/-- A character of ASCII names belongs to every word. -/
theorem isWordChar_of_isAsciiNameChar {c : Char} (h : isAsciiNameChar c) : isWordChar c := by
  rw [isWordChar, if_pos (isAscii_of_isAsciiNameChar h)]
  exact h

/-- What holds of the 63 characters of ASCII names. The pass goes over all ASCII characters and
skips the others. -/
theorem forall_of_isAsciiNameChar {p : Char → Bool}
    (h : ∀ n ∈ List.range 128, !isAsciiNameChar (Char.ofNat n) || p (Char.ofNat n)) {c : Char}
    (hc : isAsciiNameChar c) : p c := by
  have hp := forall_of_isAscii (p := fun c => !isAsciiNameChar c || p c) h
    (isAscii_of_isAsciiNameChar hc)
  simpa [hc] using hp

/-- The classes of a character of ASCII names, from one pass over the 128 ASCII characters. The
lemmas below take the single facts out of it. -/
theorem classes_of_isAsciiNameChar {c : Char} (h : isAsciiNameChar c) :
    (isLetterOrNumeral c || c == '_') ∧ isNameChar c ∧ isBlank c = false ∧
      isOperatorSign c = false ∧ (Token.kindOf c = .name ∨ Token.kindOf c = .number) := by
  have hclasses := forall_of_isAsciiNameChar
    (p := fun c => (isLetterOrNumeral c || c == '_') && isNameChar c && !isBlank c &&
      !isOperatorSign c && (Token.kindOf c = .name || Token.kindOf c = .number))
    (by decide +kernel) h
  simpa [and_assoc] using hclasses

theorem isLetterOrNumeral_of_isAsciiNameChar {c : Char} (h : isAsciiNameChar c) :
    isLetterOrNumeral c || c == '_' :=
  (classes_of_isAsciiNameChar h).1

theorem isNameChar_of_isAsciiNameChar {c : Char} (h : isAsciiNameChar c) : isNameChar c :=
  (classes_of_isAsciiNameChar h).2.1

theorem isBlank_of_isAsciiNameChar {c : Char} (h : isAsciiNameChar c) : isBlank c = false :=
  (classes_of_isAsciiNameChar h).2.2.1

theorem isOperatorSign_of_isAsciiNameChar {c : Char} (h : isAsciiNameChar c) :
    isOperatorSign c = false :=
  (classes_of_isAsciiNameChar h).2.2.2.1

/-- A character of ASCII names starts a name or a number. -/
theorem kindOf_of_isAsciiNameChar {c : Char} (h : isAsciiNameChar c) :
    Token.kindOf c = .name ∨ Token.kindOf c = .number :=
  (classes_of_isAsciiNameChar h).2.2.2.2

/-- A class of characters that has none of the quotes. There are three quotes, so that a class is
checked by asking it about these. -/
theorem isQuote_of_class {p : Char → Bool} (hp : !p '"' && !p '\'' && !p '`') {c : Char}
    (h : p c) : isQuote c = false := by
  simp only [Bool.and_eq_true, Bool.not_eq_true'] at hp
  rw [← Bool.not_eq_true]
  intro hquote
  simp only [isQuote, Bool.or_eq_true, beq_iff_eq] at hquote
  rcases hquote with (rfl | rfl) | rfl <;> simp_all

theorem isQuote_of_isNameChar {c : Char} (h : isNameChar c) : isQuote c = false :=
  isQuote_of_class (by decide) h

/-- The signs of operators are finitely many, and none of them continues a name. -/
theorem isOperatorSign_of_isNameChar {c : Char} (h : isNameChar c) : isOperatorSign c = false := by
  rw [← Bool.not_eq_true]
  intro hsign
  simp only [isOperatorSign, List.contains_iff_mem, List.mem_cons, List.not_mem_nil,
    or_false] at hsign
  rcases hsign with rfl | rfl | rfl | rfl | rfl | rfl | rfl | rfl | rfl | rfl | rfl | rfl | rfl |
    rfl <;> exact absurd h (by decide)

/-- What starts a name can also continue one, so that a name is made of characters of one class. -/
theorem isNameChar_of_kindOf {c : Char} (h : Token.kindOf c = .name) : isNameChar c := by
  unfold Token.kindOf at h
  split at h
  · simp at h
  · split at h
    · simp at h
    · split at h
      · next hstart =>
        simp only [isNameStart, Bool.or_eq_true] at hstart
        simp only [isNameChar, isLetterOrNumeral, Bool.or_eq_true]
        tauto
      · split at h
        · simp at h
        · unfold Token.punctuation at h
          split at h <;> simp at h

/-! ## 2. White space -/

theorem isQuote_of_isBlank {c : Char} (h : isBlank c) : isQuote c = false :=
  isQuote_of_class (by decide) h

/-- What holds of all white space: of the ASCII part, checked there, and of the rest of the table.
-/
theorem forall_of_isBlank {p : Char → Bool}
    (hascii : ∀ n ∈ List.range 128, !isBlank (Char.ofNat n) || p (Char.ofNat n))
    (hbeyond : ∀ range ∈ blankRanges, ∀ n ∈ List.range' range.1 (range.2 + 1 - range.1),
      p (Char.ofNat n)) {c : Char} (hc : isBlank c) : p c := by
  by_cases h : isAscii c
  · have hp := forall_of_isAscii (p := fun c => !isBlank c || p c) hascii h
    simpa [hc] using hp
  · rw [isBlank, if_neg h] at hc
    exact forall_of_inRanges hbeyond hc

/-- White space belongs to no class of the language, from one pass over the table. So it ends every
token that is not a literal. -/
theorem classes_of_isBlank {c : Char} (h : isBlank c) :
    isNameChar c = false ∧ isWordChar c = false ∧ isOperatorSign c = false := by
  have hclasses := forall_of_isBlank
    (p := fun c => !isNameChar c && !isWordChar c && !isOperatorSign c)
    (by decide +kernel) (by decide +kernel) h
  simpa [and_assoc] using hclasses

theorem isNameChar_of_isBlank {c : Char} (h : isBlank c) : isNameChar c = false :=
  (classes_of_isBlank h).1

theorem isWordChar_of_isBlank {c : Char} (h : isBlank c) : isWordChar c = false :=
  (classes_of_isBlank h).2.1

theorem isOperatorSign_of_isBlank {c : Char} (h : isBlank c) : isOperatorSign c = false :=
  (classes_of_isBlank h).2.2

end MacroScript
