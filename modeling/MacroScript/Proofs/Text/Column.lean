import MacroScript.Proofs.Text.Part
import Mathlib.Order.Bounds.Defs

/-!
# Columns and byte offsets

A place in a line is given to an editor as a column, in units of UTF-16, and found in the line by a
byte offset. The two conversions round to opposite sides. The column of an offset is that of the
longest front part that fits (`Text.isPrefix_takeBytes`), so an offset inside a character goes down
to its start; the offset of a column is that of the shortest front part that reaches it
(`Text.takeUnits_isPrefix_of_le`), so a column inside a character goes up to its end. **They undo
each other except where they round**: an offset comes back exactly if it is a boundary, and a column
exactly if it neither falls between the two units of a pair nor past the line
(`Text.columns_undo_offsets`).
-/
namespace MacroScript

namespace Text

/-! ## 1. Front parts that fit -/

/-- **What fits into the bytes is part of what is taken**: the characters are taken as long as they
fit, so the front part that is taken is the longest. -/
theorem isPrefix_takeBytes {u line : Text} {n : Nat} (h : u <+: line) (hle : byteSize u ≤ n) :
    u <+: takeBytes n line := by
  induction u generalizing line n with
  | nil => exact List.nil_prefix
  | cons c u ih =>
    obtain ⟨line, rfl, hrest⟩ := List.cons_prefix_iff.mp h
    rw [byteSize_cons] at hle
    rw [takeBytes, if_pos (by omega)]
    exact List.cons_prefix_cons.mpr ⟨rfl, ih hrest (by omega)⟩

theorem takeBytes_isPrefix (n : Nat) (line : Text) : takeBytes n line <+: line :=
  ⟨dropBytes n line, takeBytes_append_dropBytes n line⟩

/-- A front part has no more units than the text. -/
theorem utf16Length_le_of_isPrefix {u v : Text} (h : u <+: v) : utf16Length u ≤ utf16Length v := by
  obtain ⟨w, rfl⟩ := h
  rw [utf16Length_append]
  omega

theorem byteSize_le_of_isPrefix {u v : Text} (h : u <+: v) : byteSize u ≤ byteSize v := by
  obtain ⟨w, rfl⟩ := h
  rw [byteSize_append]
  omega

/-! ## 2. Front parts that reach a column -/

/-- What is taken reaches the column, if the text does. It may go one unit beyond, where the last
character has two. -/
theorem le_utf16Length_takeUnits {n : Nat} {t : Text} (h : n ≤ utf16Length t) :
    n ≤ utf16Length (takeUnits n t) := by
  induction t generalizing n with
  | nil =>
    rw [utf16Length_nil] at h
    omega
  | cons c t ih =>
    cases n with
    | zero => omega
    | succ n =>
      rw [utf16Length_cons] at h
      have hrest := ih (n := n + 1 - utf16Size c) (by omega)
      rw [takeUnits, utf16Length_cons]
      omega

/-- **What is taken is part of whatever reaches the column**, so it is the shortest front part that
does. -/
theorem takeUnits_isPrefix_of_le {n : Nat} {u t : Text} (h : u <+: t) (hle : n ≤ utf16Length u) :
    takeUnits n t <+: u := by
  induction u generalizing n t with
  | nil =>
    rw [utf16Length_nil] at hle
    obtain rfl : n = 0 := by omega
    have hnone : takeUnits 0 t = [] := by rw [takeUnits]
    exact hnone ▸ List.nil_prefix
  | cons c u ih =>
    obtain ⟨t, rfl, hrest⟩ := List.cons_prefix_iff.mp h
    cases n with
    | zero =>
      rw [takeUnits]
      exact List.nil_prefix
    | succ n =>
      rw [utf16Length_cons] at hle
      rw [takeUnits]
      exact List.cons_prefix_cons.mpr ⟨rfl, ih hrest (by omega)⟩

/-- A column at the end of a front part takes exactly that part. -/
theorem takeUnits_utf16Length_append (u v : Text) : takeUnits (utf16Length u) (u ++ v) = u := by
  induction u with
  | nil => simp [takeUnits]
  | cons c u ih =>
    have hpos := utf16Size_pos c
    obtain ⟨n, hn⟩ : ∃ n, utf16Length (c :: u) = n + 1 :=
      ⟨utf16Size c + utf16Length u - 1, by rw [utf16Length_cons]; omega⟩
    have hrest : n + 1 - utf16Size c = utf16Length u := by
      rw [← hn, utf16Length_cons]
      omega
    rw [hn, List.cons_append, takeUnits, hrest, ih]

/-- A column past the text takes all of it. -/
theorem takeUnits_of_le {n : Nat} {t : Text} (h : utf16Length t ≤ n) : takeUnits n t = t := by
  induction t generalizing n with
  | nil => cases n <;> rfl
  | cons c t ih =>
    have hpos := utf16Size_pos c
    rw [utf16Length_cons] at h
    obtain ⟨n, rfl⟩ : ∃ m, n = m + 1 := ⟨n - 1, by omega⟩
    rw [takeUnits, ih (by omega)]

/-! ## 3. Columns inside a pair -/

/-- The column falls between the two units of a character beyond the basic plane. Such a column is
the end of no front part. -/
def IsInsidePair (line : Text) (column : Nat) : Prop :=
  ∃ front c back, line = front ++ c :: back ∧ utf16Size c = 2 ∧ column = utf16Length front + 1

theorem utf16Size_eq (c : Char) : utf16Size c = 1 ∨ utf16Size c = 2 := by
  unfold utf16Size
  split
  · exact .inl rfl
  · exact .inr rfl

/-- **Every other column of the line is the end of a front part.** Characters have one or two units,
so the only columns that are passed over are those inside a pair. -/
theorem exists_utf16Length_eq {line : Text} {n : Nat} (hle : n ≤ utf16Length line)
    (hpair : ¬IsInsidePair line n) :
    ∃ front back, line = front ++ back ∧ utf16Length front = n := by
  induction line generalizing n with
  | nil =>
    rw [utf16Length_nil] at hle
    exact ⟨[], [], rfl, by rw [utf16Length_nil]; omega⟩
  | cons c line ih =>
    rw [utf16Length_cons] at hle
    by_cases hzero : n = 0
    · exact ⟨[], c :: line, rfl, hzero.symm⟩
    · -- the first character does not end behind the column, as this is not inside a pair
      have hfirst : utf16Size c ≤ n := by
        by_contra hlt
        rcases utf16Size_eq c with hone | htwo
        · omega
        · exact hpair ⟨[], c, line, rfl, htwo, by rw [utf16Length_nil]; omega⟩
      have hrest : ¬IsInsidePair line (n - utf16Size c) := by
        rintro ⟨front, d, back, rfl, htwo, heq⟩
        exact hpair ⟨c :: front, d, back, rfl, htwo, by rw [utf16Length_cons]; omega⟩
      obtain ⟨front, back, rfl, heq⟩ := ih (by omega) hrest
      exact ⟨c :: front, back, rfl, by rw [utf16Length_cons]; omega⟩

/-- The end of a front part is not inside a pair, since the pair's own character would have to be
cut. -/
theorem not_isInsidePair (front back : Text) :
    ¬IsInsidePair (front ++ back) (utf16Length front) := by
  rintro ⟨front', c, back', heq, htwo, hlength⟩
  rcases List.append_eq_append_iff.mp heq with ⟨m, rfl, -⟩ | ⟨m, rfl, hrest⟩
  · rw [utf16Length_append] at hlength
    omega
  · cases m with
    | nil =>
      rw [List.append_nil] at hlength
      omega
    | cons d m =>
      obtain ⟨rfl, -⟩ := List.cons.inj hrest
      rw [utf16Length_append, utf16Length_cons] at hlength
      omega

/-- **What is taken ends at the column**, unless this is inside a pair or past the text. -/
theorem utf16Length_takeUnits_eq_iff {n : Nat} {t : Text} :
    utf16Length (takeUnits n t) = n ↔ ¬IsInsidePair t n ∧ n ≤ utf16Length t := by
  constructor
  · intro heq
    have hprefix := takeUnits_isPrefix n t
    refine ⟨?_, heq ▸ utf16Length_le_of_isPrefix hprefix⟩
    obtain ⟨back, hback⟩ := hprefix
    have hnot := not_isInsidePair (takeUnits n t) back
    rwa [hback, heq] at hnot
  · rintro ⟨hpair, hle⟩
    obtain ⟨front, back, rfl, rfl⟩ := exists_utf16Length_eq hle hpair
    rw [takeUnits_utf16Length_append]

/-! ## 4. The conversions -/

section Conversions

variable {line : Text} (hline : utf16Length line < UInt32.size)

include hline

/-- The column of an offset does not wrap around on a line that is short enough. It is the length of
what fits, and that is no longer than the line. -/
theorem toNat_columnOf (n : Nat) :
    (columnOf line n).toNat = utf16Length (takeBytes n line) := by
  have hle : utf16Length (takeBytes n line) ≤ utf16Length line := by
    rw [← takeBytes_append_dropBytes n line, utf16Length_append, takeBytes_append_dropBytes]
    omega
  rw [columnOf, Nat.toUInt32_eq, UInt32.toNat_ofNat_of_lt' (Nat.lt_of_le_of_lt hle hline)]

/-- **A boundary comes back from its column**: the part up to it is what fits into the bytes, and
what the column takes. -/
theorem offsetOf_columnOf {n : Nat}
    (hn : isBoundary n line) : offsetOf line (columnOf line n) = n := by
  rw [offsetOf, toNat_columnOf hline]
  obtain ⟨u, v, rfl, rfl⟩ := isBoundary_iff.mp hn
  rw [takeBytes_byteSize_append, takeUnits_utf16Length_append]

/-- Columns are in the order of the boundaries, strictly, as between two boundaries there is at
least one character. -/
theorem columnOf_lt_columnOf {m n : Nat}
    (hm : isBoundary m line) (hn : isBoundary n line) (hlt : m < n) :
    columnOf line m < columnOf line n := by
  rw [UInt32.lt_iff_toNat_lt, toNat_columnOf hline, toNat_columnOf hline]
  obtain ⟨u, v, rfl, rfl⟩ := isBoundary_iff.mp hm
  obtain ⟨u', v', heq, rfl⟩ := isBoundary_iff.mp hn
  obtain ⟨w, rfl, rfl⟩ := exists_middle heq (Nat.le_of_lt hlt)
  rw [heq, takeBytes_byteSize_append, ← heq, takeBytes_byteSize_append, utf16Length_append]
  cases w with
  | nil => simp at hlt
  | cons c w =>
    have := utf16Size_pos c
    rw [utf16Length_cons]
    omega

/-- The column does not decrease with the offset, at a boundary or not. -/
theorem columnOf_le_columnOf {m n : Nat} (h : m ≤ n) : columnOf line m ≤ columnOf line n := by
  rw [UInt32.le_iff_toNat_le, toNat_columnOf hline, toNat_columnOf hline]
  have hfits := Nat.le_trans (byteSize_takeBytes_le m line) h
  exact utf16Length_le_of_isPrefix (isPrefix_takeBytes (takeBytes_isPrefix m line) hfits)

/-- A boundary reaches a column if the front part up to it does. -/
theorem le_columnOf_byteSize {front back : Text} (hfront : line = front ++ back) (c : UInt32) :
    c ≤ columnOf line (byteSize front) ↔ c.toNat ≤ utf16Length front := by
  rw [UInt32.le_iff_toNat_le, toNat_columnOf hline, hfront, takeBytes_byteSize_append]

/-- Some boundary reaches the column exactly if the end of the line does. -/
theorem exists_column_ge_iff (c : UInt32) :
    (∃ n, isBoundary n line ∧ c ≤ columnOf line n) ↔ c.toNat ≤ utf16Length line := by
  constructor
  · rintro ⟨n, hn, hle⟩
    obtain ⟨front, back, hfront, rfl⟩ := isBoundary_iff.mp hn
    rw [le_columnOf_byteSize hline hfront] at hle
    exact Nat.le_trans hle (utf16Length_le_of_isPrefix ⟨back, hfront.symm⟩)
  · intro hle
    exact ⟨byteSize line, isBoundary_byteSize line,
      (le_columnOf_byteSize hline (List.append_nil line).symm c).mpr hle⟩

/-- **The offset of a column is the first boundary that reaches it**, by the two facts about what is
taken: it reaches the column, and it is part of whatever does. -/
theorem isLeast_offsetOf {c : UInt32} (hc : c.toNat ≤ utf16Length line) :
    IsLeast {n | isBoundary n line ∧ c ≤ columnOf line n} (offsetOf line c) := by
  obtain ⟨back, hback⟩ := takeUnits_isPrefix c.toNat line
  refine ⟨⟨isBoundary_iff.mpr ⟨_, back, hback.symm, rfl⟩, ?_⟩, ?_⟩
  · exact (le_columnOf_byteSize hline hback.symm c).mpr (le_utf16Length_takeUnits hc)
  · rintro n ⟨hn, hle⟩
    obtain ⟨front, back, hfront, rfl⟩ := isBoundary_iff.mp hn
    rw [le_columnOf_byteSize hline hfront] at hle
    exact byteSize_le_of_isPrefix (takeUnits_isPrefix_of_le ⟨back, hfront.symm⟩ hle)

/-- A column comes back from its offset exactly if it is the end of a front part of the line. -/
theorem columnOf_offsetOf_eq_iff (c : UInt32) :
    columnOf line (offsetOf line c) = c ↔
      ¬IsInsidePair line c.toNat ∧ c.toNat ≤ utf16Length line := by
  obtain ⟨back, hback⟩ := takeUnits_isPrefix c.toNat line
  have htake := takeBytes_byteSize_append (takeUnits c.toNat line) back
  rw [hback] at htake
  rw [← UInt32.toNat_inj, toNat_columnOf hline, offsetOf, htake, utf16Length_takeUnits_eq_iff]

end Conversions

/-- **Columns and byte offsets of a line undo each other.** The column of an offset does not
decrease with it and is the length in UTF-16 of the longest front part of at most as many bytes. The
offset of a column is the first boundary whose column reaches it, and the end of the line if there
is none. So a boundary comes back from its column, and a column comes back from its offset unless it
falls inside a surrogate pair or past the end. -/
theorem columns_undo_offsets (line : Text) (hline : utf16Length line < UInt32.size) :
    (∀ m n, m ≤ n → columnOf line m ≤ columnOf line n) ∧
    (∀ n, ∃ front, front <+: line ∧ byteSize front ≤ n ∧
      (∀ u, u <+: line → byteSize u ≤ n → u <+: front) ∧
      (columnOf line n).toNat = utf16Length front) ∧
    (∀ c, ((∃ n, isBoundary n line ∧ c ≤ columnOf line n) →
        IsLeast {n | isBoundary n line ∧ c ≤ columnOf line n} (offsetOf line c)) ∧
      ((¬∃ n, isBoundary n line ∧ c ≤ columnOf line n) → offsetOf line c = byteSize line)) ∧
    (∀ n, isBoundary n line → offsetOf line (columnOf line n) = n) ∧
    ∀ c, columnOf line (offsetOf line c) = c ↔
      ¬IsInsidePair line c.toNat ∧ c.toNat ≤ utf16Length line := by
  refine ⟨fun m n => columnOf_le_columnOf hline, fun n => ?_, fun c => ⟨fun hreach => ?_,
    fun hpast => ?_⟩, fun n => offsetOf_columnOf hline, columnOf_offsetOf_eq_iff hline⟩
  · exact ⟨takeBytes n line, takeBytes_isPrefix n line, byteSize_takeBytes_le n line,
      fun u => isPrefix_takeBytes, toNat_columnOf hline n⟩
  · exact isLeast_offsetOf hline ((exists_column_ge_iff hline c).mp hreach)
  · rw [exists_column_ge_iff hline, Nat.not_le] at hpast
    rw [offsetOf, takeUnits_of_le (Nat.le_of_lt hpast)]

/-- Characters of one to four bytes, the last of which takes two units. -/
def wideningLine : Text :=
  "aé€😀".toList

/-- The face stands at the bytes from 6 to 10 and at the columns from 3 to 5. An offset inside it
goes down to its start, and the column inside it goes up to its end and does not come back. -/
theorem columns_of_wideningLine :
    utf16Length wideningLine < UInt32.size ∧ columnOf wideningLine 9 = 3 ∧
    (∀ n, isBoundary n wideningLine →
      offsetOf wideningLine (columnOf wideningLine n) = n) ∧
    IsLeast {n | isBoundary n wideningLine ∧ 4 ≤ columnOf wideningLine n}
      (offsetOf wideningLine 4) ∧
    offsetOf wideningLine 4 = 10 ∧ columnOf wideningLine (offsetOf wideningLine 3) = 3 ∧
    ¬(¬IsInsidePair wideningLine 4 ∧ 4 ≤ utf16Length wideningLine) := by
  have hline : utf16Length wideningLine < UInt32.size := by decide +kernel
  obtain ⟨-, -, hoffsets, hback, hcolumns⟩ := columns_undo_offsets wideningLine hline
  refine ⟨hline, by decide +kernel, hback,
    (hoffsets 4).1 ⟨10, by decide +kernel, by decide +kernel⟩, by decide +kernel, by decide +kernel,
    fun hnot => ?_⟩
  exact absurd ((hcolumns 4).mpr hnot) (by decide +kernel)

end Text

end MacroScript
