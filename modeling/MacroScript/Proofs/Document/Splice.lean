import MacroScript.Proofs.Document.Place

/-!
# Edits splice exactly

An editor names a place of a document by its line and by the UTF-16 units in front of it on that
line. The index of such a position is the place again (`Text.indexOf_of_marks`), unless the place
lies inside a line break of two characters, which no position reaches. A position need not name a
place: it can be past the end of its line or of the document, or inside a character. Then, too, its
index is one of the document, and **indices are in the order of the positions**
(`Text.indexAt_mono`). So an edit replaces what stands between the two places that its range names,
in whichever order it names them, and nothing else (`edits_splice_exactly`).
-/
namespace MacroScript

namespace Text

/-! ## 1. The position of a place -/

/-- The number of the line that the index `k` falls into, counted over all lines together. The index
behind the last line belongs to that line, so that the end of a document has a position. -/
def lineHolding : List Text → Nat → Nat
  | line :: next :: lines, k =>
    if k < line.length then 0 else lineHolding (next :: lines) (k - line.length) + 1
  | _, _ => 0

/-- The number of the line in which the index `k` lies. -/
def lineOf (t : Text) (k : Nat) : Nat :=
  lineHolding t.editLines k

/-- The index at which line `n` starts. -/
def startOfLine (t : Text) (n : Nat) : Nat :=
  (t.editLines.take n).flatten.length

/-- The UTF-16 units between the start of its line and the index `k`. -/
def unitsBefore (t : Text) (k : Nat) : Nat :=
  utf16Length ((t.take k).drop (t.startOfLine (t.lineOf k)))

/-- The index `k` lies between the carriage return and the line feed of one line break. No position
comes back to such an index, since an edit stops in front of the carriage return. -/
def splitsBreak (t : Text) (k : Nat) : Bool :=
  (t.take k).getLast? = some '\r' && (t.drop k).head? = some '\n'

end Text

/-- The position names the index `k` of the text. An index whose line or units do not fit into a
32-bit word has no position. -/
structure Position.Marks (t : Text) (k : Nat) (p : Position) : Prop where
  line : p.line.toNat = t.lineOf k
  character : p.character.toNat = t.unitsBefore k

namespace Text

/-- One more character in front starts a line of its own, or makes the first line longer. Proofs
about places go by induction on the text, for which this is the step. -/
theorem lineOf_cons_succ (c : Char) (cs : Text) (k : Nat) :
    lineOf (c :: cs) (k + 1) = if endsLine c cs then lineOf cs k + 1 else lineOf cs k := by
  obtain ⟨line, lines, hlines⟩ := List.exists_cons_of_ne_nil (editLines_ne_nil cs)
  unfold lineOf
  split
  · next hends =>
    rw [editLines_cons_of_endsLine hends, hlines, lineHolding]
    simp
  · next hends =>
    rw [editLines_cons_of_not_endsLine hends hlines, hlines]
    cases lines with
    | nil => rfl
    | cons next lines => simp [lineHolding]

theorem lineOf_zero (t : Text) : lineOf t 0 = 0 := by
  cases t with
  | nil => rfl
  | cons c cs =>
    obtain ⟨line, lines, hlines⟩ := List.exists_cons_of_ne_nil (editLines_ne_nil cs)
    unfold lineOf
    by_cases hends : endsLine c cs
    · rw [editLines_cons_of_endsLine hends, hlines, lineHolding, if_pos (by simp)]
    · rw [editLines_cons_of_not_endsLine hends hlines]
      cases lines with
      | nil => rfl
      | cons next lines => rw [lineHolding, if_pos (by simp)]

theorem startOfLine_zero (t : Text) : startOfLine t 0 = 0 := rfl

/-- The start of a later line moves by one with a character in front, and its number by whether the
character ends a line. -/
theorem startOfLine_cons_succ (c : Char) (cs : Text) (n : Nat) :
    startOfLine (c :: cs) (n + 1) = startOfLine cs (if endsLine c cs then n else n + 1) + 1 := by
  obtain ⟨line, lines, hlines⟩ := List.exists_cons_of_ne_nil (editLines_ne_nil cs)
  unfold startOfLine
  split
  · next hends => simp [editLines_cons_of_endsLine hends]
  · next hends =>
    rw [editLines_cons_of_not_endsLine hends hlines, hlines]
    simp

theorem unitsBefore_zero (t : Text) : unitsBefore t 0 = 0 := by
  simp [unitsBefore]

/-- A character in front is among the units if it stands on the same line, which is the case if it
does not end its line and the index is still on the first one. -/
theorem unitsBefore_cons_succ (c : Char) (cs : Text) (k : Nat) :
    unitsBefore (c :: cs) (k + 1) =
      if !endsLine c cs && lineOf cs k = 0 then utf16Size c + unitsBefore cs k
      else unitsBefore cs k := by
  unfold unitsBefore
  rw [lineOf_cons_succ, List.take_succ_cons]
  by_cases hends : endsLine c cs
  · simp [hends, startOfLine_cons_succ]
  · cases hline : lineOf cs k with
    | zero => simp [hends, startOfLine_zero]
    | succ n => simp [hends, startOfLine_cons_succ]

/-- An index inside a line break stays inside it with more text in front. -/
theorem splitsBreak_cons_succ {c : Char} {cs : Text} {k : Nat} (h : splitsBreak cs k) :
    splitsBreak (c :: cs) (k + 1) := by
  rw [splitsBreak, Bool.and_eq_true, decide_eq_true_eq, decide_eq_true_eq] at h ⊢
  refine ⟨?_, h.2⟩
  rw [List.take_succ_cons, List.getLast?_cons, h.1]
  rfl

/-- A character that leaves the index behind it on the first line is neither a line feed nor a
carriage return, unless the index is inside a line break. These are the characters at which an edit
stops. -/
theorem ne_break_of_lineOf_eq_zero {c : Char} {cs : Text} {k : Nat} (hends : ¬endsLine c cs)
    (hline : lineOf cs k = 0) (hwhole : ¬splitsBreak (c :: cs) (k + 1)) : c ≠ '\n' ∧ c ≠ '\r' := by
  refine ⟨?_, ?_⟩
  · rintro rfl
    exact hends rfl
  · rintro rfl
    -- a carriage return that does not end its line has a line feed behind it
    have hfeed : cs.head? = some '\n' := by
      by_contra hfeed
      exact hends (by simp [endsLine, isLineBreak, hfeed])
    obtain ⟨rest, rfl⟩ := List.head?_eq_some_iff.mp hfeed
    cases k with
    | zero => exact hwhole rfl
    | succ k =>
      have hends' : endsLine '\n' rest := by simp [endsLine, isLineBreak]
      rw [lineOf_cons_succ, if_pos hends'] at hline
      contradiction

/-! ## 2. Back from a position -/

/-- **The index of the position of a place is the place.** The induction is on the text, whose first
character ends a line or belongs to the first one. -/
theorem indexAt_lineOf {t : Text} {k : Nat} (hk : k ≤ t.length) (hwhole : ¬splitsBreak t k) :
    indexAt t (lineOf t k) (unitsBefore t k) = k := by
  induction t generalizing k with
  | nil =>
    obtain rfl : k = 0 := by simpa using hk
    rfl
  | cons c cs ih =>
    cases k with
    | zero =>
      have hpos := utf16Size_pos c
      rw [lineOf_zero, unitsBefore_zero, indexAt_cons_zero, if_pos (by simp [hpos])]
    | succ k =>
      have hback := ih (by simpa using hk) fun h => hwhole (splitsBreak_cons_succ h)
      rw [lineOf_cons_succ, unitsBefore_cons_succ]
      by_cases hends : endsLine c cs
      · simp [hends, indexAt_cons_succ, hback]
      · cases hline : lineOf cs k with
        | zero =>
          obtain ⟨hfeed, hreturn⟩ := ne_break_of_lineOf_eq_zero hends hline hwhole
          rw [hline] at hback
          simp [hends, indexAt_cons_zero, hfeed, hreturn, hback]
        | succ n =>
          rw [hline] at hback
          simp [hends, indexAt_cons_succ, hback]

theorem indexOf_of_marks {t : Text} {k : Nat} {p : Position} (h : p.Marks t k) (hk : k ≤ t.length)
    (hwhole : ¬t.splitsBreak k) : t.indexOf p = k := by
  rw [indexOf_eq_indexAt, h.line, h.character, indexAt_lineOf hk hwhole]

/-! ## 3. The order of positions -/

theorem indexAt_nil (n units : Nat) : indexAt [] n units = 0 := by
  cases n <;> simp [indexAt, editLines, charsBefore]

/-- Every position has its index in the document, also one past its end. -/
theorem indexAt_le_length (t : Text) (n units : Nat) : indexAt t n units ≤ t.length := by
  induction t generalizing n units with
  | nil => rw [indexAt_nil]; exact Nat.zero_le _
  | cons c cs ih =>
    rw [List.length_cons]
    cases n with
    | zero =>
      rw [indexAt_cons_zero]
      have := ih 0 (units - utf16Size c)
      split
      · omega
      · split <;> omega
    | succ n =>
      rw [indexAt_cons_succ]
      have := ih (if endsLine c cs then n else n + 1) units
      omega

/-- **Indices are in the order of the positions**, by line and then by column. The induction is on
the text; a line number above zero goes down by one where a line ends. -/
theorem indexAt_mono (t : Text) {m n units units' : Nat}
    (h : m < n ∨ m = n ∧ units ≤ units') : indexAt t m units ≤ indexAt t n units' := by
  induction t generalizing m n units units' with
  | nil => rw [indexAt_nil, indexAt_nil]
  | cons c cs ih =>
    cases m with
    | zero =>
      rw [indexAt_cons_zero]
      cases n with
      | zero =>
        have hle : units ≤ units' := by omega
        have hrest := ih (m := 0) (n := 0)
          (.inr ⟨rfl, Nat.sub_le_sub_right hle (utf16Size c)⟩)
        rw [indexAt_cons_zero]
        -- where the smaller column stops, nothing is to be shown; where it goes on, so does the
        -- larger one
        by_cases hstop : c = '\n' || c = '\r' || units < utf16Size c
        · rw [if_pos hstop]
          exact Nat.zero_le _
        · have hstop' : ¬(c = '\n' || c = '\r' || units' < utf16Size c) = true := by
            simp only [Bool.or_eq_true, decide_eq_true_eq, not_or] at hstop ⊢
            exact ⟨hstop.1, by omega⟩
          rw [if_neg hstop, if_neg hstop']
          split <;> omega
      | succ n =>
        rw [indexAt_cons_succ]
        split
        · omega
        · -- on a later line the other one goes on over this character at least
          by_cases hends : endsLine c cs
          · rw [if_pos hends]
            omega
          · have hrest : indexAt cs 0 (units - utf16Size c) ≤ indexAt cs (n + 1) units' :=
              ih (.inl (Nat.succ_pos n))
            rw [if_neg hends, if_neg hends]
            omega
    | succ m =>
      cases n with
      | zero => omega
      | succ n =>
        rw [indexAt_cons_succ, indexAt_cons_succ]
        refine Nat.add_le_add_right (ih ?_) 1
        split <;> omega

end Text

/-- Positions are compared by their lines, and on one line by their columns. -/
theorem Position.le_of_compare {p q : Position} (h : p.compare q ≠ .gt) :
    p.line.toNat < q.line.toNat ∨
      p.line.toNat = q.line.toNat ∧ p.character.toNat ≤ q.character.toNat := by
  rw [compare, ne_eq, Ordering.then_eq_gt, Std.compare_eq_gt, Std.compare_eq_gt,
    Std.compare_eq_iff_eq, UInt32.lt_iff_toNat_lt, UInt32.lt_iff_toNat_lt,
    ← UInt32.toNat_inj] at h
  omega

/-- **Edits splice exactly.** The position of a place that is not inside a line break comes back to
the place. Indices are in the order of the positions, whether these name places or not, and stay
within the document. So an edit whose range has the positions of two places as its ends, in either
order, replaces what stands between the places and leaves the rest. -/
theorem edits_splice_exactly (t : Text) :
    (∀ k p, k ≤ t.length → ¬t.splitsBreak k → p.Marks t k → t.indexOf p = k) ∧
    (∀ p q : Position, p.compare q ≠ .gt → t.indexOf p ≤ t.indexOf q) ∧
    (∀ p, t.indexOf p ≤ t.length) ∧
    ∀ s e p q replacement, s ≤ e → e ≤ t.length → ¬t.splitsBreak s → ¬t.splitsBreak e →
      p.Marks t s → q.Marks t e →
      Change.applyTo ⟨some ⟨p, q⟩, replacement⟩ t = t.take s ++ replacement ++ t.drop e ∧
      Change.applyTo ⟨some ⟨q, p⟩, replacement⟩ t = t.take s ++ replacement ++ t.drop e := by
  refine ⟨fun k p hk hwhole hp => Text.indexOf_of_marks hp hk hwhole,
    fun p q h => Text.indexAt_mono t (Position.le_of_compare h),
    fun p => Text.indexAt_le_length t _ _, ?_⟩
  intro s e p q replacement hse he hs hwhole hp hq
  have hstart := Text.indexOf_of_marks hp (Nat.le_trans hse he) hs
  have hstop := Text.indexOf_of_marks hq he hwhole
  simp only [Change.applyTo, hstart, hstop, Text.splice, Nat.min_eq_left hse, Nat.max_eq_right hse,
    Nat.min_eq_right hse, Nat.max_eq_left hse, and_self]

/-- A document in which lines end with two characters, with a vertical tab and with a line
separator, and with characters of two units. -/
def brokenText : Text :=
  "a\r\n😀b\x0bc\u2028\r".toList

/-- The place before the vertical tab is three units from the start of the second line, and the end
of the document is on a line of its own. -/
theorem edits_splice_in_brokenText :
    Text.lineOf brokenText 5 = 1 ∧ Text.unitsBefore brokenText 5 = 3 ∧
    Text.lineOf brokenText 9 = 4 ∧ Text.splitsBreak brokenText 2 ∧
    brokenText.indexOf ⟨1, 3⟩ = 5 ∧
    brokenText.indexOf ⟨1, 3⟩ ≤ brokenText.indexOf ⟨2, 0⟩ ∧
    Change.applyTo ⟨some ⟨⟨4, 0⟩, ⟨1, 2⟩⟩, "x".toList⟩ brokenText = "a\r\n😀x".toList := by
  obtain ⟨hback, hmono, -, hsplice⟩ := edits_splice_exactly brokenText
  refine ⟨by decide +kernel, by decide +kernel, by decide +kernel, by decide +kernel,
    hback 5 ⟨1, 3⟩ (by decide +kernel) (by decide +kernel)
      ⟨by decide +kernel, by decide +kernel⟩,
    hmono ⟨1, 3⟩ ⟨2, 0⟩ (by decide +kernel), ?_⟩
  have hswapped := (hsplice 4 9 ⟨1, 2⟩ ⟨4, 0⟩ "x".toList (by decide +kernel) (by decide +kernel)
    (by decide +kernel) (by decide +kernel) ⟨by decide +kernel, by decide +kernel⟩
    ⟨by decide +kernel, by decide +kernel⟩).2
  rw [hswapped]
  decide +kernel

end MacroScript
