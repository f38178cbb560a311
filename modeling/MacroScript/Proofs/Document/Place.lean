import MacroScript.Document.Edit
import MacroScript.Proofs.Diagnostic.Range
import Mathlib.Algebra.GroupWithZero.Nat

/-!
# Places by two kinds of lines

Completion and the rules end lines at line feeds only; an edit ends them at every line break of
Unicode. Both turn a position into a place of the document, and here the two places are compared.

The place of an edit never comes after the other one. **They are the same place exactly if the
column does not fall inside a character and no other line break stands before the place**
(`Text.indexOf_eq_iff`), but for one that stands right before it and is not a carriage return, since
an edit leaves such a break within the columns of its line. The range of a diagnostic is replaced by
an edit under the same condition (`positions_agree_iff`).
-/
namespace MacroScript

namespace Text

/-! ## 1. Lines that end at line feeds -/

/-- The index of the character at which a line starts, if lines end at line feeds. -/
def lineStart (t : Text) (k : Nat) : Nat :=
  (((List.splitOn '\n' t).take k).map fun piece => piece.length + 1).sum

/-- The part of line `k` before a column. A column past the end of the line means its end, and one
inside a character means the end of that character. -/
def frontAt (t : Text) (k units : Nat) : Option Text :=
  ((List.splitOn '\n' t)[k]?).map fun piece => takeUnits units (dropReturn piece)

/-- What completion cuts off before a position, by the number of its line and its column. -/
theorem before?_eq_frontAt (t : Text) (p : Position) :
    t.before? p = t.frontAt p.line.toNat p.character.toNat := by
  have hcut (line : Text) :
      takeBytes (offsetOf line p.character) line = takeUnits p.character.toNat line := by
    obtain ⟨rest, hrest⟩ := takeUnits_isPrefix p.character.toNat line
    have htake := takeBytes_byteSize_append (takeUnits p.character.toNat line) rest
    rwa [hrest] at htake
  simp only [before?, line?, frontAt, Option.map_map, Function.comp_def, hcut]

@[simp] theorem lineStart_zero (t : Text) : lineStart t 0 = 0 := rfl

/-- A line feed in front makes one line more; any other character makes the first line longer. -/
theorem lineStart_cons_succ (c : Char) (cs : Text) (k : Nat) :
    lineStart (c :: cs) (k + 1) = lineStart cs (if c = '\n' then k else k + 1) + 1 := by
  obtain ⟨piece, pieces, hpieces⟩ := List.exists_cons_of_ne_nil (List.splitOn_ne_nil '\n' cs)
  unfold lineStart
  rw [splitOn_cons]
  split
  · simp [Nat.add_comm]
  · simp [hpieces]
    omega

theorem getElem?_splitOn_cons_succ (c : Char) (cs : Text) (k : Nat) :
    (List.splitOn '\n' (c :: cs))[k + 1]? =
      (List.splitOn '\n' cs)[if c = '\n' then k else k + 1]? := by
  obtain ⟨piece, pieces, hpieces⟩ := List.exists_cons_of_ne_nil (List.splitOn_ne_nil '\n' cs)
  rw [splitOn_cons]
  split
  · simp
  · simp [hpieces]

/-- So it is with the part of a line that is not the first. -/
theorem frontAt_cons_succ (c : Char) (cs : Text) (k units : Nat) :
    frontAt (c :: cs) (k + 1) units = frontAt cs (if c = '\n' then k else k + 1) units := by
  rw [frontAt, getElem?_splitOn_cons_succ, frontAt]

/-- The text is nothing, or ends in a line feed. -/
def IsWholeLines (t : Text) : Prop :=
  t = [] ∨ t.getLast? = some '\n'

/-- A line stands behind the lines before it. By their line feeds these are as many as its number
says. -/
theorem exists_of_getElem?_splitOn {t piece : Text} {k : Nat}
    (h : (List.splitOn '\n' t)[k]? = some piece) :
    ∃ earlier later, t = earlier ++ piece ++ later ∧ IsWholeLines earlier ∧
      earlier.count '\n' = k ∧ earlier.length = lineStart t k := by
  induction t generalizing k with
  | nil =>
    obtain ⟨rfl, rfl⟩ : k = 0 ∧ [] = piece := by
      simpa [List.getElem?_singleton] using h
    exact ⟨[], [], rfl, .inl rfl, rfl, rfl⟩
  | cons c cs ih =>
    cases k with
    | zero =>
      obtain ⟨first, pieces, hpieces⟩ :=
        List.exists_cons_of_ne_nil (List.splitOn_ne_nil '\n' (c :: cs))
      have hjoin : List.intercalate ['\n'] (List.splitOn '\n' (c :: cs)) = c :: cs :=
        List.intercalate_splitOn '\n'
      rw [hpieces, List.getElem?_cons_zero, Option.some.injEq] at h
      subst h
      -- the text starts with its first line, as it is its lines put together
      obtain ⟨later, hlater⟩ : ∃ later, c :: cs = first ++ later := by
        rw [← hjoin, hpieces]
        cases pieces with
        | nil => exact ⟨[], by simp⟩
        | cons next pieces => exact ⟨_, List.intercalate_cons_cons.trans (List.append_assoc _ _ _)⟩
      exact ⟨[], later, hlater, .inl rfl, rfl, rfl⟩
    | succ k =>
      rw [getElem?_splitOn_cons_succ] at h
      obtain ⟨earlier, later, heq, hwhole, hcount, hlength⟩ := ih h
      refine ⟨c :: earlier, later, by rw [heq]; rfl, ?_, ?_, ?_⟩
      · -- nothing before the line but this one character: then it is the line feed
        rcases hwhole with rfl | hlast
        · by_cases hc : c = '\n'
          · exact .inr (by rw [hc]; rfl)
          · simp [hc] at hcount
        · exact .inr (by rw [List.getLast?_cons, hlast]; rfl)
      · by_cases hc : c = '\n' <;> simp [hc, hcount]
      · rw [List.length_cons, hlength, lineStart_cons_succ]

/-- The first line, without a carriage return at its end. Unlike the cutting at line feeds this
recurses on the text alone, as the place of an edit does. -/
def firstLine : Text → Text
  | [] => []
  | c :: cs =>
    if c = '\n' || (c = '\r' && (cs.isEmpty || cs.head? = some '\n')) then []
    else c :: firstLine cs

theorem dropReturn_cons (c : Char) (piece : Text) :
    dropReturn (c :: piece) =
      if c = '\r' && piece.isEmpty then [] else c :: dropReturn piece := by
  unfold dropReturn
  cases piece with
  | nil => by_cases hc : c = '\r' <;> simp [hc]
  | cons d piece =>
    simp only [List.getLast?_cons_cons, List.dropLast_cons_cons, List.isEmpty_cons, Bool.and_false,
      Bool.false_eq_true, if_false]
    split <;> rfl

/-- It is the first piece without its carriage return. The second part is needed for the induction:
whether a carriage return is the last of its piece can be seen from the next character. -/
theorem firstLine_eq {t piece : Text} {pieces : List Text}
    (h : List.splitOn '\n' t = piece :: pieces) :
    dropReturn piece = firstLine t ∧ piece.isEmpty = (t.isEmpty || t.head? = some '\n') := by
  induction t generalizing piece pieces with
  | nil =>
    obtain ⟨rfl, -⟩ := List.cons.inj h
    exact ⟨rfl, rfl⟩
  | cons c cs ih =>
    obtain ⟨piece', pieces', hpieces⟩ := List.exists_cons_of_ne_nil (List.splitOn_ne_nil '\n' cs)
    obtain ⟨hline, hempty⟩ := ih hpieces
    rw [splitOn_cons, hpieces, List.modifyHead_cons] at h
    rw [firstLine]
    by_cases hc : c = '\n'
    · rw [if_pos hc] at h
      obtain ⟨rfl, -⟩ := List.cons.inj h
      simp [hc, dropReturn]
    · rw [if_neg hc] at h
      obtain ⟨rfl, -⟩ := List.cons.inj h
      rw [dropReturn_cons, hline, hempty]
      simp [hc]

theorem frontAt_zero (t : Text) (units : Nat) :
    frontAt t 0 units = some (takeUnits units (firstLine t)) := by
  obtain ⟨piece, pieces, hpieces⟩ := List.exists_cons_of_ne_nil (List.splitOn_ne_nil '\n' t)
  rw [frontAt, hpieces, List.getElem?_cons_zero, Option.map_some, (firstLine_eq hpieces).1]

/-! ## 2. Lines that end at every break -/

/-- The index of the character at a column of line `k`. Past the last line it is the end of the
text. -/
def indexAt (t : Text) (k units : Nat) : Nat :=
  match t.editLines.drop k with
  | [] => t.length
  | line :: _ => (t.editLines.take k).flatten.length + charsBefore units line

theorem indexOf_eq_indexAt (t : Text) (p : Position) :
    t.indexOf p = t.indexAt p.line.toNat p.character.toNat := rfl

theorem editLines_cons_of_endsLine {c : Char} {cs : Text} (h : endsLine c cs) :
    editLines (c :: cs) = [c] :: editLines cs := by
  rw [editLines, if_pos h]

theorem editLines_cons_of_not_endsLine {c : Char} {cs line : Text} {lines : List Text}
    (h : ¬endsLine c cs) (hlines : editLines cs = line :: lines) :
    editLines (c :: cs) = (c :: line) :: lines := by
  rw [editLines, if_neg h, hlines, List.modifyHead_cons]

@[simp] theorem indexAt_nil_zero (units : Nat) : indexAt [] 0 units = 0 := rfl

/-- A character in front makes one line more if it ends one, and moves every place by one. -/
theorem indexAt_cons_succ (c : Char) (cs : Text) (k units : Nat) :
    indexAt (c :: cs) (k + 1) units =
      indexAt cs (if endsLine c cs then k else k + 1) units + 1 := by
  obtain ⟨line, lines, hlines⟩ := List.exists_cons_of_ne_nil (editLines_ne_nil cs)
  by_cases hends : endsLine c cs
  · have hedit := editLines_cons_of_endsLine hends
    rw [if_pos hends, indexAt, indexAt, hedit, List.drop_succ_cons, List.take_succ_cons,
      List.flatten_cons, List.length_append, List.length_singleton, List.length_cons]
    split <;> omega
  · have hedit := editLines_cons_of_not_endsLine hends hlines
    rw [if_neg hends, indexAt, indexAt, hedit, hlines, List.drop_succ_cons, List.drop_succ_cons,
      List.take_succ_cons, List.take_succ_cons, List.flatten_cons, List.flatten_cons,
      List.length_append, List.length_append, List.length_cons, List.length_cons]
    split <;> omega

/-- On the first line a place is looked for character by character. A line feed or a carriage return
stops the search in front of it, and any other break behind it. -/
theorem indexAt_cons_zero (c : Char) (cs : Text) (units : Nat) :
    indexAt (c :: cs) 0 units =
      if c = '\n' || c = '\r' || units < utf16Size c then 0
      else if endsLine c cs then 1
      else indexAt cs 0 (units - utf16Size c) + 1 := by
  obtain ⟨line, lines, hlines⟩ := List.exists_cons_of_ne_nil (editLines_ne_nil cs)
  have hfirst (t line : Text) (lines : List Text) (h : t.editLines = line :: lines) (n : Nat) :
      indexAt t 0 n = charsBefore n line := by
    simp [indexAt, h]
  by_cases hends : endsLine c cs
  · have hedit := editLines_cons_of_endsLine hends
    rw [hfirst _ _ _ hedit, charsBefore, if_pos hends]
    rfl
  · have hedit := editLines_cons_of_not_endsLine hends hlines
    rw [hfirst _ _ _ hedit, charsBefore, if_neg hends, hfirst _ _ _ hlines]

/-! ## 3. Stray breaks -/

/-- A line break that is no line feed and does not belong to one. Edits count it and completion does
not. -/
def isStray (c : Char) (rest : Text) : Bool :=
  endsLine c rest && c != '\n'

/-- No stray break is among the first `n` characters, but for one that is the last of them and no
carriage return. -/
def IsClear (t : Text) (n : Nat) : Prop :=
  ∀ i c rest, i < n → t.drop i = c :: rest → isStray c rest → i + 1 = n ∧ c ≠ '\r'

@[simp] theorem isClear_zero (t : Text) : IsClear t 0 := by
  intro i c rest hi
  omega

@[simp] theorem isClear_nil (n : Nat) : IsClear [] n := by
  intro i c rest hi hdrop
  simp at hdrop

/-- Whether a text is clear can be told character by character. -/
theorem isClear_cons {c : Char} {cs : Text} {n : Nat} :
    IsClear (c :: cs) (n + 1) ↔ (isStray c cs → n = 0 ∧ c ≠ '\r') ∧ IsClear cs n := by
  constructor
  · intro h
    refine ⟨fun hstray => ?_, fun i d rest hi hdrop hstray => ?_⟩
    · obtain ⟨hn, hc⟩ := h 0 c cs (by omega) rfl hstray
      exact ⟨by omega, hc⟩
    · obtain ⟨hn, hd⟩ := h (i + 1) d rest (by omega) hdrop hstray
      exact ⟨by omega, hd⟩
  · rintro ⟨hfirst, hrest⟩ i d rest hi hdrop hstray
    cases i with
    | zero =>
      obtain ⟨rfl, rfl⟩ := List.cons.inj hdrop
      obtain ⟨hn, hc⟩ := hfirst hstray
      exact ⟨by omega, hc⟩
    | succ i =>
      obtain ⟨hn, hd⟩ := hrest i d rest (by omega) hdrop hstray
      exact ⟨by omega, hd⟩

/-- A break that is allowed as the last character is no longer the last among fewer, so that these
have none. -/
theorem IsClear.mono {t : Text} {m n : Nat} (h : IsClear t n) (hlt : m < n) : IsClear t m := by
  intro i c rest hi hdrop hstray
  obtain ⟨hn, -⟩ := h i c rest (by omega) hdrop hstray
  omega

instance decidableIsClear : (t : Text) → (n : Nat) → Decidable (IsClear t n)
  | _, 0 => isTrue (isClear_zero _)
  | [], _ => isTrue (isClear_nil _)
  | _ :: cs, n + 1 =>
    have := decidableIsClear cs n
    decidable_of_iff _ isClear_cons.symm

/-! ## 4. The two places -/

/-- On the first line the place of an edit does not come after the other, and is the same place if
it can be. The induction is on the text; each character ends the line for both, for the edit alone,
or for neither. -/
theorem indexAt_zero_le_and_eq_iff (t : Text) (units : Nat) :
    indexAt t 0 units ≤ (takeUnits units (firstLine t)).length ∧
      (indexAt t 0 units = (takeUnits units (firstLine t)).length ↔
        utf16Length (takeUnits units (firstLine t)) ≤ units ∧
          IsClear t (takeUnits units (firstLine t)).length) := by
  induction t generalizing units with
  | nil => cases units <;> simp [firstLine, takeUnits]
  | cons c cs ih =>
    have hsize := utf16Size_pos c
    rw [indexAt_cons_zero, firstLine]
    cases units with
    | zero => simp [takeUnits, hsize]
    | succ units =>
      by_cases hend : (c = '\n' || (c = '\r' && (cs.isEmpty || cs.head? = some '\n'))) = true
      · -- the line ends here for both
        have hstop : c = '\n' ∨ c = '\r' := by
          simp only [Bool.or_eq_true, Bool.and_eq_true, decide_eq_true_eq] at hend
          exact hend.imp_right And.left
        rw [if_pos hend]
        rcases hstop with rfl | rfl <;> simp [takeUnits]
      · rw [if_neg hend, takeUnits, List.length_cons, isClear_cons, utf16Length_cons]
        obtain ⟨hle, hiff⟩ := ih (units + 1 - utf16Size c)
        generalize takeUnits (units + 1 - utf16Size c) (firstLine cs) = front at *
        simp only [Bool.or_eq_true, Bool.and_eq_true, decide_eq_true_eq, not_or, not_and] at hend
        obtain ⟨hfeed, hreturn⟩ := hend
        by_cases hc : c = '\r'
        · -- a carriage return that does not belong to a line feed stops the edit alone
          obtain ⟨hmore, hhead⟩ := hreturn hc
          have hstray : isStray c cs = true := by
            simp [isStray, endsLine, hc, hhead, isLineBreak]
          simp [hc] at hstray ⊢
          simp [hstray]
        by_cases hinside : units + 1 < utf16Size c
        · -- the column falls inside the character
          have hunits : ¬ utf16Size c + utf16Length front ≤ units + 1 := by omega
          simp [hinside, hunits]
        rw [if_neg (by simp [hfeed, hc, hinside])]
        by_cases hends : endsLine c cs
        · -- the break is the last character that an edit can have before its place
          have hstray : isStray c cs = true := by simp [isStray, hends, hfeed]
          rw [if_pos hends]
          refine ⟨by omega, fun hlength => ?_, ?_⟩
          · obtain rfl : front = [] := List.length_eq_zero_iff.mp (by omega)
            exact ⟨by simpa using Nat.le_of_not_lt hinside, fun _ => ⟨rfl, hc⟩, isClear_zero cs⟩
          · rintro ⟨-, hlast, -⟩
            have := (hlast hstray).1
            omega
        · have hstray : isStray c cs = false := by simp [isStray, hends]
          rw [if_neg hends]
          refine ⟨by omega, fun hlength => ?_, ?_⟩
          · obtain ⟨hunits, hclear⟩ := hiff.mp (by omega)
            exact ⟨by omega, by simp [hstray], hclear⟩
          · rintro ⟨hunits, -, hclear⟩
            have := hiff.mpr ⟨by omega, hclear⟩
            omega

/-- The place of an edit on a line comes before every later line. This is what keeps the two places
apart for good once the edit has counted a line that the other has not. -/
theorem indexAt_lt_lineStart {t : Text} {k : Nat}
    (h : k + 1 < (List.splitOn '\n' t).length) {j : Nat}
    (hj : j ≤ k) (units : Nat) : indexAt t j units < lineStart t (k + 1) := by
  induction t generalizing j k units with
  | nil => simp at h
  | cons c cs ih =>
    obtain ⟨piece, pieces, hpieces⟩ := List.exists_cons_of_ne_nil (List.splitOn_ne_nil '\n' cs)
    rw [lineStart_cons_succ]
    by_cases hc : c = '\n'
    · rw [splitOn_cons, if_pos hc, List.length_cons] at h
      rw [if_pos hc]
      cases j with
      | zero => simp [indexAt_cons_zero, hc]
      | succ j =>
        -- a line feed ends a line for both
        obtain ⟨k, rfl⟩ : ∃ k', k = k' + 1 := ⟨k - 1, by omega⟩
        have hends : endsLine c cs = true := by simp [endsLine, hc, isLineBreak]
        rw [indexAt_cons_succ, if_pos hends]
        have := ih (k := k) (by omega) (j := j) (by omega) units
        omega
    · have hlength : (List.splitOn '\n' (c :: cs)).length = (List.splitOn '\n' cs).length := by
        rw [splitOn_cons, if_neg hc, List.length_modifyHead]
      rw [hlength] at h
      rw [if_neg hc]
      cases j with
      | zero =>
        -- the edit stops here, ends its line here or goes on; whichever it is, the line feed is yet
        -- to come
        have hrest := ih h (Nat.zero_le k)
        rw [indexAt_cons_zero]
        split
        · omega
        · split
          · have := hrest 0
            omega
          · have := hrest (units - utf16Size c)
            omega
      | succ j =>
        rw [indexAt_cons_succ]
        split
        · have := ih h (j := j) (by omega) units
          omega
        · have := ih h hj units
          omega

/-- The place of an edit does not come after the other, and is the same place if it can be. The
lines before are passed over one character at a time; a stray break among them sets the edit back by
a line. -/
theorem indexAt_le_and_eq_iff {t front : Text} {k units : Nat}
    (h : frontAt t k units = some front) :
    indexAt t k units ≤ lineStart t k + front.length ∧
      (indexAt t k units = lineStart t k + front.length ↔
        utf16Length front ≤ units ∧ IsClear t (lineStart t k + front.length)) := by
  induction t generalizing k with
  | nil =>
    cases k with
    | zero =>
      rw [frontAt_zero, Option.some.injEq] at h
      subst h
      simpa using indexAt_zero_le_and_eq_iff [] units
    | succ k => simp [frontAt] at h
  | cons c cs ih =>
    cases k with
    | zero =>
      rw [frontAt_zero, Option.some.injEq] at h
      subst h
      simpa using indexAt_zero_le_and_eq_iff (c :: cs) units
    | succ k =>
      rw [frontAt_cons_succ] at h
      rw [lineStart_cons_succ, indexAt_cons_succ, Nat.add_right_comm, isClear_cons]
      obtain ⟨hle, hiff⟩ := ih h
      by_cases hstray : isStray c cs
      · -- the edit counts a line that the other does not
        have hparts := hstray
        rw [isStray, Bool.and_eq_true, bne_iff_ne] at hparts
        obtain ⟨hends, hc⟩ := hparts
        simp only [hc, if_false, hends, if_true] at h hle hiff ⊢
        have hline : k + 1 < (List.splitOn '\n' cs).length := by
          by_contra hover
          simp [frontAt, List.getElem?_eq_none (Nat.le_of_not_lt hover)] at h
        have hlt := indexAt_lt_lineStart hline (Nat.le_refl k) units
        refine ⟨by omega, fun heq => by omega, ?_⟩
        rintro ⟨-, hfirst, -⟩
        have := (hfirst hstray).1
        omega
      · -- the lines of both go on, or both end
        have hsame : (if endsLine c cs then k else k + 1) = if c = '\n' then k else k + 1 := by
          by_cases hc : c = '\n'
          · simp [hc, endsLine, isLineBreak]
          · have hends : endsLine c cs = false := by simpa [isStray, hc] using hstray
            simp [hc, hends]
        rw [hsame]
        refine ⟨by omega, ?_⟩
        rw [Nat.add_right_cancel_iff, hiff]
        simp [hstray]

/-- **The place of an edit is the other place exactly if the column does not fall inside a character
and nothing but line feeds has ended a line before it.** -/
theorem indexOf_eq_iff {t front : Text} {p : Position} (h : t.before? p = some front) :
    t.indexOf p = lineStart t p.line.toNat + front.length ↔
      utf16Length front ≤ p.character.toNat ∧
        IsClear t (lineStart t p.line.toNat + front.length) := by
  rw [before?_eq_frontAt] at h
  rw [indexOf_eq_indexAt]
  exact (indexAt_le_and_eq_iff h).2

/-- In any case it does not come after. -/
theorem indexOf_le {t front : Text} {p : Position} (h : t.before? p = some front) :
    t.indexOf p ≤ lineStart t p.line.toNat + front.length := by
  rw [before?_eq_frontAt] at h
  rw [indexOf_eq_indexAt]
  exact (indexAt_le_and_eq_iff h).1

theorem dropReturn_isPrefix (piece : Text) : dropReturn piece <+: piece := by
  unfold dropReturn
  split
  · exact List.dropLast_prefix piece
  · exact List.prefix_refl piece

/-- The part of a line before a position stands behind the lines before it. -/
theorem exists_of_before? {t front : Text} {p : Position} (h : t.before? p = some front) :
    ∃ earlier later, t = earlier ++ front ++ later ∧ IsWholeLines earlier ∧
      earlier.count '\n' = p.line.toNat ∧ earlier.length = lineStart t p.line.toNat := by
  rw [before?_eq_frontAt, frontAt, Option.map_eq_some_iff] at h
  obtain ⟨piece, hpiece, rfl⟩ := h
  obtain ⟨earlier, later, ht, hwhole, hcount, hlength⟩ := exists_of_getElem?_splitOn hpiece
  obtain ⟨rest, hrest⟩ := (takeUnits_isPrefix p.character.toNat (dropReturn piece)).trans
    (dropReturn_isPrefix piece)
  refine ⟨earlier, rest ++ later, ?_, hwhole, hcount, hlength⟩
  rw [List.append_assoc, ← List.append_assoc (takeUnits _ _), hrest, ← List.append_assoc, ← ht]

/-- Replacing what stands between two indices leaves the given ends alone for every replacement only
if the indices are those of the ends. If the first index came too soon, the character there would
have to be every replacement; the second one then follows from the lengths. -/
theorem eq_of_splice {t front middle back : Text} (ht : t = front ++ middle ++ back) {a b : Nat}
    (ha : a ≤ front.length) (hb : b ≤ (front ++ middle).length)
    (h : ∀ new, t.splice a b new = front ++ new ++ back) :
    a = front.length ∧ b = (front ++ middle).length := by
  have hlength : t.length = (front ++ middle).length + back.length := by
    rw [ht, List.length_append]
  have hat : a ≤ t.length := by
    rw [List.length_append] at hlength
    omega
  have hstart : a = front.length := by
    by_contra hne
    -- the character at `a` would have to be every replacement
    have hreplaced (c : Char) : front[a]? = some c := by
      have hget := congrArg (fun s => s[a]?) (h [c])
      have hleft : (t.splice a b [c])[a]? = some c := by
        rw [splice, List.append_assoc, List.getElem?_append_right (by rw [List.length_take]; omega)]
        simp [Nat.min_eq_left hat]
      have hright : (front ++ [c] ++ back)[a]? = front[a]? := by
        rw [List.append_assoc, List.getElem?_append_left (by omega)]
      exact hright.symm.trans (hget.symm.trans hleft)
    have heq := (hreplaced 'a').symm.trans (hreplaced 'b')
    simp at heq
  refine ⟨hstart, ?_⟩
  have hsizes := congrArg List.length (h [])
  simp only [splice, List.length_append, List.length_take, List.length_drop, List.length_nil,
    Nat.min_eq_left hat] at hsizes
  rw [List.length_append] at hb hlength ⊢
  omega

/-- Two indices that do not come after the ends of a middle part replace it if and only if they are
its ends. They need not be in order, as the edit puts them in order itself. -/
theorem splice_eq_iff {t front middle back : Text} (ht : t = front ++ middle ++ back)
    (hne : middle ≠ []) {a b : Nat} (ha : a ≤ front.length) (hb : b ≤ (front ++ middle).length) :
    (∀ new, t.splice (min a b) (max a b) new = front ++ new ++ back) ↔
      a = front.length ∧ b = (front ++ middle).length := by
  have hlt : front.length < (front ++ middle).length := by
    have := List.length_pos_iff.mpr hne
    rw [List.length_append]
    omega
  constructor
  · intro h
    obtain ⟨hmin, hmax⟩ := eq_of_splice ht (by omega) (by omega) h
    omega
  · rintro ⟨rfl, rfl⟩ new
    rw [Nat.min_eq_left (Nat.le_of_lt hlt), Nat.max_eq_right (Nat.le_of_lt hlt), splice, ht,
      List.drop_left, List.append_assoc front, List.take_left]

end Text

/-! ## 5. Ranges of diagnostics -/

open Text

/-- A line of the analysis is a piece between line feeds, without its carriage return. -/
theorem Line.exists_piece {t : Text} {l : Line} (h : l ∈ Line.ofText t) :
    ∃ piece, (List.splitOn '\n' t)[l.index]? = some piece ∧ l.raw = dropReturn piece := by
  have hnumber (index offset : Nat) (pieces : List Text) (k : Nat)
      (h : (Line.number index offset pieces)[k]? = some l) :
      ∃ piece, pieces[k]? = some piece ∧ l.raw = dropReturn piece := by
    fun_induction Line.number index offset pieces generalizing k with
    | case1 => simp at h
    | case2 => simp at h
    | case3 index offset piece hne =>
      obtain ⟨rfl, rfl⟩ : k = 0 ∧ _ := by simpa [List.getElem?_singleton] using h
      exact ⟨piece, rfl, rfl⟩
    | case4 index offset piece next pieces ih =>
      cases k with
      | zero =>
        rw [List.getElem?_cons_zero, Option.some.injEq] at h
        exact ⟨piece, rfl, by rw [← h]⟩
      | succ k => exact ih k h
  obtain ⟨k, hk⟩ := List.mem_iff_getElem?.mp h
  obtain rfl := Line.index_ofText hk
  exact hnumber 0 0 _ _ hk

/-- A position on a line of code cuts that line at the byte of its column. -/
theorem before?_of_mem_ofText {t : Text} {l : Line} (h : l ∈ Line.ofText t) {p : Position}
    (hline : p.line.toNat = l.index) :
    t.before? p = some (takeBytes (offsetOf l.raw p.character) l.raw) := by
  obtain ⟨piece, hpiece, hraw⟩ := Line.exists_piece h
  rw [before?, line?, hline, hpiece, Option.map_some, Option.map_some, hraw]

/-- The place of an edit at the column of a boundary. Such a column does not fall inside a
character, so that only stray breaks matter. -/
theorem indexOf_of_column {t : Text} {l : Line} (h : l ∈ Line.ofText t)
    (hunits : utf16Length l.raw < UInt32.size) {n : Nat} (hn : isBoundary n l.raw) {p : Position}
    (hline : p.line.toNat = l.index) (hcolumn : p.character = columnOf l.raw n) :
    t.indexOf p ≤ lineStart t l.index + (takeBytes n l.raw).length ∧
      (t.indexOf p = lineStart t l.index + (takeBytes n l.raw).length ↔
        IsClear t (lineStart t l.index + (takeBytes n l.raw).length)) := by
  have hbefore := before?_of_mem_ofText h hline
  rw [hcolumn, offsetOf_columnOf hunits hn] at hbefore
  have hle := indexOf_le hbefore
  have hiff := indexOf_eq_iff hbefore
  rw [hline] at hle hiff
  refine ⟨hle, hiff.trans (and_iff_right ?_)⟩
  rw [hcolumn, toNat_columnOf hunits]

/-- An edit replaces what a diagnostic is about if and only if no stray break stands before the end
of its range. If none stands before its end, none stands before its start either. -/
theorem Diagnostic.IsAbout.applyTo_iff {t : Text} {l : Line} {start stop : Nat} {d : Diagnostic}
    (h : d.IsAbout l start stop) (hl : l ∈ Line.ofText t)
    (hunits : utf16Length l.raw < UInt32.size) :
    ∃ earlier later, t = earlier ++ l.raw ++ later ∧ IsWholeLines earlier ∧
      earlier.count '\n' = l.index ∧
      ((∀ new, Change.applyTo ⟨some d.range, new⟩ t =
          earlier ++ takeBytes start l.raw ++ new ++ (dropBytes stop l.raw ++ later)) ↔
        IsClear t (earlier ++ takeBytes stop l.raw).length) := by
  obtain ⟨piece, hpiece, hraw⟩ := Line.exists_piece hl
  obtain ⟨earlier, later, ht, hwhole, hcount, hlength⟩ := exists_of_getElem?_splitOn hpiece
  obtain ⟨rest, hrest⟩ := dropReturn_isPrefix piece
  rw [← hraw] at hrest
  rw [← hrest, ← List.append_assoc, List.append_assoc _ rest] at ht
  refine ⟨earlier, rest ++ later, ht, hwhole, hcount, ?_⟩
  -- the line in three parts, the middle one being what the diagnostic is about
  obtain ⟨front, back, hsplit, hfront, hmiddle⟩ :=
    exists_between h.isBoundary_start h.isBoundary_stop (Nat.le_of_lt h.lt)
  generalize between start stop l.raw = middle at hsplit hmiddle
  have hne : middle ≠ [] := by
    rintro rfl
    rw [List.append_nil, hfront] at hmiddle
    exact Nat.ne_of_lt h.lt hmiddle
  have htakeStart : takeBytes start l.raw = front := by
    rw [hsplit, List.append_assoc, ← hfront, takeBytes_byteSize_append]
  have htakeStop : takeBytes stop l.raw = front ++ middle := by
    rw [hsplit, ← hmiddle, takeBytes_byteSize_append]
  have hdropStop : dropBytes stop l.raw = back := by
    rw [hsplit, ← hmiddle, dropBytes_byteSize_append]
  -- the places of its two ends
  obtain ⟨hstartLe, hstartIff⟩ := indexOf_of_column hl hunits h.isBoundary_start h.startLine_eq
    (by rw [h.range_eq, Line.range])
  obtain ⟨hstopLe, hstopIff⟩ := indexOf_of_column hl hunits h.isBoundary_stop h.stopLine_eq
    (by rw [h.range_eq, Line.range])
  rw [htakeStart, ← hlength, ← List.length_append] at hstartLe hstartIff
  rw [htakeStop, ← hlength, ← List.length_append, ← List.append_assoc] at hstopLe hstopIff
  rw [htakeStart, htakeStop, hdropStop, ← List.append_assoc earlier front middle]
  have hparts : t = earlier ++ front ++ middle ++ (back ++ (rest ++ later)) := by
    simpa [hsplit] using ht
  have hlt : (earlier ++ front).length < (earlier ++ front ++ middle).length := by
    have := List.length_pos_iff.mpr hne
    simp only [List.length_append]
    omega
  rw [← hstopIff]
  refine (splice_eq_iff hparts hne hstartLe hstopLe).trans ⟨And.right, fun hindex => ⟨?_, hindex⟩⟩
  exact hstartIff.mpr ((hstopIff.mp hindex).mono hlt)

/-- **Where the place of a position is the same for completion and for an edit.** Completion cuts a
document behind whole lines, as many as the position says, and a front part of the next one. The
place of an edit at the position is the same exactly if the column does not fall inside a character
and no stray break stands before the place. A change of the range of a diagnostic replaces exactly
the characters that the diagnostic is about, whatever the new text is, if and only if no stray break
stands before the end of the range. -/
theorem positions_agree_iff (t : Text) :
    (∀ p front, t.before? p = some front →
      ∃ earlier later, t = earlier ++ front ++ later ∧ IsWholeLines earlier ∧
        earlier.count '\n' = p.line.toNat ∧
        (t.indexOf p = (earlier ++ front).length ↔
          utf16Length front ≤ p.character.toNat ∧ IsClear t (earlier ++ front).length)) ∧
    ((Line.ofText t).length < UInt32.size →
      (∀ l ∈ Line.ofText t, utf16Length l.raw < UInt32.size) →
      ∀ d ∈ diagnose t, ∃ l ∈ Line.ofText t, ∃ start stop, d.IsAbout l start stop ∧
        ∃ earlier later, t = earlier ++ l.raw ++ later ∧ IsWholeLines earlier ∧
          earlier.count '\n' = l.index ∧
          ((∀ new, Change.applyTo ⟨some d.range, new⟩ t =
              earlier ++ takeBytes start l.raw ++ new ++ (dropBytes stop l.raw ++ later)) ↔
            IsClear t (earlier ++ takeBytes stop l.raw).length)) := by
  refine ⟨fun p front h => ?_, fun hlines hunits d hd => ?_⟩
  · obtain ⟨earlier, later, ht, hwhole, hcount, hlength⟩ := exists_of_before? h
    refine ⟨earlier, later, ht, hwhole, hcount, ?_⟩
    rw [List.length_append, hlength]
    exact indexOf_eq_iff h
  · -- a diagnostic is placed on its line, and the line numbers fit into the range
    obtain ⟨l, hl, -, finding, hplaced, rfl⟩ := Diagnostic.exists_of_mem_ofLines hd
    have hindex : l.index < UInt32.size := by
      have hbounds := (Line.number_index 0 0 (List.splitOn '\n' t)).2 l hl
      rw [Nat.zero_add] at hbounds
      exact Nat.lt_trans hbounds.2 hlines
    have habout := hplaced.isAbout hindex (hunits l hl)
    exact ⟨l, hl, finding.start, finding.stop, habout, habout.applyTo_iff hl (hunits l hl)⟩

/-- A document with a carriage return before each line feed, characters of several sizes, and a form
feed at the end of its first line. -/
def returnedText : Text :=
  "é😀\x0c\r\nvar a  b = \"é\";".toList

/-- A column past the end of the first line, behind its form feed, and the place of a diagnostic on
the second line. -/
theorem positions_agree_in_returnedText :
    (returnedText.before? ⟨0, 9⟩ = some "é😀\x0c".toList ∧
      ∃ earlier later, returnedText = earlier ++ "é😀\x0c".toList ++ later ∧ IsWholeLines earlier ∧
        earlier.count '\n' = 0 ∧
        (returnedText.indexOf ⟨0, 9⟩ = (earlier ++ "é😀\x0c".toList).length ↔
          utf16Length "é😀\x0c".toList ≤ 9 ∧
            IsClear returnedText (earlier ++ "é😀\x0c".toList).length)) ∧
    ((Line.ofText returnedText).length < UInt32.size ∧
      (∀ l ∈ Line.ofText returnedText, utf16Length l.raw < UInt32.size) ∧
      ∃ d ∈ diagnose returnedText, d.range = ⟨⟨1, 5⟩, ⟨1, 6⟩⟩ ∧
        ∃ l ∈ Line.ofText returnedText, ∃ start stop, d.IsAbout l start stop ∧
          ∃ earlier later, returnedText = earlier ++ l.raw ++ later ∧ IsWholeLines earlier ∧
            earlier.count '\n' = l.index ∧
            ((∀ new, Change.applyTo ⟨some d.range, new⟩ returnedText =
                earlier ++ takeBytes start l.raw ++ new ++ (dropBytes stop l.raw ++ later)) ↔
              IsClear returnedText (earlier ++ takeBytes stop l.raw).length)) := by
  have hbefore : returnedText.before? ⟨0, 9⟩ = some "é😀\x0c".toList := by decide +kernel
  have hlines : (Line.ofText returnedText).length < UInt32.size := by decide +kernel
  have hunits : ∀ l ∈ Line.ofText returnedText, utf16Length l.raw < UInt32.size := by
    decide +kernel
  obtain ⟨d, hd, hrange⟩ : ∃ d ∈ diagnose returnedText, d.range = ⟨⟨1, 5⟩, ⟨1, 6⟩⟩ := by
    decide +kernel
  obtain ⟨hplaces, hranges⟩ := positions_agree_iff returnedText
  exact ⟨⟨hbefore, hplaces ⟨0, 9⟩ _ hbefore⟩, hlines, hunits, d, hd, hrange,
    hranges hlines hunits d hd⟩

/-- A vertical tab on a line of its own, and a statement without its semicolon. -/
def tabbedText : Text :=
  "\x0b\nx".toList

/-- The vertical tab ends a line for edits only. Completion on the second line starts behind the
line feed, an edit in front of it, and a change of the range of the diagnostic puts the new text
there and replaces nothing. -/
theorem positions_differ_in_tabbedText :
    tabbedText.before? ⟨1, 0⟩ = some [] ∧ lineStart tabbedText 1 = 2 ∧
      tabbedText.indexOf ⟨1, 0⟩ = 1 ∧ tabbedText.indexOf ⟨1, 1⟩ = 1 ∧
      (diagnose tabbedText).map (fun d => d.range) = [⟨⟨1, 0⟩, ⟨1, 1⟩⟩] ∧
      Change.applyTo ⟨some ⟨⟨1, 0⟩, ⟨1, 1⟩⟩, "x;".toList⟩ tabbedText = "\x0bx;\nx".toList := by
  decide +kernel

end MacroScript
