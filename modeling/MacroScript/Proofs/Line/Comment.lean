import MacroScript.Proofs.Line.Code

/-!
# Lines and their comments

The code of a line stops where its comment starts. What stands there does not matter as long as it
is a comment or nothing: **a line whose comment is taken away or replaced keeps its code**, and the
characters and columns under the code (`Line.Recomments.readsAlike`). The only question that is
asked of the comment itself, whether the line holds nothing else, has an answer that the code gives
as well (`Line.isCode_eq`).
-/
namespace MacroScript

open Text

/-! ## 1. Cuts within a front part -/

namespace Text

/-- Bytes that are taken from a front part do not depend on what comes behind it. -/
theorem takeBytes_append_of_le {u : Text} {n : Nat} (h : n ≤ byteSize u) (v : Text) :
    takeBytes n (u ++ v) = takeBytes n u := by
  induction u generalizing n with
  | nil =>
    obtain rfl : n = 0 := Nat.le_zero.mp h
    exact takeBytes_byteSize_append [] v
  | cons c u ih =>
    rw [byteSize_cons] at h
    rw [List.cons_append, takeBytes, takeBytes]
    split
    · rw [ih (by omega)]
    · rfl

/-- If they are dropped, what comes behind is left as it is. -/
theorem dropBytes_append_of_le {u : Text} {n : Nat} (h : n ≤ byteSize u) (v : Text) :
    dropBytes n (u ++ v) = dropBytes n u ++ v := by
  have hwhole : takeBytes n u ++ dropBytes n (u ++ v) = takeBytes n u ++ (dropBytes n u ++ v) := by
    rw [← List.append_assoc, takeBytes_append_dropBytes, ← takeBytes_append_of_le h v,
      takeBytes_append_dropBytes]
  exact List.append_cancel_left hwhole

theorem le_byteSize_dropBytes (n : Nat) (t : Text) : byteSize t ≤ n + byteSize (dropBytes n t) := by
  have hsum := congrArg byteSize (takeBytes_append_dropBytes n t)
  rw [byteSize_append] at hsum
  have hle := byteSize_takeBytes_le n t
  omega

/-- A slice that ends within a front part is a slice of it, or fails for the same reason. -/
theorem slice?_append_of_le {u : Text} {stop : Nat} (h : stop ≤ byteSize u) (start : Nat)
    (v : Text) : slice? start stop (u ++ v) = slice? start stop u := by
  unfold slice?
  by_cases hstart : start ≤ stop
  · have hle : stop - start ≤ byteSize (dropBytes start u) := by
      have := le_byteSize_dropBytes start u
      omega
    have hbetween : between start stop (u ++ v) = between start stop u := by
      rw [between, between, dropBytes_append_of_le (by omega), takeBytes_append_of_le hle]
    rw [hbetween, isBoundary, isBoundary, takeBytes_append_of_le (by omega),
      takeBytes_append_of_le h, ← isBoundary, ← isBoundary]
  · simp [hstart]

/-- The column of an offset in a front part is told by that part. -/
theorem columnOf_append_of_le {u : Text} {n : Nat} (h : n ≤ byteSize u) (v : Text) :
    columnOf (u ++ v) n = columnOf u n := by
  rw [columnOf, columnOf, takeBytes_append_of_le h]

end Text

/-! ## 2. The code in front of a comment -/

/-- Code that stops before the line does stops at a comment. Any other comment in its place, or
none, leaves the code as it is. -/
theorem exists_comment {quoting : Quoting} {raw : Text}
    (h : byteSize (codeFrom quoting raw) < byteSize raw) :
    ∃ body comment, raw = body ++ comment ∧ byteSize body = byteSize (codeFrom quoting raw) ∧
      ['/', '/'] <+: comment ∧
      ∀ tail, tail = [] ∨ ['/', '/'] <+: tail →
        codeFrom quoting (body ++ tail) = codeFrom quoting raw := by
  fun_induction codeFrom quoting raw with
  | case1 => simp at h
  | case2 c cs hslashes =>
    rw [Bool.and_eq_true, decide_eq_true_eq, decide_eq_true_eq] at hslashes
    obtain ⟨rfl, hnext⟩ := hslashes
    obtain ⟨rest, rfl⟩ := List.head?_eq_some_iff.mp hnext
    refine ⟨[], _, rfl, rfl, ⟨rest, rfl⟩, ?_⟩
    rintro tail (rfl | ⟨rest', rfl⟩)
    · rfl
    · simp [codeFrom]
  | case3 c cs hslashes ih =>
    rw [byteSize_cons, byteSize_cons] at h
    obtain ⟨body, comment, rfl, hsize, hcomment, hsame⟩ := ih (by omega)
    refine ⟨c :: body, comment, rfl, by rw [byteSize_cons, byteSize_cons, hsize], hcomment,
      fun tail htail => ?_⟩
    -- a slash right before the comment would be part of it
    have hkept : ¬(c = '/' && (body ++ tail).head? = some '/') = true := by
      intro hnew
      apply hslashes
      rw [Bool.and_eq_true, decide_eq_true_eq, decide_eq_true_eq] at hnew ⊢
      refine ⟨hnew.1, ?_⟩
      cases body with
      | nil =>
        obtain ⟨rest, rfl⟩ := hcomment
        rfl
      | cons d body => exact hnew.2
    rw [List.cons_append, codeFrom, if_neg hkept, hsame tail htail]
  | case4 q e c cs hnext ih =>
    rw [byteSize_cons, byteSize_cons] at h
    obtain ⟨body, comment, rfl, hsize, hcomment, hsame⟩ := ih (by omega)
    refine ⟨c :: body, comment, rfl, by rw [byteSize_cons, byteSize_cons, hsize], hcomment,
      fun tail htail => ?_⟩
    rw [List.cons_append, codeFrom, hnext]
    exact congrArg (c :: ·) (hsame tail htail)
  | case5 q e c cs q' e' hnext ih =>
    rw [byteSize_append, byteSize_replicate_space, byteSize_cons] at h
    obtain ⟨body, comment, rfl, hsize, hcomment, hsame⟩ := ih (by omega)
    refine ⟨c :: body, comment, rfl, ?_, hcomment, fun tail htail => ?_⟩
    · rw [byteSize_cons, byteSize_append, byteSize_replicate_space, hsize]
    · rw [List.cons_append, codeFrom, hnext]
      exact congrArg (List.replicate c.utf8Size ' ' ++ ·) (hsame tail htail)

/-- White space in front of a line is code, and leads into neither a literal nor a comment. -/
theorem codeOf_append_of_isAllBlank {u : Text} (h : isAllBlank u) (v : Text) :
    codeOf (u ++ v) = u ++ codeOf v := by
  induction u with
  | nil => rfl
  | cons c u ih =>
    rw [isAllBlank, List.all_cons, Bool.and_eq_true] at h
    have hslash : c ≠ '/' := by rintro rfl; exact absurd h.1 (by decide)
    have hquote : c ≠ '"' := by rintro rfl; exact absurd h.1 (by decide)
    have hnext : Quoting.outside.next isDoubleQuote c = .outside := by
      simp [Quoting.next, isDoubleQuote, hquote]
    rw [List.cons_append, codeOf, codeFrom, hnext]
    simp only [hslash, decide_false, Bool.false_and, Bool.false_eq_true, if_false]
    exact congrArg (c :: ·) (ih h.2)

namespace Line

/-- A line that holds nothing but a comment has no code: its code is the white space in front of the
comment. -/
theorem isEmpty_of_isComment {l : Line} (h : l.isComment) : l.isEmpty := by
  obtain ⟨rest, hrest⟩ := List.isPrefixOf_iff_prefix.mp h
  have hblank : isAllBlank (l.raw.takeWhile isBlank) := List.all_takeWhile
  have hsplit : l.raw = l.raw.takeWhile isBlank ++ (['/', '/'] ++ rest) := by
    rw [hrest, trimStart, List.takeWhile_append_dropWhile]
  have hcode : l.code = l.raw.takeWhile isBlank := by
    rw [code, hsplit, codeOf_append_of_isAllBlank hblank, ← hsplit]
    simp [codeOf, codeFrom]
  rw [isEmpty, hcode, hblank]

/-- **Whether a line takes part in the analysis can be seen from its code.** That the line is no
comment need not be asked. -/
theorem isCode_eq (l : Line) : l.isCode = !l.isEmpty := by
  unfold isCode
  cases hcomment : l.isComment with
  | false => rfl
  | true => simp [isEmpty_of_isComment hcomment]

/-- A character of the code that is not white space makes the line code. -/
theorem isCode_of_mem {l : Line} {c : Char} (hmem : c ∈ l.code) (hc : isBlank c = false) :
    l.isCode := by
  rw [isCode_eq, Bool.not_eq_true', ← Bool.not_eq_true]
  intro hempty
  rw [List.all_eq_true.mp hempty c hmem] at hc
  contradiction

/-! ## 3. Lines that read alike -/

/-- The two lines have the same number and the same code, and the same characters and columns under
it. This is all that the analysis takes from a line. -/
structure ReadsAlike (l l' : Line) : Prop where
  index : l'.index = l.index
  code : l'.code = l.code
  slice? : ∀ start stop, stop ≤ byteSize l.code →
    Text.slice? start stop l'.raw = Text.slice? start stop l.raw
  columnOf : ∀ n ≤ byteSize l.code, Text.columnOf l'.raw n = Text.columnOf l.raw n

theorem ReadsAlike.isCode {l l' : Line} (h : l.ReadsAlike l') : l'.isCode = l.isCode := by
  rw [isCode_eq, isCode_eq, isEmpty, isEmpty, h.code]

/-- Lines with a common front part under their code read alike, whatever comes behind it. -/
theorem ReadsAlike.of_body {l l' : Line} {body tail tail' : Text} (hindex : l'.index = l.index)
    (hcode : l'.code = l.code) (hraw : l.raw = body ++ tail) (hraw' : l'.raw = body ++ tail')
    (hsize : byteSize body = byteSize l.code) : l.ReadsAlike l' := by
  refine ⟨hindex, hcode, fun start stop hstop => ?_, fun n hn => ?_⟩
  · rw [← hsize] at hstop
    rw [hraw, hraw', slice?_append_of_le hstop, slice?_append_of_le hstop]
  · rw [← hsize] at hn
    rw [hraw, hraw', columnOf_append_of_le hn, columnOf_append_of_le hn]

/-- A comment follows the code of the line: nothing else can end the code before the line does. -/
def hasComment (l : Line) : Bool :=
  byteSize l.code < byteSize l.raw

/-- The characters of the line under its code, which are those in front of its comment. -/
def body (l : Line) : Text :=
  takeBytes (byteSize l.code) l.raw

/-- The second line is the first one with its comment left, taken away, or replaced by another.
Where the line starts in the document does not matter. -/
inductive Recomments : Line → Line → Prop
  | kept (index offset offset' : Nat) (raw : Text) :
      Recomments ⟨index, offset, raw⟩ ⟨index, offset', raw⟩
  | removed (l : Line) (offset' : Nat) (h : l.hasComment) :
      Recomments l ⟨l.index, offset', l.body⟩
  | replaced (l : Line) (offset' : Nat) (comment : Text) (h : l.hasComment)
      (hcomment : ['/', '/'] <+: comment) : Recomments l ⟨l.index, offset', l.body ++ comment⟩

/-- With anything that ends code in the place of its comment, a line reads as before. -/
theorem readsAlike_of_hasComment {l : Line} (h : l.hasComment) (offset' : Nat) {tail : Text}
    (htail : tail = [] ∨ ['/', '/'] <+: tail) :
    l.ReadsAlike ⟨l.index, offset', l.body ++ tail⟩ := by
  rw [hasComment, decide_eq_true_eq] at h
  obtain ⟨front, comment, hraw, hsize, -, hsame⟩ := exists_comment h
  have hsize : byteSize front = byteSize l.code := hsize
  have hbody : l.body = front := by
    rw [body, ← hsize, hraw, takeBytes_byteSize_append]
  rw [hbody]
  exact .of_body rfl (hsame tail htail) hraw rfl hsize

/-- **A line reads alike whatever becomes of its comment**, if it is left, taken away or replaced.
-/
theorem Recomments.readsAlike {l l' : Line} (h : l.Recomments l') : l.ReadsAlike l' := by
  cases h with
  | kept index offset offset' raw => exact ⟨rfl, rfl, fun _ _ _ => rfl, fun _ _ => rfl⟩
  | removed _ offset' h =>
    have halike := readsAlike_of_hasComment h offset' (.inl rfl)
    rwa [List.append_nil] at halike
  | replaced _ offset' comment h hcomment =>
    exact readsAlike_of_hasComment h offset' (.inr hcomment)

end Line

end MacroScript
