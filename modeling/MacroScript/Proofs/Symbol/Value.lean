import MacroScript.Proofs.Line.Comment
import MacroScript.Proofs.Line.Mask
import MacroScript.Proofs.Token.Span
import MacroScript.Symbol.Collector

/-!
# Where values stand

The reader takes the places of a value from the code of a line, and its characters from the line as
it was typed. A value starts after an equals sign and stops at a semicolon or with the code
(`Collector.exists_valueStop`), so **it stops within the code**, its ends are boundaries of the line
(`Line.isBoundary_valueStop`), and lines that read alike have the same values
(`Line.ReadsAlike.initializer`) and are read alike (`Line.ReadsAlike.readLine`). A value has the
hollow literals of its code, which two lines with the same code have in common
(`Collector.exists_value`).
-/
namespace MacroScript

open Text

/-! ## 1. The span of a value -/

namespace Collector

/-- What the search for the end of a value finds is a semicolon, and the value is all before it. -/
theorem exists_of_semicolonFrom {depth : Int} {offset n : Nat} {t : Text}
    (h : semicolonFrom depth offset t = some n) :
    ∃ value back, t = value ++ ';' :: back ∧ n = offset + byteSize value := by
  fun_induction semicolonFrom depth offset t with
  | case1 => simp at h
  | case2 depth offset c cs hc =>
    rw [Bool.and_eq_true, decide_eq_true_eq] at hc
    exact ⟨[], cs, by rw [hc.1, List.nil_append], by simpa using h.symm⟩
  | case3 depth offset c cs hc ih =>
    obtain ⟨value, back, rfl, rfl⟩ := ih h
    exact ⟨c :: value, back, rfl, by rw [byteSize_cons, Nat.add_assoc]⟩

/-- **A value stops at a semicolon or with the code**, so that what is behind its end is a semicolon
or nothing. -/
theorem exists_valueStop (front rest : Text) :
    ∃ value back, rest = value ++ back ∧
      valueStop (front ++ rest) (byteSize front) = byteSize (front ++ value) ∧
      (back = [] ∨ back.head? = some ';') := by
  unfold valueStop
  rw [dropBytes_byteSize_append]
  cases hstop : semicolonFrom 0 (byteSize front) rest with
  | none => exact ⟨rest, [], (List.append_nil _).symm, rfl, .inl rfl⟩
  | some n =>
    obtain ⟨value, back, rfl, rfl⟩ := exists_of_semicolonFrom hstop
    exact ⟨value, ';' :: back, rfl, (byteSize_append front value).symm, .inr rfl⟩

/-- A value does not stop beyond the code, even if a comment comes after it on the line. -/
theorem valueStop_le {code : Text} {start : Nat} (h : isBoundary start code) :
    valueStop code start ≤ byteSize code := by
  obtain ⟨front, rest, rfl, rfl⟩ := isBoundary_iff.mp h
  obtain ⟨value, back, rfl, hstop, -⟩ := exists_valueStop front rest
  rw [hstop, ← List.append_assoc, byteSize_append (front ++ value)]
  omega

/-- A value starts right after an equals sign, which is one byte, and so at a boundary of the code.
-/
theorem isBoundary_valueOffset {code : Text} {assign : Token} (h : assign ∈ Token.scan code)
    (hassigns : assign.assigns) : isBoundary assign.valueOffset code := by
  obtain ⟨front, back, heq, hsize⟩ := Token.standsAt_equals h hassigns
  refine isBoundary_iff.mpr ⟨front ++ ['='], back, heq, ?_⟩
  rw [byteSize_append, hsize]
  rfl

end Collector

section Assignment

variable {l : Line} {assign : Token} (h : assign ∈ Token.scan l.code) (hassigns : assign.assigns)

include h hassigns

/-- The start of a value is a boundary of the line as well: an equals sign of the code stands on the
line outside literals. -/
theorem Line.isBoundary_value : isBoundary assign.valueOffset l.raw :=
  (InSight.after (Token.standsAt_equals h hassigns) (by decide)).isBoundary

/-- **The end of a value is a boundary of the line**, as it is the end of the code or has a
semicolon behind it. -/
theorem Line.isBoundary_valueStop :
    isBoundary (Collector.valueStop l.code assign.valueOffset) l.raw ∧
      assign.valueOffset ≤ Collector.valueStop l.code assign.valueOffset := by
  obtain ⟨front, rest, hcode, hstart⟩ :=
    isBoundary_iff.mp (Collector.isBoundary_valueOffset h hassigns)
  obtain ⟨value, back, rfl, hstop, hend⟩ := Collector.exists_valueStop front rest
  rw [← hcode, hstart] at hstop
  rw [← List.append_assoc] at hcode
  refine ⟨?_, by rw [hstop, ← hstart, byteSize_append]; exact Nat.le_add_right _ _⟩
  rw [hstop]
  rcases hend with rfl | hsemicolon
  · rw [← List.append_nil (front ++ value), ← hcode]
    exact InSight.stop.isBoundary
  · obtain ⟨back, rfl⟩ := List.head?_eq_some_iff.mp hsemicolon
    have hstands : StandsAt l.code (byteSize (front ++ value)) [';'] :=
      ⟨front ++ value, back, by rw [hcode, List.append_assoc (front ++ value)]; rfl, rfl⟩
    exact (InSight.before hstands (by decide)).isBoundary

end Assignment

/-! ## 2. The characters of a value -/

namespace Collector

/-- **A value is a part of its line outside literals, and its mask is the value in the code.** Both
its ends are signs that the mask leaves alone, so that cutting commutes with masking. -/
theorem exists_value {l : Line} {assign : Token} (h : assign ∈ Token.scan l.code)
    (hassigns : assign.assigns) :
    ∃ front value back, l.body = front ++ value ++ back ∧
      Quoting.outside.past isDoubleQuote front = .outside ∧
      mask value =
        between assign.valueOffset (valueStop l.code assign.valueOffset) l.code ∧
      initializer l assign.valueOffset = trim value := by
  obtain ⟨u, v, hcode, hoffset⟩ := Token.standsAt_equals h hassigns
  rw [List.append_assoc, List.singleton_append] at hcode
  have hmask := l.code_eq_mask
  obtain ⟨front, rest, hbody, hfront, hafter, hrest⟩ :=
    exists_of_mask_eq (hmask.symm.trans hcode) (by decide) (by decide)
  have hstart : byteSize (u ++ ['=']) = assign.valueOffset := by
    rw [byteSize_append, hoffset]
    rfl
  have hcode' : l.code = (u ++ ['=']) ++ v := by rw [hcode, List.append_assoc]; rfl
  -- the value ends with the code, or at a semicolon, which is not blanked either
  obtain ⟨cvalue, cback, rfl, hstop, hend⟩ := exists_valueStop (u ++ ['=']) v
  obtain ⟨value, back, rfl, hvalue⟩ : ∃ value back, rest = value ++ back ∧ mask value = cvalue := by
    rcases hend with rfl | hsemicolon
    · exact ⟨rest, [], (List.append_nil _).symm, by rw [hrest, List.append_nil]⟩
    · obtain ⟨cback, rfl⟩ := List.head?_eq_some_iff.mp hsemicolon
      obtain ⟨value, back, rfl, hvalue, -, -⟩ := exists_of_mask_eq hrest (by decide) (by decide)
      exact ⟨value, ';' :: back, rfl, hvalue⟩
  rw [hstart, ← hcode'] at hstop
  have hfrontSize : byteSize (front ++ ['=']) = assign.valueOffset := by
    rw [← hstart, ← hfront, byteSize_append, byteSize_append, mask, byteSize_maskFrom]
  have hvalueSize : byteSize value = byteSize cvalue := by
    rw [← hvalue, mask, byteSize_maskFrom]
  refine ⟨front ++ ['='], value, back, by rw [hbody]; simp, hafter, ?_, ?_⟩
  · rw [hvalue, hstop, hcode', ← hstart, byteSize_append (u ++ ['=']) cvalue, between_append]
  · obtain ⟨tail, hraw⟩ := l.exists_raw_eq
    have hstands : StandsAt l.raw assign.valueOffset value :=
      ⟨front ++ ['='], back ++ tail, by rw [hraw, hbody]; simp, hfrontSize⟩
    have hstopSize : valueStop l.code assign.valueOffset =
        assign.valueOffset + byteSize value := by
      rw [hstop, byteSize_append (u ++ ['=']) cvalue, hstart, hvalueSize]
    rw [initializer, hstopSize, hstands.slice?_eq, Option.getD_some]

end Collector

/-! ## 3. Values of lines that read alike -/

namespace Line.ReadsAlike

variable {l l' : Line} (h : l.ReadsAlike l')

include h

/-- A value is within the code, and lines that read alike have the same characters there. -/
theorem initializer {start : Nat} (hstart : isBoundary start l.code) :
    Collector.initializer l' start = Collector.initializer l start := by
  rw [Collector.initializer, Collector.initializer, h.code,
    h.slice? start _ (Collector.valueStop_le hstart)]

/-- The items of a loop end with a bracket of the code or with the code, so they are within it too.
-/
theorem loopItems (separator : Token) :
    Collector.loopItems l' separator (Token.scan l.code) =
      Collector.loopItems l separator (Token.scan l.code) := by
  simp only [Collector.loopItems, h.code]
  split
  · next closer hcloser =>
    have hmem : closer ∈ Token.scan l.code :=
      List.mem_reverse.mp (List.mem_of_find?_eq_some hcloser)
    have hstop := (Token.standsAt_of_mem_scan hmem).stop_le
    rw [h.slice? _ _ (Nat.le_trans (Nat.le_add_right _ _) hstop)]
  · rw [h.slice? _ _ (Nat.le_refl _)]

/-- What a loop variable is given at first is one of these two. -/
theorem loopValue (c : Collector) {next : Option Token}
    (hnext : ∀ t ∈ next, t ∈ Token.scan l.code) :
    c.loopValue l' (Token.scan l.code) next = c.loopValue l (Token.scan l.code) next := by
  cases next with
  | none => rfl
  | some t =>
    simp only [Collector.loopValue, h.loopItems, h.index]
    split
    · next hassigns =>
      rw [h.initializer (Collector.isBoundary_valueOffset (hnext t rfl) hassigns)]
    · rfl

theorem declaredVariable? (c : Collector) (keyword : Token) :
    c.declaredVariable? l' keyword (Token.scan l.code) =
      c.declaredVariable? l keyword (Token.scan l.code) := by
  simp only [Collector.declaredVariable?, h.code, h.index]
  cases hassign : (Token.scan l.code).find? Token.assigns with
  | none => rfl
  | some assign =>
    have hstart := Collector.isBoundary_valueOffset (List.mem_of_find?_eq_some hassign)
      (List.find?_some hassign)
    simp only [h.initializer hstart]

theorem declaredLoopVariable? (c : Collector) :
    c.declaredLoopVariable? l' (Token.scan l.code) =
      c.declaredLoopVariable? l (Token.scan l.code) := by
  unfold Collector.declaredLoopVariable?
  split
  · next first opener keyword name rest htokens =>
    have hnext : ∀ t ∈ rest.head?, t ∈ Token.scan l.code := by
      intro t ht
      have hmem : t ∈ rest := List.mem_of_mem_head? ht
      simp [htokens, hmem]
    rw [h.loopValue c hnext]
  · rfl

theorem recordAssignment (c : Collector) :
    c.recordAssignment l' (Token.scan l.code) = c.recordAssignment l (Token.scan l.code) := by
  unfold Collector.recordAssignment
  split
  · next target assign rest htokens =>
    rw [h.index]
    split
    · next hassign =>
      rw [Bool.and_eq_true] at hassign
      rw [h.initializer (Collector.isBoundary_valueOffset (by simp [htokens]) hassign.2)]
    · rfl
  · rfl

/-- **Lines that read alike are read alike**: all that the reader takes from the characters of a
line are values. -/
theorem readLine (c : Collector) : c.readLine l' = c.readLine l := by
  have hstatement (c : Collector) (first : Token) :
      c.readStatement l' first (Token.scan l.code) =
        c.readStatement l first (Token.scan l.code) := by
    simp only [Collector.readStatement, h.declaredVariable?, h.declaredLoopVariable?,
      h.recordAssignment, h.index]
  simp only [Collector.readLine, h.code]
  cases htokens : Token.scan l.code with
  | nil => rfl
  | cons first rest =>
    simp only [Collector.readFirst, Collector.readHeader, h.code, h.index, ← htokens, hstatement]

end Line.ReadsAlike

end MacroScript
