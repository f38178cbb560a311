import MacroScript.Position

/-!
# The measures and cuts of a text

What the operations on texts do, in terms of lists. A byte offset cuts a text in two, and the two
pieces make up the text again; the parts between separators, joined, are the text again. Both cuts
lose nothing, whatever the offset or the separator.
-/
namespace MacroScript

namespace Text

/-! ## Bytes -/

@[simp] theorem byteSize_nil : byteSize [] = 0 := rfl

@[simp] theorem byteSize_cons (c : Char) (cs : Text) :
    byteSize (c :: cs) = c.utf8Size + byteSize cs := rfl

/-- The measure is additive. -/
@[simp] theorem byteSize_append (t u : Text) : byteSize (t ++ u) = byteSize t + byteSize u := by
  induction t with
  | nil => simp
  | cons c cs ih => simp [ih, Nat.add_assoc]

/-- Only the empty text has no bytes. -/
theorem byteSize_eq_zero {t : Text} : byteSize t = 0 ↔ t = [] := by
  cases t with
  | nil => simp
  | cons c cs =>
    have hc := c.utf8Size_pos
    simp only [byteSize_cons, reduceCtorEq, iff_false]
    omega

/-- **A cut loses nothing.** -/
@[simp] theorem takeBytes_append_dropBytes (n : Nat) (t : Text) :
    takeBytes n t ++ dropBytes n t = t := by
  induction t generalizing n with
  | nil => simp [takeBytes, dropBytes]
  | cons c cs ih =>
    by_cases h : c.utf8Size ≤ n
    · simp [takeBytes, dropBytes, h, ih]
    · simp [takeBytes, dropBytes, h]

/-- What is taken fits into the bytes given. -/
theorem byteSize_takeBytes_le (n : Nat) (t : Text) : byteSize (takeBytes n t) ≤ n := by
  induction t generalizing n with
  | nil => simp [takeBytes]
  | cons c cs ih =>
    by_cases h : c.utf8Size ≤ n
    · have := ih (n - c.utf8Size)
      simp only [takeBytes, h, if_true, byteSize_cons]
      omega
    · simp [takeBytes, h]

/-- A cut at the end of a front part gives the front part. -/
@[simp] theorem takeBytes_byteSize_append (t u : Text) : takeBytes (byteSize t) (t ++ u) = t := by
  induction t with
  | nil =>
    cases u with
    | nil => rfl
    | cons c cs =>
      have hc := c.utf8Size_pos
      have h : ¬c.utf8Size ≤ 0 := by omega
      simp [takeBytes, h]
  | cons c cs ih => simp [takeBytes, ih]

/-- A cut at the end of a front part leaves the rest. -/
@[simp] theorem dropBytes_byteSize_append (t u : Text) : dropBytes (byteSize t) (t ++ u) = u := by
  have h := takeBytes_append_dropBytes (byteSize t) (t ++ u)
  rw [takeBytes_byteSize_append] at h
  exact List.append_cancel_left h

@[simp] theorem dropBytes_zero (t : Text) : dropBytes 0 t = t :=
  dropBytes_byteSize_append [] t

/-- The bytes from the end of a front part to the end of the middle are the middle. -/
theorem between_append (t u v : Text) :
    between (byteSize t) (byteSize t + byteSize u) (t ++ (u ++ v)) = u := by
  simp [between]

@[simp] theorem between_whole (t : Text) : between 0 (byteSize t) t = t := by
  have h := between_append [] t []
  rwa [byteSize_nil, Nat.zero_add, List.append_nil] at h

/-- **Boundaries are the ends of front parts.** -/
theorem isBoundary_iff {n : Nat} {t : Text} :
    isBoundary n t = true ↔ ∃ u v, t = u ++ v ∧ byteSize u = n := by
  constructor
  · intro h
    exact ⟨takeBytes n t, dropBytes n t, (takeBytes_append_dropBytes n t).symm, by
      simpa [isBoundary] using h⟩
  · rintro ⟨u, v, rfl, rfl⟩
    simp [isBoundary]

/-! ## Units -/

@[simp] theorem utf16Length_nil : utf16Length [] = 0 := rfl

@[simp] theorem utf16Length_cons (c : Char) (cs : Text) :
    utf16Length (c :: cs) = utf16Size c + utf16Length cs := rfl

/-- The measure is additive. -/
@[simp] theorem utf16Length_append (t u : Text) :
    utf16Length (t ++ u) = utf16Length t + utf16Length u := by
  induction t with
  | nil => simp
  | cons c cs ih => simp [ih, Nat.add_assoc]

/-- Every character takes a unit. -/
theorem utf16Size_pos (c : Char) : 0 < utf16Size c := by
  unfold utf16Size
  split <;> omega

/-- Taking units gives a front part. -/
theorem takeUnits_isPrefix (n : Nat) (t : Text) : takeUnits n t <+: t := by
  induction t generalizing n with
  | nil => cases n <;> simp [takeUnits]
  | cons c cs ih =>
    cases n with
    | zero => simp [takeUnits]
    | succ n =>
      rw [takeUnits]
      exact List.cons_prefix_cons.mpr ⟨rfl, ih _⟩

/-! ## Parts -/

/-- A character put in front of the first part stands in front of what is joined. -/
theorem intercalate_modifyHead (sep : Text) (c : Char) {parts : List Text} (h : parts ≠ []) :
    List.intercalate sep (parts.modifyHead (List.cons c)) = c :: List.intercalate sep parts := by
  obtain ⟨part, parts, rfl⟩ := List.exists_cons_of_ne_nil h
  exact List.intercalate_cons_cons_left

/-- The parts of a text, read off its first character: a separator ends an empty part, any other
character belongs to the first part of the rest. -/
theorem splitOn_cons (sep c : Char) (cs : Text) :
    List.splitOn sep (c :: cs) =
      if c = sep then [] :: List.splitOn sep cs
      else (List.splitOn sep cs).modifyHead (List.cons c) := by
  simp [List.splitOn_cons_eq_if_modifyHead]

/-- No part holds the separator. -/
theorem not_mem_of_mem_splitOn {sep : Char} {t part : Text} (h : part ∈ List.splitOn sep t) :
    sep ∉ part := by
  induction t generalizing part with
  | nil =>
    have : part = [] := by simpa using h
    simp [this]
  | cons c cs ih =>
    by_cases hc : c = sep
    · rw [splitOn_cons, if_pos hc] at h
      rcases List.mem_cons.mp h with rfl | h
      · simp
      · exact ih h
    · rw [splitOn_cons, if_neg hc] at h
      cases hs : List.splitOn sep cs with
      | nil => exact absurd hs (List.splitOn_ne_nil sep cs)
      | cons first parts =>
        rw [hs] at h ih
        rcases List.mem_cons.mp h with rfl | h
        · have hfirst : sep ∉ first := ih List.mem_cons_self
          intro hm
          rcases List.mem_cons.mp hm with rfl | hm
          · exact hc rfl
          · exact hfirst hm
        · exact ih (List.mem_cons_of_mem _ h)

end Text

end MacroScript
