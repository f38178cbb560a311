import MacroScript.Line
import MacroScript.Proofs.Text.Column

/-!
# The code of a line and the line

The code of a line has the bytes of the line up to a trailing comment. A character is kept as it is
or blanked, and then leaves as many spaces as it had bytes. So **an offset into the code can fall
inside a character of the line only between two spaces**, and an offset next to any other character
is a boundary of the line as well. So is the end of a space that follows a character other than a
quote, since what follows such a character is not blanked.
-/
namespace MacroScript

open Text

/-! ## 1. Code aligned with a line -/

/-- A blanked character has as many spaces as it had bytes, and a space is one byte. -/
theorem Text.byteSize_replicate_space (n : Nat) : byteSize (List.replicate n ' ') = n := by
  induction n with
  | zero => rfl
  | succ n ih =>
    have hspace : ' '.utf8Size = 1 := rfl
    rw [List.replicate_succ, byteSize_cons, ih, hspace, Nat.add_comm]

/-- The code is aligned with the rest of a line, from a place inside a string literal or not. It
ends with the line or at a comment. Which quotes end which literal is forgotten here; all that is
kept is that blanks come in runs between quotes. -/
inductive Aligned : Bool → Text → Text → Prop
  /-- The code ends here. -/
  | stop (inside : Bool) (raw : Text) (h : raw = [] ∨ ['/', '/'] <+: raw) : Aligned inside raw []
  /-- A character is kept. Only a quote can have a string literal after it. -/
  | keep (inside after : Bool) (c : Char) (raw code : Text) (hafter : c ≠ '"' → after = false)
      (rest : Aligned after raw code) : Aligned inside (c :: raw) (c :: code)
  /-- A character inside a string literal is blanked. -/
  | blank (c : Char) (raw code : Text) (rest : Aligned true raw code) :
      Aligned true (c :: raw) (List.replicate c.utf8Size ' ' ++ code)

/-- The scan that makes the code of a line makes it in such steps. -/
theorem aligned_codeFrom (quoting : Quoting) (raw : Text) :
    Aligned quoting.isInside raw (codeFrom quoting raw) := by
  fun_induction codeFrom quoting raw with
  | case1 => exact .stop _ _ (.inl rfl)
  | case2 c cs h =>
    rw [Bool.and_eq_true, decide_eq_true_eq, decide_eq_true_eq] at h
    obtain ⟨rfl, hnext⟩ := h
    obtain ⟨rest, rfl⟩ := List.head?_eq_some_iff.mp hnext
    exact .stop _ _ (.inr ⟨rest, rfl⟩)
  | case3 c cs h ih =>
    refine .keep _ _ c cs _ (fun hc => ?_) ih
    simp [Quoting.next, isDoubleQuote, hc, Quoting.isInside]
  | case4 q e c cs hnext ih => exact .keep _ _ c cs _ (fun _ => rfl) ih
  | case5 q e c cs q' e' hnext ih => exact .blank c cs _ ih

theorem Line.aligned (l : Line) : Aligned false l.raw l.code :=
  aligned_codeFrom .outside l.raw

namespace Aligned

variable {inside : Bool} {raw code : Text}

/-- **The code has the bytes of the line up to a comment**, so that its end is a boundary of the
line. -/
theorem exists_stop (h : Aligned inside raw code) :
    ∃ body tail, raw = body ++ tail ∧ byteSize body = byteSize code ∧
      (tail = [] ∨ ['/', '/'] <+: tail) := by
  induction h with
  | stop inside raw h => exact ⟨[], raw, rfl, rfl, h⟩
  | keep inside after c raw code hafter rest ih =>
    obtain ⟨body, tail, rfl, hsize, htail⟩ := ih
    exact ⟨c :: body, tail, rfl, by rw [byteSize_cons, byteSize_cons, hsize], htail⟩
  | blank c raw code rest ih =>
    obtain ⟨body, tail, rfl, hsize, htail⟩ := ih
    refine ⟨c :: body, tail, rfl, ?_, htail⟩
    rw [byteSize_cons, byteSize_append, hsize, byteSize_replicate_space]

/-- A cut of the code that does not fall between two spaces is a cut of the line. The induction goes
along the line, and only the spaces of a blanked character can be cut where the character cannot. -/
theorem isBoundary_of_ne_space (h : Aligned inside raw code) {u v : Text} (hcode : code = u ++ v)
    (hsight : u.getLast? ≠ some ' ' ∨ v.head? ≠ some ' ') : isBoundary (byteSize u) raw := by
  rw [isBoundary_iff]
  induction h generalizing u with
  | stop inside raw h =>
    obtain ⟨rfl, rfl⟩ := List.append_eq_nil_iff.mp hcode.symm
    exact ⟨[], raw, rfl, rfl⟩
  | keep inside after c raw code hafter rest ih =>
    cases u with
    | nil => exact ⟨[], c :: raw, rfl, rfl⟩
    | cons d u =>
      obtain ⟨rfl, rfl⟩ := List.cons.inj hcode
      obtain ⟨body, tail, rfl, hsize⟩ := ih rfl (by
        cases u with
        | nil => exact .inl (by simp)
        | cons e u => simpa using hsight)
      exact ⟨c :: body, tail, rfl, by rw [byteSize_cons, byteSize_cons, hsize]⟩
  | blank c raw code rest ih =>
    rcases List.append_eq_append_iff.mp hcode with ⟨m, rfl, rfl⟩ | ⟨m, hspaces, rfl⟩
    · -- the cut comes after the blanked character
      obtain ⟨body, tail, rfl, hsize⟩ := ih rfl (by
        cases m with
        | nil => exact .inl (by simp)
        | cons e m => simpa [List.getLast?_append] using hsight)
      refine ⟨c :: body, tail, rfl, ?_⟩
      rw [byteSize_cons, byteSize_append, hsize, byteSize_replicate_space]
    · -- it falls among the spaces of the blanked character, so it is at one of its ends
      have hspace {d : Char} (hd : d ∈ u ++ m) : d = ' ' := by
        rw [← hspaces] at hd
        exact List.eq_of_mem_replicate hd
      cases m with
      | nil =>
        rw [List.append_nil] at hspaces
        exact ⟨[c], raw, rfl, by rw [← hspaces, byteSize_replicate_space]; rfl⟩
      | cons e m =>
        obtain rfl := hspace (d := e) (by simp)
        rcases List.eq_nil_or_concat u with rfl | ⟨u, d, rfl⟩
        · exact ⟨[], c :: raw, rfl, rfl⟩
        · obtain rfl := hspace (d := d) (by simp)
          simp at hsight

/-- The end of a space after a character other than a quote is a cut of the line, too: behind such a
character no literal is open, so the space is one of the line. -/
theorem isBoundary_after_space (h : Aligned inside raw code) {u v : Text} {x : Char}
    (hcode : code = u ++ x :: ' ' :: v) (hspace : x ≠ ' ') (hquote : x ≠ '"') :
    isBoundary (byteSize (u ++ [x, ' '])) raw := by
  rw [isBoundary_iff]
  induction h generalizing u with
  | stop inside raw h => simp at hcode
  | keep inside after c raw code hafter rest ih =>
    cases u with
    | nil =>
      -- what follows the character is not blanked
      obtain ⟨rfl, rfl⟩ := List.cons.inj hcode
      rw [hafter hquote] at rest
      cases rest with
      | keep _ _ _ raw _ _ rest => exact ⟨[c, ' '], raw, rfl, rfl⟩
    | cons d u =>
      obtain ⟨rfl, rfl⟩ := List.cons.inj hcode
      obtain ⟨body, tail, rfl, hsize⟩ := ih rfl
      exact ⟨c :: body, tail, rfl, by rw [byteSize_cons, hsize, List.cons_append, byteSize_cons]⟩
  | blank c raw code rest ih =>
    have hsplit : ∃ m, u = List.replicate c.utf8Size ' ' ++ m ∧ code = m ++ x :: ' ' :: v := by
      rcases List.append_eq_append_iff.mp hcode with hmiddle | ⟨m, hspaces, hrest⟩
      · exact hmiddle
      · cases m with
        | nil => exact ⟨[], by simpa using hspaces.symm, by simpa using hrest.symm⟩
        | cons e m =>
          obtain ⟨rfl, -⟩ := List.cons.inj hrest
          exact absurd (List.eq_of_mem_replicate (hspaces ▸ (by simp : x ∈ u ++ x :: m))) hspace
    obtain ⟨m, rfl, rfl⟩ := hsplit
    obtain ⟨body, tail, rfl, hsize⟩ := ih rfl
    refine ⟨c :: body, tail, rfl, ?_⟩
    rw [byteSize_cons, hsize, List.append_assoc, byteSize_append (List.replicate _ _),
      byteSize_replicate_space]

/-- A stretch of code without spaces stands in the line as well, at the same place. No part of it
can come from a blanked character. -/
theorem standsAt (h : Aligned inside raw code) {n : Nat} {t : Text} (hstands : StandsAt code n t)
    (hne : t ≠ []) (hspace : ∀ c ∈ t, c ≠ ' ') : StandsAt raw n t := by
  obtain ⟨u, v, hcode, rfl⟩ := hstands
  induction h generalizing u t with
  | stop inside raw h => simp_all
  | keep inside after c raw code hafter rest ih =>
    cases u with
    | nil =>
      obtain ⟨d, t, rfl⟩ := List.exists_cons_of_ne_nil hne
      obtain ⟨rfl, rfl⟩ := List.cons.inj hcode
      cases t with
      | nil => exact ⟨[], raw, rfl, rfl⟩
      | cons e t =>
        obtain ⟨body, tail, rfl, hsize⟩ := ih (by simp) (fun d hd => hspace d (by simp [hd])) [] rfl
        obtain rfl : body = [] := byteSize_eq_zero.mp hsize
        exact ⟨[], tail, rfl, rfl⟩
    | cons d u =>
      obtain ⟨rfl, rfl⟩ := List.cons.inj hcode
      exact (ih hne hspace u rfl).cons c
  | blank c raw code rest ih =>
    -- no blank is part of the stretch, so it comes after those of the blanked character
    have hsplit : ∃ m, u = List.replicate c.utf8Size ' ' ++ m ∧ code = m ++ t ++ v := by
      rw [List.append_assoc] at hcode
      rcases List.append_eq_append_iff.mp hcode with ⟨m, hm, hrest⟩ | ⟨m, hspaces, hrest⟩
      · exact ⟨m, hm, by rw [hrest, List.append_assoc]⟩
      · cases m with
        | nil => exact ⟨[], by simpa using hspaces.symm, by simpa using hrest.symm⟩
        | cons e m =>
          obtain ⟨d, t, rfl⟩ := List.exists_cons_of_ne_nil hne
          obtain ⟨rfl, -⟩ := List.cons.inj hrest
          have hmem : d ∈ List.replicate c.utf8Size ' ' := hspaces ▸ (by simp : d ∈ u ++ d :: m)
          exact absurd (List.eq_of_mem_replicate hmem) (hspace d List.mem_cons_self)
    obtain ⟨m, rfl, hm⟩ := hsplit
    have hcons := (ih hne hspace m hm).cons c
    rwa [byteSize_append, byteSize_replicate_space]

end Aligned

/-! ## 2. Offsets in sight -/

/-- The offset into the code is its end, or the start or end of a character other than a space, or
the end of a space right after a character that is neither space nor quote. These are the offsets
that can be told, from the code alone, to be boundaries of the line. -/
inductive InSight (code : Text) : Nat → Prop
  | stop : InSight code (byteSize code)
  | before {n : Nat} {c : Char} (h : StandsAt code n [c]) (hc : c ≠ ' ') : InSight code n
  | after {n : Nat} {c : Char} (h : StandsAt code n [c]) (hc : c ≠ ' ') :
      InSight code (n + c.utf8Size)
  | afterSpace {n : Nat} {c : Char} (h : StandsAt code n [c, ' ']) (hc : c ≠ ' ')
      (hquote : c ≠ '"') : InSight code (n + byteSize [c, ' '])

/-- An offset in sight is within the code. -/
theorem InSight.le {code : Text} {n : Nat} (h : InSight code n) : n ≤ byteSize code := by
  cases h with
  | stop => exact Nat.le_refl _
  | before h hc => exact Nat.le_trans (Nat.le_add_right _ _) h.stop_le
  | after h hc => simpa using h.stop_le
  | afterSpace h hc hquote => exact h.stop_le

/-- **An offset in sight is a boundary of the line**, in each of the four cases by one of the cuts
above. -/
theorem InSight.isBoundary {l : Line} {n : Nat} (h : InSight l.code n) : isBoundary n l.raw := by
  have haligned := l.aligned
  cases h with
  | stop =>
    exact haligned.isBoundary_of_ne_space (List.append_nil _).symm (.inr (by simp))
  | @before n c h hc =>
    obtain ⟨front, back, heq, rfl⟩ := h
    rw [List.append_assoc] at heq
    exact haligned.isBoundary_of_ne_space heq (.inr (by simpa using hc))
  | @after n c h hc =>
    obtain ⟨front, back, heq, rfl⟩ := h
    have hcut := haligned.isBoundary_of_ne_space heq (.inl (by simpa using hc))
    simpa using hcut
  | @afterSpace n c h hc hquote =>
    obtain ⟨front, back, heq, rfl⟩ := h
    rw [List.append_assoc] at heq
    have hcut := haligned.isBoundary_after_space heq hc hquote
    rwa [byteSize_append] at hcut

section Solid

variable {code t : Text} {n : Nat}

/-- A text that starts with no space has its start in sight. -/
theorem inSight_start (h : StandsAt code n t) (ht : t.isSolid) : InSight code n := by
  obtain ⟨c, cs, rfl, hc⟩ := exists_head_of_isSolid ht
  exact .before (h.of_isPrefix ⟨cs, rfl⟩) hc

/-- A text that ends with no space has its end in sight. -/
theorem inSight_stop (h : StandsAt code n t) (ht : t.isSolid) :
    InSight code (n + byteSize t) := by
  obtain ⟨cs, c, rfl, hc⟩ := exists_last_of_isSolid ht
  have hlast := InSight.after h.right hc
  rwa [byteSize_append, byteSize_cons, byteSize_nil, Nat.add_zero, ← Nat.add_assoc]

end Solid

/-! ## 3. The numbers of lines -/

/-- Lines are numbered upwards from the first number, one after the other. -/
theorem Line.number_index (index offset : Nat) (pieces : List Text) :
    ((Line.number index offset pieces).Pairwise fun l l' => l.index < l'.index) ∧
      ∀ l ∈ Line.number index offset pieces,
        index ≤ l.index ∧ l.index < index + (Line.number index offset pieces).length := by
  fun_induction Line.number index offset pieces with
  | case1 => simp
  | case2 => simp
  | case3 => simp
  | case4 index offset piece next pieces ih =>
    obtain ⟨hpairwise, hbounds⟩ := ih
    refine ⟨List.pairwise_cons.mpr ⟨fun l hl => ?_, hpairwise⟩, fun l hl => ?_⟩
    · exact (hbounds l hl).1
    · rw [List.length_cons]
      rcases List.mem_cons.mp hl with rfl | hl
      · simp only
        omega
      · have := hbounds l hl
        omega

/-- The number of a line is its place, counted from the first number. -/
theorem Line.index_number {index offset k : Nat} {pieces : List Text} {l : Line}
    (h : (Line.number index offset pieces)[k]? = some l) : l.index = index + k := by
  fun_induction Line.number index offset pieces generalizing k with
  | case1 => simp at h
  | case2 => simp at h
  | case3 index offset piece =>
    obtain ⟨rfl, rfl⟩ : k = 0 ∧ _ := by simpa [List.getElem?_singleton] using h
    rfl
  | case4 index offset piece next pieces ih =>
    cases k with
    | zero =>
      rw [List.getElem?_cons_zero, Option.some.injEq] at h
      rw [← h, Nat.add_zero]
    | succ k =>
      rw [List.getElem?_cons_succ] at h
      rw [ih h]
      omega

/-- In a document the number of a line is its place. -/
theorem Line.index_ofText {t : Text} {k : Nat} {l : Line} (h : (Line.ofText t)[k]? = some l) :
    l.index = k := by
  rw [Line.index_number h, Nat.zero_add]

/-- The first `n` lines are those with numbers below `n`. -/
theorem Line.index_lt_of_mem_take {t : Text} {n : Nat} {l : Line}
    (h : l ∈ (Line.ofText t).take n) : l.index < n := by
  obtain ⟨k, hk⟩ := List.mem_iff_getElem?.mp h
  rw [List.getElem?_take] at hk
  split at hk
  · rw [Line.index_ofText hk]
    assumption
  · contradiction

/-- The lines behind the first `n` have numbers from `n` on. -/
theorem Line.le_index_of_mem_drop {t : Text} {n : Nat} {l : Line}
    (h : l ∈ (Line.ofText t).drop n) : n ≤ l.index := by
  obtain ⟨k, hk⟩ := List.mem_iff_getElem?.mp h
  rw [List.getElem?_drop] at hk
  rw [Line.index_ofText hk]
  omega

end MacroScript
