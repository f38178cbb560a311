import MacroScript.Proofs.Line.Comment
import MacroScript.Proofs.Text.Hollow

/-!
# The code of a part of a line

The code of a line is a mask of what stands in front of its comment: the inside of each literal is
blanked, and the rest is left as it is (`Line.code_eq_mask`). What stands before and after an equals
sign or a semicolon is masked on its own (`exists_of_mask_eq`), and **a part has the same hollow
literals as its mask** (`hollow_mask`).
-/
namespace MacroScript

open Text

/-! ## 1. Masks -/

/-- The rest of a text with the inside of its literals blanked, byte for byte, from a place where
the scan stands as the state says. It does what the code of a line does, without a look for
comments. -/
def maskFrom : Quoting → Text → Text
  | _, [] => []
  | q, c :: cs =>
    (if q.covers c then List.replicate c.utf8Size ' ' else [c]) ++
      maskFrom (q.next isDoubleQuote c) cs

/-- The text with the inside of its literals blanked. -/
def mask (t : Text) : Text :=
  maskFrom .outside t

/-- Blanking keeps the number of bytes, so offsets into a mask are offsets into the text. -/
theorem byteSize_maskFrom (q : Quoting) (t : Text) : byteSize (maskFrom q t) = byteSize t := by
  induction t generalizing q with
  | nil => rfl
  | cons c t ih =>
    rw [maskFrom, byteSize_append, ih, byteSize_cons]
    split
    · rw [byteSize_replicate_space]
    · rfl

/-- Blanks inside a literal go when it is made hollow. -/
theorem hollowFrom_blanks (n : Nat) (t : Text) :
    hollowFrom (.inside '"' false) (List.replicate n ' ' ++ t) =
      hollowFrom (.inside '"' false) t := by
  induction n with
  | zero => rfl
  | succ n ih => exact ih

/-- The mask has no backslashes inside its literals, so the scan of it is calm where that of the
text may not be; both leave out the same characters. -/
theorem hollowFrom_maskFrom {q : Quoting} (hq : q.IsDouble) (t : Text) :
    hollowFrom q.calm (maskFrom q t) = hollowFrom q t := by
  induction t generalizing q with
  | nil => rfl
  | cons c t ih =>
    have hrest := ih (Quoting.isDouble_next hq c)
    rw [maskFrom, hollowFrom]
    by_cases hinside : q.isInside
    · by_cases hcovers : q.covers c
      · have hstays : (q.next isDoubleQuote c).isInside := by
          rwa [Quoting.covers, hinside, Bool.true_and] at hcovers
        rw [Quoting.calm_eq (Quoting.isDouble_next hq c) hstays] at hrest
        rw [if_pos hcovers, if_pos hcovers, Quoting.calm_eq hq hinside, hollowFrom_blanks, hrest]
      · obtain ⟨rfl, rfl, hout⟩ :=
          Quoting.eq_quote_of_not_covers hq hinside (Bool.not_eq_true _ ▸ hcovers)
        rw [hout] at hrest ⊢
        exact congrArg ('"' :: ·) hrest
    · obtain rfl := Quoting.eq_outside (Bool.not_eq_true _ ▸ hinside)
      rw [Quoting.calm_next_outside] at hrest
      exact congrArg (c :: ·) hrest

/-- **A text has the hollow literals of its mask**: what the two have in common is all that stands
outside literals. -/
theorem hollow_mask (t : Text) : hollow (mask t) = hollow t :=
  hollowFrom_maskFrom Quoting.isDouble_outside t

/-- A character other than a space stands in a mask where it stands in the text, and is not covered
there. -/
theorem exists_of_maskFrom_eq {q : Quoting} {t u v : Text} {c : Char}
    (h : maskFrom q t = u ++ c :: v) (hc : c ≠ ' ') :
    ∃ front rest, t = front ++ c :: rest ∧ maskFrom q front = u ∧
      (q.past isDoubleQuote front).covers c = false ∧
      maskFrom (q.past isDoubleQuote (front ++ [c])) rest = v := by
  induction t generalizing q u with
  | nil => simp [maskFrom] at h
  | cons d t ih =>
    rw [maskFrom] at h
    by_cases hcovers : q.covers d
    · rw [if_pos hcovers] at h
      -- a blank is another character, so it comes before
      have hsplit : ∃ m, u = List.replicate d.utf8Size ' ' ++ m ∧
          maskFrom (q.next isDoubleQuote d) t = m ++ c :: v := by
        rcases List.append_eq_append_iff.mp h with hmiddle | ⟨m, hblanks, hrest⟩
        · exact hmiddle
        · cases m with
          | nil => exact ⟨[], by simpa using hblanks.symm, by simpa using hrest.symm⟩
          | cons e m =>
            obtain ⟨rfl, -⟩ := List.cons.inj hrest
            have hmem : c ∈ List.replicate d.utf8Size ' ' := hblanks ▸ (by simp : c ∈ u ++ c :: m)
            exact absurd (List.eq_of_mem_replicate hmem) hc
      obtain ⟨m, rfl, hm⟩ := hsplit
      obtain ⟨front, rest, rfl, hfront, hkept, hrest⟩ := ih hm
      refine ⟨d :: front, rest, rfl, ?_, hkept, hrest⟩
      rw [maskFrom, if_pos hcovers, hfront]
    · rw [if_neg hcovers] at h
      cases u with
      | nil =>
        obtain ⟨rfl, rfl⟩ := List.cons.inj h
        exact ⟨[], t, rfl, rfl, Bool.not_eq_true _ ▸ hcovers, rfl⟩
      | cons e u =>
        obtain ⟨rfl, hu⟩ := List.cons.inj h
        obtain ⟨front, rest, rfl, hfront, hkept, hrest⟩ := ih hu
        refine ⟨d :: front, rest, rfl, ?_, hkept, hrest⟩
        rw [maskFrom, if_neg hcovers, hfront]
        rfl

/-- What stands before and after a character other than a space or a quote is masked on its own.
Such a character is outside all literals, so the scan starts anew behind it. -/
theorem exists_of_mask_eq {t u v : Text} {c : Char} (h : mask t = u ++ c :: v) (hspace : c ≠ ' ')
    (hquote : c ≠ '"') :
    ∃ front rest, t = front ++ c :: rest ∧ mask front = u ∧
      Quoting.outside.past isDoubleQuote (front ++ [c]) = .outside ∧ mask rest = v := by
  obtain ⟨front, rest, rfl, hfront, hkept, hrest⟩ := exists_of_maskFrom_eq h hspace
  have hdouble := Quoting.isDouble_past Quoting.isDouble_outside front
  have hout : Quoting.outside.past isDoubleQuote front = .outside := by
    apply Quoting.eq_outside
    by_contra hinside
    rw [Bool.not_eq_false] at hinside
    exact hquote (Quoting.eq_quote_of_not_covers hdouble hinside hkept).1
  have hafter : Quoting.outside.past isDoubleQuote (front ++ [c]) = .outside := by
    rw [Quoting.past_append, hout]
    exact Quoting.next_outside hquote
  rw [hafter] at hrest
  exact ⟨front, rest, rfl, hfront, hafter, hrest⟩

/-- A text whose mask has no quote is its own mask, as it has no literal. -/
theorem mask_eq_self {t : Text} (h : '"' ∉ mask t) : mask t = t := by
  induction t with
  | nil => rfl
  | cons c cs ih =>
    have hstep : mask (c :: cs) = c :: maskFrom (Quoting.outside.next isDoubleQuote c) cs := rfl
    rw [hstep] at h ⊢
    have hc : c ≠ '"' := fun hc => h (hc ▸ List.mem_cons_self)
    rw [Quoting.next_outside hc] at h ⊢
    rw [← mask, ih fun hmem => h (List.mem_cons_of_mem _ hmem)]

/-! ## 2. The code of a line is a mask -/

/-- The code of a text is the mask of a front part: the scan is the same up to the comment. -/
theorem exists_codeFrom_eq_maskFrom (q : Quoting) (raw : Text) :
    ∃ body tail, raw = body ++ tail ∧ codeFrom q raw = maskFrom q body := by
  fun_induction codeFrom q raw with
  | case1 => exact ⟨[], [], rfl, rfl⟩
  | case2 c cs hslashes => exact ⟨[], c :: cs, rfl, rfl⟩
  | case3 c cs hslashes ih =>
    obtain ⟨body, tail, rfl, hcode⟩ := ih
    exact ⟨c :: body, tail, rfl, by rw [hcode]; rfl⟩
  | case4 quote e c cs hnext ih =>
    obtain ⟨body, tail, rfl, hcode⟩ := ih
    refine ⟨c :: body, tail, rfl, ?_⟩
    rw [hcode, maskFrom, Quoting.covers, hnext]
    rfl
  | case5 quote e c cs quote' e' hnext ih =>
    obtain ⟨body, tail, rfl, hcode⟩ := ih
    refine ⟨c :: body, tail, rfl, ?_⟩
    rw [hcode, maskFrom, Quoting.covers, hnext]
    rfl

/-- **The code of a line is the mask of what stands in front of its comment.** The front part is
known by its size, since blanking keeps the bytes. -/
theorem Line.code_eq_mask (l : Line) : l.code = mask l.body := by
  obtain ⟨body, tail, hraw, hcode⟩ := exists_codeFrom_eq_maskFrom .outside l.raw
  have hcode : l.code = mask body := hcode
  have hbody : l.body = body := by
    rw [Line.body, hcode, mask, byteSize_maskFrom, hraw, takeBytes_byteSize_append]
  rw [hbody, hcode]

theorem Line.byteSize_body (l : Line) : byteSize l.body = byteSize l.code := by
  rw [l.code_eq_mask, mask, byteSize_maskFrom]

theorem Line.exists_raw_eq (l : Line) : ∃ tail, l.raw = l.body ++ tail :=
  ⟨dropBytes (byteSize l.code) l.raw, (takeBytes_append_dropBytes _ _).symm⟩

end MacroScript
