import MacroScript.Proofs.Text.Part
import MacroScript.Proofs.Text.Quoting
import Mathlib.Data.List.Induction

/-!
# Texts with hollow literals

A double-quoted literal is *hollow* if nothing stands between its quotes. Here every literal of a
text is made hollow (`hollow`), also one that is still open at its end, and so is told apart what a
text says outside its literals from what it says inside. Taking white space or semicolons off the
ends of a text commutes with it (`hollow_trim`, `hollow_dropEndWhile`), although the end of an open
literal goes as well: **the quote that opens it stays**, and it is no white space.

A text is *plain* if the three kinds of quotes cannot be confused in it, since outside its literals
there are no other quotes, and if no closing bracket hides inside a literal (`isPlainFrom`).
-/
namespace MacroScript

open Text

/-! ## 1. Hollow literals -/

/-- The rest of a text with its literals made hollow, from a place where the scan stands as the
state says. What is between the quotes goes, and the quotes stay. -/
def hollowFrom : Quoting → Text → Text
  | _, [] => []
  | q, c :: cs =>
    let rest := hollowFrom (q.next isDoubleQuote c) cs
    if q.covers c then rest else c :: rest

/-- The text with its literals made hollow. -/
def hollow (t : Text) : Text :=
  hollowFrom .outside t

@[simp] theorem hollowFrom_nil (q : Quoting) : hollowFrom q [] = [] := rfl

/-- The second of two texts is made hollow from the state that the first leads to. -/
theorem hollowFrom_append (q : Quoting) (t u : Text) :
    hollowFrom q (t ++ u) = hollowFrom q t ++ hollowFrom (q.past isDoubleQuote t) u := by
  induction t generalizing q with
  | nil => rfl
  | cons c t ih =>
    rw [List.cons_append, hollowFrom, hollowFrom, ih]
    split <;> rfl

/-- Outside literals a character stays. -/
theorem hollow_cons (c : Char) (t : Text) :
    hollow (c :: t) = c :: hollowFrom (Quoting.outside.next isDoubleQuote c) t := rfl

/-- If the first text ends outside its literals, the two are made hollow each by itself. -/
theorem hollow_append {t : Text} (h : Quoting.outside.past isDoubleQuote t = .outside) (u : Text) :
    hollow (t ++ u) = hollow t ++ hollow u := by
  rw [hollow, hollowFrom_append, h]
  rfl

/-- Characters are only taken away, in their order. -/
theorem hollowFrom_sublist (q : Quoting) (t : Text) : (hollowFrom q t).Sublist t := by
  induction t generalizing q with
  | nil => exact List.Sublist.slnil
  | cons c t ih =>
    rw [hollowFrom]
    split
    · exact (ih _).cons c
    · exact (ih _).cons_cons c

/-- A text without double quotes has no literal, so nothing of it goes. -/
theorem hollow_of_not_mem {t : Text} (h : '"' ∉ t) : hollow t = t := by
  induction t with
  | nil => rfl
  | cons c t ih =>
    rw [List.mem_cons, not_or] at h
    obtain ⟨hc, ht⟩ := h
    rw [hollow_cons, Quoting.next_outside (Ne.symm hc)]
    exact congrArg (c :: ·) (ih ht)

/-- The quote that opens a literal stays, so that hollowing does not hide that there is one. -/
theorem mem_hollow {t : Text} : '"' ∈ hollow t ↔ '"' ∈ t := by
  constructor
  · exact fun h => (hollowFrom_sublist _ t).subset h
  · intro h
    induction t with
    | nil => simp at h
    | cons c t ih =>
      rw [hollow_cons]
      by_cases hc : c = '"'
      · simp [hc]
      · rw [Quoting.next_outside hc]
        rcases List.mem_cons.mp h with rfl | h
        · exact absurd rfl hc
        · exact List.mem_cons_of_mem c (ih h)

/-- Inside a literal that is still open, its quote is the last character that stayed: all after it
is covered. -/
theorem getLast?_hollow_of_isInside {t : Text}
    (h : (Quoting.outside.past isDoubleQuote t).isInside) : (hollow t).getLast? = some '"' := by
  induction t using List.reverseRecOn with
  | nil => simp [Quoting.isInside] at h
  | append_singleton t c ih =>
    rw [Quoting.past_append, Quoting.past_cons, Quoting.past_nil] at h
    rw [hollow, hollowFrom_append, hollowFrom]
    by_cases hinside : (Quoting.outside.past isDoubleQuote t).isInside
    · have hcovers : (Quoting.outside.past isDoubleQuote t).covers c := by
        rw [Quoting.covers, hinside, h]
        rfl
      rw [if_pos hcovers, hollowFrom_nil, List.append_nil]
      exact ih hinside
    · have houtside := Quoting.eq_outside (Bool.not_eq_true _ ▸ hinside)
      have hc : c = '"' := by
        by_contra hne
        rw [houtside, Quoting.next_outside hne] at h
        simp [Quoting.isInside] at h
      simp [houtside, Quoting.covers, Quoting.isInside, hc]

/-- The last character of a text with hollow literals is the last one of the text, or a quote. It is
another one than that of the text only if a literal is still open there. -/
theorem getLast?_hollow {t : Text} {c : Char} (h : (hollow t).getLast? = some c) :
    c = '"' ∨ t.getLast? = some c := by
  rcases List.eq_nil_or_concat t with rfl | ⟨t, d, rfl⟩
  · simp [hollow] at h
  · rw [List.concat_eq_append] at h ⊢
    rw [hollow, hollowFrom_append, hollowFrom] at h
    by_cases hcovers : (Quoting.outside.past isDoubleQuote t).covers d
    · rw [if_pos hcovers, hollowFrom_nil, List.append_nil] at h
      rw [Quoting.covers, Bool.and_eq_true] at hcovers
      rw [← hollow, getLast?_hollow_of_isInside hcovers.1, Option.some.injEq] at h
      exact .inl h.symm
    · rw [if_neg hcovers] at h
      exact .inr (by simpa using h)

/-! ## 2. Ends -/

theorem isBlank_quote : isBlank '"' = false := by decide

/-- A class of characters that leaves the quote out has no quote among its own. Both white space and
the semicolon are such a class. -/
theorem ne_quote {p : Char → Bool} (hp : p '"' = false) {c : Char} (hc : p c) : c ≠ '"' := by
  rintro rfl
  rw [hp] at hc
  contradiction

/-- White space holds no quote. -/
theorem quote_not_mem {t : Text} (h : ∀ c ∈ t, isBlank c) : '"' ∉ t := by
  intro hmem
  exact ne_quote isBlank_quote (h _ hmem) rfl

/-- What is taken off the end of a text is taken off outside a literal, or inside one that stays
open; so the literals become hollow before or after. -/
theorem hollow_dropEndWhile {p : Char → Bool} (hp : p '"' = false) (t : Text) :
    hollow (dropEndWhile p t) = dropEndWhile p (hollow t) := by
  have hsplit : dropEndWhile p t ++ t.rtakeWhile p = t := by
    rw [dropEndWhile_eq_rdropWhile, List.rdropWhile_append_rtakeWhile]
  have hhollow : hollow t = hollow (dropEndWhile p t) ++
      hollowFrom (Quoting.outside.past isDoubleQuote (dropEndWhile p t)) (t.rtakeWhile p) := by
    rw [hollow, hollow, ← hollowFrom_append, hsplit]
  have hback (q : Quoting) : dropEndWhile p (hollowFrom q (t.rtakeWhile p)) = [] := by
    rw [dropEndWhile_eq_rdropWhile, List.rdropWhile_eq_nil_iff]
    intro c hc
    exact List.mem_rtakeWhile_imp ((hollowFrom_sublist q _).subset hc)
  have hfront : dropEndWhile p (hollow (dropEndWhile p t)) = hollow (dropEndWhile p t) := by
    refine List.rdropWhile_eq_self_iff.mpr fun hne => ?_
    rcases getLast?_hollow (List.getLast?_eq_some_getLast hne) with hquote | hlast
    · rw [hquote, hp]
      exact Bool.false_ne_true
    · obtain ⟨hne', hlast⟩ := List.mem_getLast?_eq_getLast hlast
      rw [hlast]
      exact List.rdropWhile_last_not p t hne'
  rw [hhollow, dropEndWhile_append, hback, List.isEmpty_nil, if_pos rfl, hfront]

/-- White space at the start comes before all literals, and is the same in the hollow text. -/
theorem hollow_trimStart (t : Text) : hollow (trimStart t) = trimStart (hollow t) := by
  induction t with
  | nil => rfl
  | cons c t ih =>
    rw [trimStart, hollow_cons, trimStart]
    by_cases hc : isBlank c
    · have hquote := ne_quote isBlank_quote hc
      rw [List.dropWhile_cons_of_pos hc, List.dropWhile_cons_of_pos hc,
        Quoting.next_outside hquote]
      exact ih
    · rw [List.dropWhile_cons_of_neg hc, List.dropWhile_cons_of_neg hc, hollow_cons]

/-- **Trimming commutes with making literals hollow**, at both ends. -/
theorem hollow_trim (t : Text) : hollow (trim t) = trim (hollow t) := by
  rw [trim, trimEnd, hollow_dropEndWhile isBlank_quote, hollow_trimStart]
  rfl

/-! ## 3. Plain texts -/

/-- Outside literals there are no quotes of the other kinds, and inside them there is no closing
round bracket and no line break. The state is that of the scan at the start of the text. -/
def isPlainFrom : Quoting → Text → Bool
  | _, [] => true
  | q, c :: cs =>
    (if q.isInside then c != ')' && c != '\n' else c != '\'' && c != '`') &&
      isPlainFrom (q.next isDoubleQuote c) cs

/-- The text is plain. -/
def isPlain (t : Text) : Bool :=
  isPlainFrom .outside t

/-- The second of two texts is judged from the state that the first leads to. -/
theorem isPlainFrom_append (q : Quoting) (t u : Text) :
    isPlainFrom q (t ++ u) = (isPlainFrom q t && isPlainFrom (q.past isDoubleQuote t) u) := by
  induction t generalizing q with
  | nil => rfl
  | cons c t ih =>
    rw [List.cons_append, isPlainFrom, isPlainFrom, ih, Quoting.past_cons, Bool.and_assoc]

/-- The front of a plain text is plain. -/
theorem isPlain_of_isPrefix {t u : Text} (h : u <+: t) (ht : isPlain t) : isPlain u := by
  obtain ⟨rest, rfl⟩ := h
  rw [isPlain, isPlainFrom_append, Bool.and_eq_true] at ht
  exact ht.1

/-- The back of a plain text is plain if the front ends outside its literals; otherwise it would
start inside one. -/
theorem isPlain_of_append {t u : Text} (hclosed : Quoting.outside.past isDoubleQuote t = .outside)
    (h : isPlain (t ++ u)) : isPlain u := by
  rw [isPlain, isPlainFrom_append, hclosed, Bool.and_eq_true] at h
  exact h.2

theorem isPlain_dropEndWhile {p : Char → Bool} {t : Text} (h : isPlain t) :
    isPlain (dropEndWhile p t) :=
   isPlain_of_isPrefix (List.rdropWhile_prefix p t) h

/-- No quote is among the white space at the start, so what is left of the text starts outside
literals. -/
theorem exists_trimStart_closed (t : Text) :
    ∃ front, t = front ++ trimStart t ∧ Quoting.outside.past isDoubleQuote front = .outside := by
  refine ⟨t.takeWhile isBlank, List.takeWhile_append_dropWhile.symm,
    Quoting.past_outside_of_not_mem ?_⟩
  exact quote_not_mem fun c hc => List.mem_takeWhile_imp hc

theorem isPlain_trim {t : Text} (h : isPlain t) : isPlain (trim t) := by
  obtain ⟨front, ht, hfront⟩ := exists_trimStart_closed t
  rw [ht] at h
  exact isPlain_dropEndWhile (isPlain_of_append hfront h)

/-- A text that ends outside its literals still does after its ends are trimmed, as no quote is
taken off. -/
theorem past_trim {t : Text} (h : Quoting.outside.past isDoubleQuote t = .outside) :
    Quoting.outside.past isDoubleQuote (trim t) = .outside := by
  obtain ⟨front, ht, hfront⟩ := exists_trimStart_closed t
  have hback : trim t ++ (trimStart t).rtakeWhile isBlank = trimStart t :=
    List.rdropWhile_append_rtakeWhile
  have hend : Quoting.outside.past isDoubleQuote (trimStart t) = .outside := by
    rwa [ht, Quoting.past_append, hfront] at h
  rw [← hback, Quoting.past_append] at hend
  apply Quoting.eq_outside
  rw [← Quoting.isInside_past (Quoting.isDouble_past Quoting.isDouble_outside _)
    (quote_not_mem fun c hc => List.mem_rtakeWhile_imp hc)]
  exact congrArg Quoting.isInside hend

end MacroScript
