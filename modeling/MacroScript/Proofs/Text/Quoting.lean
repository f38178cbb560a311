import MacroScript.Text.Quoting
import Mathlib.Tactic.ByContra

/-!
# Inside and outside of string literals

Several scans of a text have to know at each character whether they stand inside a string literal.
They differ in the quotes that open one: the reader of tokens and the search for top-level
separators know all three kinds, the code of a line and the inference of tags only double quotes. So
the state past a text has the class of opening quotes as an argument, and what holds for every class
is stated once, for any of them.

A scan for double quotes has fewer states than the type (`Quoting.IsDouble`), and of these only
those between the quotes hide a character (`Quoting.covers`). **The one character that is not hidden
inside a literal is the quote that ends it** (`Quoting.eq_quote_of_not_covers`).
-/
namespace MacroScript

namespace Quoting

/-! ## 1. Any class of quotes -/

section Opens

variable {opens : Char → Bool}

@[simp] theorem past_nil (q : Quoting) : q.past opens [] = q := rfl

@[simp] theorem past_cons (q : Quoting) (c : Char) (t : Text) :
    q.past opens (c :: t) = (q.next opens c).past opens t := rfl

@[simp] theorem past_append (q : Quoting) (t u : Text) :
    q.past opens (t ++ u) = (q.past opens t).past opens u :=
  List.foldl_append

/-- An opening quote leads into a literal that the same quote will end. -/
theorem next_of_opens {c : Char} (h : opens c) : outside.next opens c = inside c false := by
  simp [next, h]

theorem next_of_not_opens {c : Char} (h : opens c = false) : outside.next opens c = outside := by
  simp [next, h]

/-- A text without opening quotes leads into no literal: outside, only an opening quote changes the
state. -/
theorem past_outside {t : Text} (h : ∀ c ∈ t, opens c = false) :
    outside.past opens t = outside := by
  induction t with
  | nil => rfl
  | cons c t ih =>
    rw [past_cons, next_of_not_opens (h c List.mem_cons_self)]
    exact ih fun d hd => h d (List.mem_cons_of_mem _ hd)

end Opens

/-- There is one state outside literals. All others have a quote to wait for. -/
theorem eq_outside {q : Quoting} (h : q.isInside = false) : q = outside := by
  cases q with
  | outside => rfl
  | inside quote e => simp [isInside] at h

/-! ## 2. Double quotes -/

/-- The character stands between the quotes of a literal: the scan is inside before it and after it.
The two quotes themselves are not covered. -/
def covers (q : Quoting) (c : Char) : Bool :=
  q.isInside && (q.next isDoubleQuote c).isInside

/-- A scan for double quotes that stands inside a literal was led there by one. The other states of
the type are not reached from outside. -/
def IsDouble (q : Quoting) : Prop :=
  q = outside ∨ ∃ e, q = inside '"' e

/-- One more character keeps the state among these, as the quote of a state changes only by leaving
the literal. -/
theorem isDouble_next {q : Quoting} (h : q.IsDouble) (c : Char) :
    (q.next isDoubleQuote c).IsDouble := by
  rcases h with rfl | ⟨e, rfl⟩
  · by_cases hc : c = '"'
    · exact .inr ⟨false, by simp [next, isDoubleQuote, hc]⟩
    · exact .inl (by simp [next, isDoubleQuote, hc])
  · cases e with
    | true => exact .inr ⟨false, rfl⟩
    | false =>
      simp only [next]
      split
      · exact .inr ⟨true, rfl⟩
      · split
        · exact .inl rfl
        · exact .inr ⟨false, rfl⟩

theorem isDouble_past {q : Quoting} (h : q.IsDouble) (t : Text) :
    (q.past isDoubleQuote t).IsDouble := by
  induction t generalizing q with
  | nil => exact h
  | cons c t ih => exact ih (isDouble_next h c)

theorem isDouble_outside : outside.IsDouble := .inl rfl

theorem next_outside {c : Char} (h : c ≠ '"') : outside.next isDoubleQuote c = outside :=
  next_of_not_opens (by simpa [isDoubleQuote] using h)

/-- Only a double quote ends a literal, and only a double quote begins one. So any other character
leaves the scan on its side. -/
theorem isInside_next {q : Quoting} (h : q.IsDouble) {c : Char} (hc : c ≠ '"') :
    (q.next isDoubleQuote c).isInside = q.isInside := by
  rcases h with rfl | ⟨e, rfl⟩
  · rw [next_outside hc]
  · cases e with
    | true => rfl
    | false =>
      simp only [next, hc, if_false]
      split <;> rfl

/-- A text without double quotes leaves the scan where it is, inside a literal or outside. -/
theorem isInside_past {q : Quoting} (h : q.IsDouble) {t : Text} (ht : '"' ∉ t) :
    (q.past isDoubleQuote t).isInside = q.isInside := by
  induction t generalizing q with
  | nil => rfl
  | cons c t ih =>
    rw [List.mem_cons, not_or] at ht
    obtain ⟨hc, ht⟩ := ht
    rw [past_cons, ih (isDouble_next h c) ht, isInside_next h (Ne.symm hc)]

/-- Without double quotes a scan for them stays outside. -/
theorem past_outside_of_not_mem {t : Text} (ht : '"' ∉ t) :
    outside.past isDoubleQuote t = outside :=
  eq_outside (isInside_past isDouble_outside ht)

/-- The state with no backslash right before it. Two states that differ in this alone hide the same
characters but for a quote that comes next. -/
def calm : Quoting → Quoting
  | outside => outside
  | inside quote _ => inside quote false

/-- From outside no character leads to a state with a backslash before it: a backslash counts only
in a literal. -/
theorem calm_next_outside (c : Char) :
    (outside.next isDoubleQuote c).calm = outside.next isDoubleQuote c := by
  by_cases hc : c = '"'
  · rw [hc]
    rfl
  · rw [next_outside hc]
    rfl

/-- Within a literal only backslashes make a difference, since all literals here are double-quoted.
-/
theorem calm_eq {q : Quoting} (h : q.IsDouble) (hinside : q.isInside) :
    q.calm = inside '"' false := by
  rcases h with rfl | ⟨e, rfl⟩
  · simp [isInside] at hinside
  · rfl

/-- A character that is not between the quotes of a literal that is open ends it: it is the quote,
and no backslash stands before it. -/
theorem eq_quote_of_not_covers {q : Quoting} (h : q.IsDouble) (hinside : q.isInside) {c : Char}
    (hc : q.covers c = false) : c = '"' ∧ q = inside '"' false ∧
      q.next isDoubleQuote c = outside := by
  have hout : q.next isDoubleQuote c = outside := by
    rw [covers, hinside, Bool.true_and] at hc
    exact eq_outside hc
  have hquote : c = '"' := by
    by_contra hne
    have hstays := isInside_next h hne
    rw [hout, hinside] at hstays
    simp [isInside] at hstays
  refine ⟨hquote, ?_, hout⟩
  rcases h with rfl | ⟨e, rfl⟩
  · simp [isInside] at hinside
  · cases e with
    | true => simp [next] at hout
    | false => rfl

end Quoting

end MacroScript
