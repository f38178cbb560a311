import MacroScript.Diagnostic.Loop
import MacroScript.Proofs.Symbol.Value
import MacroScript.Proofs.Token.TopLevel

/-!
# Where values end

A value that is assigned ends at the first semicolon outside brackets. The reader of symbols looks
for it with a scan that knows brackets only, since it goes over the code, where literals are
blanked. The rules cut the code at top level with a scan that knows literals as well. The code
blanks the literals of double quotes and no others, so **the two ends are the same exactly if the
brackets and semicolons in the other literals do not change the count**
(`Collector.valueStop_eq_iff`), as in every value whose literals hold none of them.

The scan that knows literals reads the code abreast of the one that blanked it (`Quoting.Abreast`),
so it finds nothing but spaces between double quotes (`eq_space_of_maskFrom`).
-/
namespace MacroScript

open Text

/-! ## 1. The scan that knows brackets -/

/-- How many brackets the text opens, less those that it closes. Those in literals count, too: the
reader of symbols does not know of literals. -/
def Text.bracketDepth : Text → Int
  | [] => 0
  | c :: cs => bracketStep c + bracketDepth cs

/-- A character of a text is the first one or one of the rest. A condition on all semicolons of a
text is taken apart with it, one character at a time. -/
theorem Text.forall_split_cons {P : Text → Prop} {c d : Char} {t : Text} :
    (∀ u v, c :: t = u ++ d :: v → P u) ↔
      (c = d → P []) ∧ ∀ u v, t = u ++ d :: v → P (c :: u) := by
  constructor
  · intro h
    refine ⟨?_, fun u v ht => h (c :: u) v (by rw [ht]; rfl)⟩
    rintro rfl
    exact h [] t rfl
  · rintro ⟨hfirst, hrest⟩ u v heq
    cases u with
    | nil => exact hfirst (List.cons.inj heq).1
    | cons e u =>
      obtain ⟨rfl, ht⟩ := List.cons.inj heq
      exact hrest u v ht

namespace Collector

/-- Where the scan ends is not before it starts. -/
theorem le_getD_semicolonFrom (depth : Int) (offset : Nat) (t : Text) :
    offset ≤ (semicolonFrom depth offset t).getD (offset + byteSize t) := by
  cases h : semicolonFrom depth offset t with
  | none => exact Nat.le_add_right _ _
  | some n =>
    obtain ⟨value, back, -, rfl⟩ := exists_of_semicolonFrom h
    exact Nat.le_add_right _ _

/-- One step of the scan. Where there is no semicolon it ends with the text. -/
theorem getD_semicolonFrom_cons (depth : Int) (offset : Nat) (c : Char) (cs : Text) :
    (semicolonFrom depth offset (c :: cs)).getD (offset + byteSize (c :: cs)) =
      if c = ';' && depth ≤ 0 then offset
      else (semicolonFrom (depth + bracketStep c) (offset + c.utf8Size) cs).getD
        (offset + c.utf8Size + byteSize cs) := by
  rw [semicolonFrom, byteSize_cons, Nat.add_assoc]
  split <;> rfl

/-- **The scan ends behind a value** if every semicolon in the value stands in brackets and the one
behind it does not. The induction is on the value, with the depth and the offset moving along. -/
theorem getD_semicolonFrom_eq_iff (depth : Int) (offset : Nat) (value : Text) {back : Text}
    (hback : back = [] ∨ back.head? = some ';') :
    (semicolonFrom depth offset (value ++ back)).getD (offset + byteSize (value ++ back)) =
        offset + byteSize value ↔
      (∀ u v, value = u ++ ';' :: v → 0 < depth + bracketDepth u) ∧
        (back ≠ [] → depth + bracketDepth value ≤ 0) := by
  induction value generalizing depth offset with
  | nil =>
    have hnone : ∀ u v : Text, [] = u ++ ';' :: v → 0 < depth + bracketDepth u := by simp
    rw [List.nil_append, byteSize_nil, bracketDepth, and_iff_right hnone, Int.add_zero]
    rcases hback with rfl | hsemicolon
    · simp [semicolonFrom]
    · obtain ⟨back, rfl⟩ := List.head?_eq_some_iff.mp hsemicolon
      have hlater := le_getD_semicolonFrom (depth + bracketStep ';') (offset + ';'.utf8Size) back
      have hpos := ';'.utf8Size_pos
      rw [getD_semicolonFrom_cons]
      by_cases hdepth : depth ≤ 0
      · simp [hdepth]
      · simp only [hdepth, decide_false, Bool.and_false, Bool.false_eq_true, if_false, ne_eq,
          reduceCtorEq, not_false_eq_true, forall_const, iff_false]
        omega
  | cons c value ih =>
    have hpos := c.utf8Size_pos
    rw [List.cons_append, getD_semicolonFrom_cons, forall_split_cons]
    by_cases hends : c = ';' ∧ depth ≤ 0
    · -- the scan ends too early
      rw [if_pos (by simpa using hends), byteSize_cons]
      refine iff_of_false (by omega) fun h => ?_
      have hopen := h.1.1 hends.1
      rw [bracketDepth] at hopen
      omega
    · have hfirst : c = ';' → 0 < depth + bracketDepth [] := by
        intro hc
        have hdepth : ¬depth ≤ 0 := fun hdepth => hends ⟨hc, hdepth⟩
        rw [bracketDepth]
        omega
      rw [if_neg (by simpa using hends), byteSize_cons, ← Nat.add_assoc, ih, and_iff_right hfirst]
      simp only [bracketDepth, Int.add_assoc]

/-- **Where a value ends**, by the brackets and semicolons in it. The scan sets out at the equals
sign with no bracket open. -/
theorem valueStop_eq_iff (front value : Text) {back : Text}
    (hback : back = [] ∨ back.head? = some ';') :
    valueStop (front ++ (value ++ back)) (byteSize front) = byteSize front + byteSize value ↔
      (∀ u v, value = u ++ ';' :: v → 0 < bracketDepth u) ∧
        (back ≠ [] → bracketDepth value ≤ 0) := by
  have hiff := getD_semicolonFrom_eq_iff 0 (byteSize front) value hback
  simp only [Int.zero_add] at hiff
  rw [valueStop, dropBytes_byteSize_append, byteSize_append, hiff]

end Collector

/-! ## 2. The scan that knows literals -/

/-- How many brackets the text opens outside of literals, less those that it closes there, from a
place where the scan for quotes stands as the state says. -/
def Quoting.depthOutside : Quoting → Text → Int
  | _, [] => 0
  | q, c :: cs => (if q.isInside then 0 else bracketStep c) + depthOutside (q.next isQuote c) cs

/-- The text up to the first cut. Every semicolon in it stands in a literal or in brackets, and the
one that is cut at stands in neither. This describes the part without running the scan. -/
structure IsFirstPart (depth : Int) (q : Quoting) (value back : Text) : Prop where
  back_eq : back = [] ∨ back.head? = some ';'
  inner : ∀ u v, value = u ++ ';' :: v → (q.past isQuote u).isInside ∨ 0 < depth + q.depthOutside u
  last : back ≠ [] → q.past isQuote value = .outside ∧ depth + q.depthOutside value ≤ 0

/-- A character that is not cut at goes in front of the first part, with the state and the depth
that the scan has behind it. -/
theorem IsFirstPart.cons {depth : Int} {q : Quoting} {c : Char} {value back : Text}
    (h : IsFirstPart (depth + if q.isInside then 0 else bracketStep c) (q.next isQuote c) value
      back)
    (hc : c = ';' → q.isInside ∨ 0 < depth) : IsFirstPart depth q (c :: value) back := by
  refine ⟨h.back_eq, forall_split_cons.mpr ⟨fun heq => ?_, fun u v hu => ?_⟩, fun hne => ?_⟩
  · rw [Quoting.past_nil, Quoting.depthOutside, Int.add_zero]
    exact hc heq
  · rw [Quoting.past_cons, Quoting.depthOutside, ← Int.add_assoc]
    exact h.inner u v hu
  · rw [Quoting.past_cons, Quoting.depthOutside, ← Int.add_assoc]
    exact h.last hne

/-- No longer text is a first part as well, since it would hold the semicolon that the shorter one
is cut at. -/
theorem IsFirstPart.not_longer {depth : Int} {q : Quoting} {value back more back' : Text} {c : Char}
    (h : IsFirstPart depth q value (c :: back)) :
    ¬IsFirstPart depth q (value ++ c :: more) back' := by
  intro hlonger
  obtain rfl : c = ';' := by simpa using h.back_eq
  obtain ⟨hout, hdepth⟩ := h.last (by simp)
  rcases hlonger.inner value more rfl with hinside | hopen
  · rw [hout] at hinside
    contradiction
  · omega

/-- **A text has one first part.** -/
theorem IsFirstPart.eq {depth : Int} {q : Quoting} {value value' back back' : Text}
    (h : IsFirstPart depth q value back) (h' : IsFirstPart depth q value' back')
    (heq : value ++ back = value' ++ back') : value = value' := by
  rcases List.append_eq_append_iff.mp heq with ⟨m, rfl, rfl⟩ | ⟨m, rfl, rfl⟩
  · cases m with
    | nil => rw [List.append_nil]
    | cons c m => exact absurd h' h.not_longer
  · cases m with
    | nil => rw [List.append_nil]
    | cons c m => exact absurd h h'.not_longer

/-- **The first part of a text**, from wherever the cutting starts. The induction follows the scan,
inside literals and outside of them. -/
theorem exists_isFirstPart (depth : Int) (q : Quoting) (before t : Text) :
    ∃ value parts back, splitFrom ';' depth q before t = value :: parts ∧ t = value ++ back ∧
      (parts = [] ↔ back = []) ∧ IsFirstPart depth q value back := by
  induction t generalizing depth q before with
  | nil =>
    refine ⟨[], [], [], ?_, rfl, by simp, .inl rfl, by simp, by simp⟩
    cases q <;> rfl
  | cons c cs ih =>
    cases q with
    | outside =>
      obtain ⟨value, parts, back, hsplit, rfl, hmore, hfirst⟩ :=
        ih (depth + bracketStep c) (Quoting.outside.next isQuote c) (c :: before)
      rw [splitFrom, hsplit]
      by_cases hcut : isCut ';' depth before c (value ++ back)
      · -- cut at once: the first part is empty, and the depth is that of a cut
        obtain rfl := eq_of_isCut hcut
        have hdepth : depth ≤ 0 := by
          simp only [isCut, Bool.and_eq_true, decide_eq_true_eq] at hcut
          exact hcut.1.2
        refine ⟨[], value :: parts, ';' :: (value ++ back), if_pos hcut, rfl, by simp, .inr rfl,
          by simp, fun _ => ⟨rfl, ?_⟩⟩
        rwa [Quoting.depthOutside, Int.add_zero]
      · refine ⟨c :: value, parts, back, if_neg hcut, rfl, hmore, hfirst.cons ?_⟩
        rintro rfl
        -- a semicolon that is not cut at stands in brackets
        refine .inr (Int.not_le.mp fun hdepth => hcut ?_)
        have hplain : isQuote ';' = false ∧ bracketStep ';' = 0 := by decide
        simp [isCut, hplain, hdepth]
    | inside quote escaped =>
      obtain ⟨value, parts, back, hsplit, rfl, hmore, hfirst⟩ :=
        ih depth ((Quoting.inside quote escaped).next isQuote c) (c :: before)
      refine ⟨c :: value, parts, back, by rw [splitFrom, hsplit]; rfl, rfl, hmore, ?_⟩
      refine IsFirstPart.cons ?_ fun _ => .inl rfl
      rwa [Quoting.isInside, if_pos rfl, Int.add_zero]

/-- The first of the parts at top level, with its place. -/
theorem exists_topLevelParts (t : Text) :
    ∃ value parts back, topLevelParts ';' t = (0, value) :: parts ∧ t = value ++ back ∧
      (parts = [] ↔ back = []) ∧ IsFirstPart 0 .outside value back := by
  obtain ⟨value, parts, back, hsplit, ht, hmore, hfirst⟩ := exists_isFirstPart 0 .outside [] t
  refine ⟨value, locateParts ';' (0 + byteSize value + ';'.utf8Size) parts, back, ?_, ht, ?_,
    hfirst⟩
  · rw [topLevelParts, hsplit, locateParts]
  · rw [← hmore]
    cases parts <;> simp [locateParts]

/-- Where no bracket stands in a literal, both ways to count agree. -/
theorem Quoting.depthOutside_eq {q : Quoting} {t : Text}
    (h : ∀ c u v, t = u ++ c :: v → (q.past isQuote u).isInside → bracketStep c = 0) :
    q.depthOutside t = bracketDepth t := by
  induction t generalizing q with
  | nil => rfl
  | cons c t ih =>
    have hrest := ih fun d u v ht => h d (c :: u) v (by rw [ht]; rfl)
    rw [depthOutside, bracketDepth, hrest]
    split
    · next hinside => rw [h c [] t rfl hinside]
    · rfl

/-! ## 3. Literals in the code -/

/-- The scan for quotes of all kinds, in the second state, goes over a text abreast of the scan for
double quotes that blanked it, in the first one. It is outside of literals only where the other one
is, inside double quotes only where the other one is, and then not behind a backslash. -/
def Quoting.Abreast (q : Quoting) : Quoting → Prop
  | outside => q = outside
  | inside quote escaped =>
    quote = '"' ∧ q.isInside ∧ escaped = false ∨ quote = '\'' ∨ quote = '`'

/-- What a character leaves in a mask: itself, or as many spaces as it has bytes. -/
def Quoting.pieceOf (q : Quoting) (c : Char) : Text :=
  if q.covers c then List.replicate c.utf8Size ' ' else [c]

namespace Quoting

/-- Spaces neither end a literal nor escape anything. -/
theorem past_spaces {quote : Char} (hquote : quote ≠ ' ') (n : Nat) :
    (inside quote false).past isQuote (List.replicate n ' ') = inside quote false := by
  induction n with
  | zero => rfl
  | succ n ih =>
    have hstep : (inside quote false).next isQuote ' ' = inside quote false := by
      simp [next, Ne.symm hquote]
    rw [List.replicate_succ, past_cons, hstep, ih]

/-- A literal goes on over spaces. The first of them may be escaped, which is forgotten behind it.
-/
theorem exists_past_spaces {quote : Char} (hquote : quote ≠ ' ') (escaped : Bool) (n : Nat) :
    ∃ escaped',
      (inside quote escaped).past isQuote (List.replicate n ' ') = inside quote escaped' := by
  cases escaped with
  | false => exact ⟨false, past_spaces hquote n⟩
  | true =>
    cases n with
    | zero => exact ⟨true, rfl⟩
    | succ n =>
      rw [List.replicate_succ, past_cons]
      exact ⟨false, past_spaces hquote n⟩

/-- A literal of other quotes ends at its quote or goes on. -/
theorem next_inside (quote : Char) (escaped : Bool) (c : Char) :
    (∃ escaped', (inside quote escaped).next isQuote c = inside quote escaped') ∨
      c = quote ∧ (inside quote escaped).next isQuote c = outside := by
  cases escaped with
  | true => exact .inl ⟨false, rfl⟩
  | false =>
    rw [next]
    split
    · exact .inl ⟨true, rfl⟩
    · split
      · next heq => exact .inr ⟨heq, rfl⟩
      · exact .inl ⟨false, rfl⟩

/-- **The two scans stay abreast.** The case to look at is a literal of other quotes in which double
quotes are open for the first scan: it can only end where these have ended. -/
theorem Abreast.past_piece {q p : Quoting} (hq : q.IsDouble) (h : q.Abreast p) (c : Char) :
    (q.next isDoubleQuote c).Abreast (p.past isQuote (q.pieceOf c)) := by
  cases p with
  | outside =>
    obtain rfl : q = outside := h
    have hpiece : outside.past isQuote (outside.pieceOf c) = outside.next isQuote c := rfl
    rw [hpiece]
    by_cases hdouble : c = '"'
    · rw [hdouble]
      exact .inl ⟨rfl, rfl, rfl⟩
    · rw [next_outside hdouble]
      by_cases hquote : isQuote c
      · rw [next_of_opens hquote]
        simp only [isQuote, Bool.or_eq_true, beq_iff_eq, hdouble, false_or] at hquote
        exact .inr hquote
      · rw [next_of_not_opens (by simpa using hquote)]
        rfl
  | inside quote escaped =>
    by_cases hcovers : q.covers c
    · -- the character is blanked, and both scans stay inside
      rw [pieceOf, if_pos hcovers]
      rcases h with ⟨rfl, -, rfl⟩ | hother
      · rw [covers, Bool.and_eq_true] at hcovers
        rw [past_spaces (by decide)]
        exact .inl ⟨rfl, hcovers.2, rfl⟩
      · have hspace : quote ≠ ' ' := by rcases hother with rfl | rfl <;> decide
        obtain ⟨escaped', hpast⟩ := exists_past_spaces hspace escaped c.utf8Size
        rw [hpast]
        exact .inr hother
    · have hkept : q.covers c = false := by simpa using hcovers
      rw [pieceOf, if_neg hcovers, past_cons, past_nil]
      rcases h with ⟨rfl, hinside, rfl⟩ | hother
      · obtain ⟨rfl, -, hout⟩ := eq_quote_of_not_covers hq hinside hkept
        rw [hout]
        rfl
      · rcases next_inside quote escaped c with ⟨escaped', hnext⟩ | ⟨rfl, hnext⟩
        · rw [hnext]
          exact .inr hother
        · -- a literal of other quotes ends where no double quotes are open
          have hdouble : c ≠ '"' := by rcases hother with rfl | rfl <;> decide
          have hout : q = outside := eq_outside (by
            by_contra hinside
            exact hdouble (eq_quote_of_not_covers hq (by simpa using hinside) hkept).1)
          rw [hnext, hout, next_outside hdouble]
          rfl

end Quoting

theorem maskFrom_cons (q : Quoting) (c : Char) (t : Text) :
    maskFrom q (c :: t) = q.pieceOf c ++ maskFrom (q.next isDoubleQuote c) t := rfl

/-- **Between double quotes the code has nothing but spaces.** The induction is on the text that was
masked, with both scans running; the character is of the piece that one character has left. -/
theorem eq_space_of_maskFrom {q p : Quoting} (hq : q.IsDouble) (h : q.Abreast p) {t u v : Text}
    {c : Char} {escaped : Bool} (heq : maskFrom q t = u ++ c :: v)
    (hinside : p.past isQuote u = .inside '"' escaped) : c = ' ' ∨ c = '"' := by
  induction t generalizing q p u with
  | nil => simp [maskFrom] at heq
  | cons d t ih =>
    have hrest := @ih _ _ (Quoting.isDouble_next hq d) (h.past_piece hq d)
    rw [maskFrom_cons] at heq
    rcases List.append_eq_append_iff.mp heq with ⟨m, rfl, hm⟩ | ⟨m, hpiece, hm⟩
    · rw [Quoting.past_append] at hinside
      exact hrest hm hinside
    · cases m with
      | nil =>
        rw [List.append_nil] at hpiece
        exact hrest (u := []) hm.symm (by rw [hpiece]; exact hinside)
      | cons e m =>
        -- the character is of the piece that `d` leaves
        obtain ⟨rfl, -⟩ := List.cons.inj hm
        by_cases hcovers : q.covers d
        · rw [Quoting.pieceOf, if_pos hcovers] at hpiece
          exact .inl (List.eq_of_mem_replicate (hpiece ▸ (by simp : c ∈ u ++ c :: m)))
        · rw [Quoting.pieceOf, if_neg hcovers] at hpiece
          obtain ⟨rfl, rfl, -⟩ : u = [] ∧ d = c ∧ [] = m := by
            cases u <;> simp_all
          obtain rfl : p = .inside '"' escaped := hinside
          rcases h with ⟨-, hopen, -⟩ | hother
          · exact .inr (Quoting.eq_quote_of_not_covers hq hopen (by simpa using hcovers)).1
          · rcases hother with hother | hother <;> exact absurd hother (by decide)

/-! ## 4. Values with plain literals -/

/-- The literals of other quotes than double ones hold no semicolon and no bracket. Of those between
double quotes nothing need be asked, since they are blank. -/
def Quoting.hasPlainLiterals : Quoting → Text → Bool
  | _, [] => true
  | .outside, c :: cs => (Quoting.outside.next isQuote c).hasPlainLiterals cs
  | .inside quote escaped, c :: cs =>
    (quote = '"' || c ≠ ';' && bracketStep c = 0) &&
      ((Quoting.inside quote escaped).next isQuote c).hasPlainLiterals cs

/-- So a character in such a literal counts for nothing. -/
theorem Quoting.plain_of_hasPlainLiterals {q : Quoting} {u v : Text} {c quote : Char}
    {escaped : Bool} (h : q.hasPlainLiterals (u ++ c :: v))
    (hinside : q.past isQuote u = .inside quote escaped) (hquote : quote ≠ '"') :
    c ≠ ';' ∧ bracketStep c = 0 := by
  induction u generalizing q with
  | nil =>
    obtain rfl : q = .inside quote escaped := hinside
    rw [List.nil_append, hasPlainLiterals, Bool.and_eq_true] at h
    simpa [hquote] using h.1
  | cons d u ih =>
    refine ih ?_ hinside
    cases q with
    | outside => exact h
    | inside quote' escaped' =>
      rw [List.cons_append, hasPlainLiterals, Bool.and_eq_true] at h
      exact h.2

/-- In a value of the code with plain literals, all that stands in a literal counts for nothing,
whichever quotes it has. -/
theorem plain_of_isInside {rest value back u v : Text} {c : Char}
    (hmask : mask rest = value ++ back) (hplain : Quoting.outside.hasPlainLiterals value)
    (hvalue : value = u ++ c :: v)
    (hinside : (Quoting.outside.past isQuote u).isInside) : c ≠ ';' ∧ bracketStep c = 0 := by
  cases hpast : Quoting.outside.past isQuote u with
  | outside => rw [hpast] at hinside; contradiction
  | inside quote escaped =>
    by_cases hquote : quote = '"'
    · rw [hquote] at hpast
      have heq : mask rest = u ++ c :: (v ++ back) := by rw [hmask, hvalue]; simp
      have habreast : Quoting.outside.Abreast .outside := rfl
      rcases eq_space_of_maskFrom Quoting.isDouble_outside habreast heq hpast with rfl | rfl <;>
        decide
    · exact Quoting.plain_of_hasPlainLiterals (hvalue ▸ hplain) hpast hquote

/-- **The brackets in a value with plain literals do not mislead**: the two ways to count them agree
on every front part of it. -/
theorem IsFirstPart.bracketDepth_of_hasPlainLiterals {rest value back : Text}
    (h : IsFirstPart 0 .outside value back) (hmask : mask rest = value ++ back)
    (hplain : Quoting.outside.hasPlainLiterals value) :
    (∀ u v, value = u ++ ';' :: v → 0 < bracketDepth u) ∧
      (back ≠ [] → bracketDepth value ≤ 0) := by
  have hdepth : ∀ u v, value = u ++ v → Quoting.outside.depthOutside u = bracketDepth u := by
    rintro u v hvalue
    refine Quoting.depthOutside_eq fun c u' v' hu hinside => ?_
    exact (plain_of_isInside (v := v' ++ v) hmask hplain (by simp [hvalue, hu]) hinside).2
  constructor
  · intro u v hvalue
    rcases h.inner u v hvalue with hinside | hopen
    · exact absurd rfl (plain_of_isInside hmask hplain hvalue hinside).1
    · rwa [Int.zero_add, hdepth u _ hvalue] at hopen
  · intro hne
    have hlast := (h.last hne).2
    rwa [Int.zero_add, hdepth value [] (List.append_nil _).symm] at hlast

/-! ## 5. The first clause of a header -/

namespace Token

/-- What is read by the first tokens, up to the end of the last of them. It is made of their
characters and of white space. -/
theorem exists_of_scanFrom_eq_append {tokens : List Token} {last : Token} {offset : Nat} {t : Text}
    {more : List Token} (h : scanFrom offset t = tokens ++ last :: more) :
    ∃ front after, t = front ++ after ∧ offset + byteSize front = last.stop ∧
      scanFrom last.stop after = more ∧
      ∀ c ∈ front, isBlank c ∨ ∃ token ∈ tokens ++ [last], c ∈ token.text := by
  induction tokens generalizing offset t with
  | nil =>
    obtain ⟨lead, after, hlead, rfl, hoffset, -, hmore⟩ := exists_of_scanFrom_eq_cons h
    refine ⟨lead ++ last.text, after, (List.append_assoc ..).symm, ?_, hmore, fun c hc => ?_⟩
    · rw [byteSize_append, stop, hoffset, Nat.add_assoc]
    · rcases List.mem_append.mp hc with hc | hc
      · exact .inl (List.all_eq_true.mp hlead c hc)
      · exact .inr ⟨last, by simp, hc⟩
  | cons token tokens ih =>
    obtain ⟨lead, after, hlead, rfl, hoffset, -, hrest⟩ := exists_of_scanFrom_eq_cons h
    obtain ⟨front, after, rfl, hstop, hmore, hchars⟩ := ih hrest
    refine ⟨lead ++ token.text ++ front, after, by simp, ?_, hmore, fun c hc => ?_⟩
    · rw [← hstop, stop, hoffset, byteSize_append, byteSize_append]
      omega
    · rcases List.mem_append.mp hc with hc | hc
      · rcases List.mem_append.mp hc with hc | hc
        · exact .inl (List.all_eq_true.mp hlead c hc)
        · exact .inr ⟨token, by simp, hc⟩
      · refine (hchars c hc).imp_right ?_
        rintro ⟨token', hmem, hc'⟩
        exact ⟨token', List.mem_cons_of_mem _ hmem, hc'⟩

/-- A name holds neither a quote nor a bracket nor a semicolon. -/
theorem not_mem_marks_of_name {t : Text} {token : Token} (h : token ∈ scan t)
    (hkind : token.kind = .name) {c : Char} (hc : c ∈ token.text) : c ∉ marks := by
  obtain ⟨front, d, ds, -, -, rfl⟩ := exists_of_mem_scan h
  have hd : kindOf d = .name := hkind
  rw [hd] at hc
  rcases List.mem_cons.mp hc with rfl | hc
  · exact not_mem_marks (p := fun c => kindOf c = .name) (by decide) (by simpa using hd)
  · exact not_mem_marks_of_isNameChar (List.mem_takeWhile_imp hc)

/-- Between the bracket of a header and the value of its variable there is no mark, so a scan that
sets out at the bracket comes to the value in the state in which one that sets out there does. -/
theorem exists_front_of_header {code : Text} {keyword opener word name assign : Token}
    {more : List Token} (h : scan code = keyword :: opener :: word :: name :: assign :: more)
    (hword : word.kind = .name) (hname : name.kind = .name) (hassigns : assign.assigns) :
    ∃ front, dropBytes opener.stop code = front ++ dropBytes assign.valueOffset code ∧
      opener.stop + byteSize front = assign.valueOffset ∧ ∀ c ∈ front, c ∉ marks := by
  have hheader : scanFrom 0 code = [keyword] ++ opener :: ([word] ++ name :: assign :: more) := h
  -- the text is cut behind the bracket, and then behind the name
  obtain ⟨head, inner, hcode, hhead, hinner, -⟩ := exists_of_scanFrom_eq_append hheader
  obtain ⟨names, afterNames, rfl, hnames, hafter, hchars⟩ := exists_of_scanFrom_eq_append hinner
  obtain ⟨lead, after, hlead, rfl, hoffset, -, -⟩ := exists_of_scanFrom_eq_cons hafter
  rw [assigns, Bool.and_eq_true, Bool.and_eq_true] at hassigns
  obtain ⟨signs, hsigns⟩ := List.isPrefixOf_iff_prefix.mp hassigns.1.2
  rw [Nat.zero_add] at hhead
  have hsize : opener.stop + byteSize (names ++ lead ++ ['=']) = assign.valueOffset := by
    rw [valueOffset, hoffset, ← hnames, byteSize_append, byteSize_append, Nat.add_assoc,
      Nat.add_assoc, Nat.add_assoc]
    rfl
  refine ⟨names ++ lead ++ ['='], ?_, hsize, fun c hc => ?_⟩
  · have hvalue : code = (head ++ (names ++ lead ++ ['='])) ++ (signs ++ after) := by
      rw [hcode, ← hsigns]
      simp
    have hfront : byteSize (head ++ (names ++ lead ++ ['='])) = assign.valueOffset := by
      rw [byteSize_append, hhead, hsize]
    rw [← hfront, ← hhead, hvalue, dropBytes_byteSize_append, List.append_assoc,
      dropBytes_byteSize_append]
  · rcases List.mem_append.mp hc with hc | hc
    · rcases List.mem_append.mp hc with hc | hc
      · -- the characters of names, of white space and of the assignment are no marks
        rcases hchars c hc with hblank | ⟨token, htoken, htext⟩
        · exact not_mem_marks_of_isBlank hblank
        · rcases List.mem_cons.mp htoken with rfl | htoken
          · exact not_mem_marks_of_name (t := code) (by simp [h]) hword htext
          · obtain rfl := List.mem_singleton.mp htoken
            exact not_mem_marks_of_name (t := code) (by simp [h]) hname htext
      · exact not_mem_marks_of_isBlank (List.all_eq_true.mp hlead c hc)
    · obtain rfl := List.mem_singleton.mp hc
      decide

end Token

/-- What is no mark goes in front of the first part. -/
theorem IsFirstPart.append {front value back : Text} (h : IsFirstPart 0 .outside value back)
    (hfront : ∀ c ∈ front, c ∉ marks) : IsFirstPart 0 .outside (front ++ value) back := by
  induction front with
  | nil => exact h
  | cons c front ih =>
    have hc := hfront c List.mem_cons_self
    refine IsFirstPart.cons ?_ ?_
    · rw [Quoting.next_of_not_opens (isQuote_of_not_mem_marks hc),
        bracketStep_of_not_mem_marks hc]
      exact ih fun d hd => hfront d (List.mem_cons_of_mem _ hd)
    · rintro rfl
      exact absurd hc (by decide)

/-- A part that ends at a cut is the first one of a longer text as well. The inside of a header is
shorter than the line, so this is needed to compare the two. -/
theorem IsFirstPart.append_back {value back : Text} (h : IsFirstPart 0 .outside value back)
    (hne : back ≠ []) (more : Text) : IsFirstPart 0 .outside value (back ++ more) := by
  refine ⟨.inr ?_, h.inner, fun _ => h.last hne⟩
  rw [List.head?_append_of_ne_nil _ hne]
  exact h.back_eq.resolve_left hne

/-- A header that declares a variable with a value, `for (var i = 0; …`. The tokens that it starts
with are fields, so that its parts need not be looked for again. -/
structure DeclaringHeader (view : RuleView) where
  keyword : Token
  opener : Token
  word : Token
  name : Token
  assign : Token
  more : List Token
  tokens_eq : view.tokens = keyword :: opener :: word :: name :: assign :: more
  keyword_isWord : keyword.isWord "for"
  opener_kind : opener.kind = .opener .round
  word_isWord : word.isWord "var"
  name_kind : name.kind = .name
  assign_assigns : assign.assigns

namespace DeclaringHeader

variable {view : RuleView} (header : DeclaringHeader view)

/-- The tokens from the opening bracket on. -/
def tokens : List Token :=
  header.opener :: header.word :: header.name :: header.assign :: header.more

/-- The closing bracket. -/
def closer : Option Token :=
  (Token.partner? header.tokens 0).bind (header.tokens[·]?)

/-- What stands between the brackets. A header that is not closed goes to the end of the code. -/
def inner : Text :=
  between header.opener.stop (match header.closer with
    | some t => t.offset
    | none => view.codeEnd) view.code

/-- The parts of what stands between the brackets. -/
def clauses : List (Nat × Text) :=
  topLevelParts ';' header.inner

/-- The header as the rule takes it apart. -/
def taken : LoopHeader :=
  { keyword := header.keyword, start := header.opener.offset
    stop := match header.closer with
      | some t => t.stop
      | none => view.codeEnd
    base := header.opener.stop, inner := header.inner }

/-- The rule checks the clauses, if the header has two of them or more. -/
theorem loopFindings_eq (h : header.clauses.length ≠ 1) :
    loopFindings view =
      clauseFindings view header.taken header.clauses ++ view.blockFindings header.closer := by
  rw [loopFindings, header.tokens_eq]
  simp only [header.keyword_isWord, header.opener_kind, if_true]
  change (if header.clauses.length = 1 then _ else
    clauseFindings view header.taken header.clauses) ++ view.blockFindings header.closer = _
  rw [if_neg h]

end DeclaringHeader

/-- **The first clause of a header ends where the first part behind its equals sign does.** Both are
first parts of the same text, and there is only one. -/
theorem IsFirstPart.clause_eq {view : RuleView} (header : DeclaringHeader view) {value back : Text}
    (h : IsFirstPart 0 .outside value back)
    (hvalue : dropBytes header.assign.valueOffset view.code = value ++ back) {first : Nat × Text}
    {rest : List (Nat × Text)} (hclauses : header.clauses = first :: rest) (hrest : rest ≠ []) :
    first.1 = 0 ∧
      header.opener.stop + byteSize first.2 = header.assign.valueOffset + byteSize value := by
  obtain ⟨front, hinner, hsize, hmarks⟩ := Token.exists_front_of_header header.tokens_eq
    (Token.kind_of_isWord header.word_isWord) header.name_kind header.assign_assigns
  obtain ⟨clause, parts, tail, hparts, hheader, hmore, hfirst⟩ := exists_topLevelParts header.inner
  obtain ⟨rfl, rfl⟩ := List.cons.inj (hclauses.symm.trans hparts)
  have htail : tail ≠ [] := fun hnil => hrest (hmore.mpr hnil)
  -- the code behind the bracket starts with what stands between the brackets
  obtain ⟨beyond, hbeyond⟩ :
      ∃ beyond, header.inner ++ beyond = dropBytes header.opener.stop view.code :=
    ⟨_, takeBytes_append_dropBytes _ _⟩
  have hwhole : clause ++ (tail ++ beyond) = front ++ value ++ back := by
    rw [← List.append_assoc, ← hheader, hbeyond, List.append_assoc, ← hvalue]
    exact hinner
  obtain rfl := (hfirst.append_back htail beyond).eq (h.append hmarks) hwhole
  refine ⟨rfl, ?_⟩
  rw [byteSize_append, ← hsize, Nat.add_assoc]

/-! ## 6. The end of a value -/

namespace Collector

/-- **A value ends with the first part exactly if the brackets and semicolons in it do not mislead
the scan that knows brackets only.** Behind every equals sign of the code there is a first part, up
to the first semicolon at top level. The value ends where it does if and only if every semicolon in
it has more opening than closing brackets before it, and all of it has not, if a semicolon follows.
So it is with every value whose literals of other quotes than double ones hold no semicolon and no
bracket. The rule for loops has the first of the clauses that it checks end where the first part
does. -/
theorem value_ends_with_first_part_iff (l : Line) {assign : Token}
    (hmem : assign ∈ Token.scan l.code) (hassigns : assign.assigns) :
    ∃ value parts,
      topLevelParts ';' (dropBytes assign.valueOffset l.code) = (0, value) :: parts ∧
      (valueStop l.code assign.valueOffset = assign.valueOffset + byteSize value ↔
        (∀ u v, value = u ++ ';' :: v → 0 < bracketDepth u) ∧
          (parts ≠ [] → bracketDepth value ≤ 0)) ∧
      (Quoting.outside.hasPlainLiterals value →
        valueStop l.code assign.valueOffset = assign.valueOffset + byteSize value) ∧
      ∀ (view : RuleView) (header : DeclaringHeader view), view.line = l → header.assign = assign →
        ∀ first rest, header.clauses = first :: rest → rest ≠ [] →
          loopFindings view = clauseFindings view header.taken (first :: rest) ++
            view.blockFindings header.closer ∧
          first.1 = 0 ∧
          header.taken.base + byteSize first.2 = assign.valueOffset + byteSize value := by
  obtain ⟨u, v, hcode, hoffset⟩ := Token.standsAt_equals hmem hassigns
  have hsize : byteSize (u ++ ['=']) = assign.valueOffset := by
    rw [byteSize_append, hoffset]
    rfl
  have hdrop : dropBytes assign.valueOffset l.code = v := by
    rw [hcode, ← hsize, dropBytes_byteSize_append]
  obtain ⟨value, parts, back, hparts, rfl, hmore, hfirst⟩ := exists_topLevelParts v
  have hiff := valueStop_eq_iff (u ++ ['=']) value hfirst.back_eq
  have hcut : parts ≠ [] ↔ back ≠ [] := not_congr hmore
  rw [← hcode, hsize, ← hcut] at hiff
  refine ⟨value, parts, hdrop ▸ hparts, hiff, fun hplain => ?_, ?_⟩
  · -- the text behind an equals sign is masked on its own
    have hmask : mask l.body = u ++ '=' :: (value ++ back) := by
      rw [← l.code_eq_mask, hcode]
      simp
    obtain ⟨-, rest, -, -, -, hrest⟩ := exists_of_mask_eq hmask (by decide) (by decide)
    rw [hiff, hcut]
    exact hfirst.bracketDepth_of_hasPlainLiterals hrest hplain
  · rintro view header rfl rfl first rest hclauses hrest
    have hlength : header.clauses.length ≠ 1 := by
      rw [hclauses, List.length_cons]
      exact fun hone => hrest (List.length_eq_zero_iff.mp (Nat.succ.inj hone))
    exact ⟨hclauses ▸ header.loopFindings_eq hlength, hfirst.clause_eq header hdrop hclauses hrest⟩

/-- A header with a semicolon and brackets between double quotes, and plain single quotes. -/
def quotedHeader : Line :=
  ⟨0, 0, "for (var i = f(\");(\", 'a'); i < 3; i = i + 1) \x7b".toList⟩

/-- The header, taken apart, of a document that has no other line. -/
def quotedHeaderTaken : DeclaringHeader ⟨quotedHeader, none, none, {}⟩ where
  keyword := ⟨.name, "for".toList, 0⟩
  opener := ⟨.opener .round, ['('], 4⟩
  word := ⟨.name, "var".toList, 5⟩
  name := ⟨.name, ['i'], 9⟩
  assign := ⟨.operator, ['='], 11⟩
  more := (Token.scan quotedHeader.code).drop 5
  tokens_eq := by decide +kernel
  keyword_isWord := by decide
  opener_kind := rfl
  word_isWord := by decide
  name_kind := rfl
  assign_assigns := by decide

/-- The value of the variable and the first clause end at the same semicolon. -/
theorem value_of_quotedHeader :
    topLevelParts ';' (dropBytes 12 quotedHeader.code) =
      [(0, " f(\"   \", 'a')".toList), (15, " i < 3".toList), (22, " i = i + 1) \x7b".toList)] ∧
    Quoting.outside.hasPlainLiterals " f(\"   \", 'a')".toList ∧
    valueStop quotedHeader.code 12 = 26 ∧
    quotedHeaderTaken.clauses.head? = some (0, "var i = f(\"   \", 'a')".toList) ∧
    quotedHeaderTaken.taken.base + byteSize "var i = f(\"   \", 'a')".toList = 26 := by
  have hmem : (⟨.operator, ['='], 11⟩ : Token) ∈ Token.scan quotedHeader.code := by
    decide +kernel
  have hfirst : topLevelParts ';' (dropBytes 12 quotedHeader.code) =
      [(0, " f(\"   \", 'a')".toList), (15, " i < 3".toList), (22, " i = i + 1) \x7b".toList)] := by
    decide +kernel
  have hclauses : quotedHeaderTaken.clauses =
      [(0, "var i = f(\"   \", 'a')".toList), (22, " i < 3".toList),
        (29, " i = i + 1".toList)] := by
    decide +kernel
  have hplain : Quoting.outside.hasPlainLiterals " f(\"   \", 'a')".toList := by decide
  obtain ⟨value, parts, hparts, -, hstop, hloop⟩ :=
    value_ends_with_first_part_iff quotedHeader hmem (by decide)
  obtain ⟨hvalue, -⟩ := List.cons.inj (hparts.symm.trans hfirst)
  obtain rfl : value = " f(\"   \", 'a')".toList := (Prod.mk.inj hvalue).2
  obtain ⟨-, -, hend⟩ := hloop _ quotedHeaderTaken rfl rfl _ _ hclauses (by simp)
  exact ⟨hfirst, hplain, hstop hplain, congrArg List.head? hclauses, hend⟩

/-- A header with an opening bracket between single quotes. -/
def misledHeader : Line :=
  ⟨0, 0, "for (var i = '('; i < 3; i = i + 1) \x7b".toList⟩

/-- The bracket in the literal counts for one, so the value goes to the end of the line, while the
first clause ends at the first semicolon. -/
theorem value_beyond_first_part :
    (⟨.operator, ['='], 11⟩ : Token) ∈ Token.scan misledHeader.code ∧
    (topLevelParts ';' (dropBytes 12 misledHeader.code)).head? = some (0, " '('".toList) ∧
    (topLevelParts ';' (between 5 34 misledHeader.code)).head? = some (0, "var i = '('".toList) ∧
    valueStop misledHeader.code 12 = byteSize misledHeader.code ∧
    valueStop misledHeader.code 12 ≠ 12 + byteSize " '('".toList := by
  decide +kernel

end Collector

end MacroScript
