import MacroScript.Proofs.Token.Span

/-!
# Tokens of a slice

A token is told by its first character and by what follows up to its end. What follows further on
does not matter, although a number looks one character beyond a point: **a text that is cut behind a
token has the same tokens up to there** (`Token.tail_front`). A scan has no memory either, so a text
that starts with a token has the same tokens from there on. Together they say that a slice between
the ends of two tokens is read like the line (`Token.exists_slice`).

The tokens leave free the spans before, between and after them (`Token.gaps`), and these hold
nothing but white space.
-/
namespace MacroScript

open Text

namespace Token

/-! ## 1. The rest of a token in a front part -/

/-- The rest of a literal is found by going on to its quote. A front part that holds it all has the
quote in the same place. -/
theorem stringTail_front {quote : Char} {escaped : Bool} {cs front : Text}
    (h : stringTail quote escaped cs <+: front) (hfront : front <+: cs) :
    stringTail quote escaped front = stringTail quote escaped cs := by
  fun_induction stringTail quote escaped cs generalizing front with
  | case1 =>
    obtain rfl := List.prefix_nil.mp hfront
    rw [stringTail]
  | case2 c cs ih =>
    obtain ⟨front, rfl, htail⟩ := List.cons_prefix_iff.mp h
    rw [stringTail, ih htail (List.cons_prefix_cons.mp hfront).2]
  | case3 cs ih =>
    obtain ⟨front, rfl, htail⟩ := List.cons_prefix_iff.mp h
    rw [stringTail, if_pos rfl, ih htail (List.cons_prefix_cons.mp hfront).2]
  | case4 cs hbackslash =>
    obtain ⟨front, rfl, -⟩ := List.cons_prefix_iff.mp h
    rw [stringTail, if_neg hbackslash, if_pos rfl]
  | case5 c cs hbackslash hquote ih =>
    obtain ⟨front, rfl, htail⟩ := List.cons_prefix_iff.mp h
    rw [stringTail, if_neg hbackslash, if_neg hquote, ih htail (List.cons_prefix_cons.mp hfront).2]

/-- A number does not miss the digit that it looks for behind a point: if there is one, it is part
of the number and so of the front. -/
theorem numberTail_front {cs front : Text} (h : numberTail cs <+: front) (hfront : front <+: cs) :
    numberTail front = numberTail cs := by
  fun_induction numberTail cs generalizing front with
  | case1 =>
    obtain rfl := List.prefix_nil.mp hfront
    rw [numberTail]
  | case2 c cs hc ih =>
    obtain ⟨front, rfl, htail⟩ := List.cons_prefix_iff.mp h
    have hrest := ih htail (List.cons_prefix_cons.mp hfront).2
    -- the digit behind a point is part of the number, too, and so it is in the front
    have hc' : isAsciiDigit c || (c = '.' && front.head?.any isAsciiDigit) := by
      cases hdigit : isAsciiDigit c with
      | true => rfl
      | false =>
        rw [hdigit, Bool.false_or, Bool.and_eq_true] at hc
        obtain ⟨d, hd, hdigit'⟩ := (Option.any_eq_true _ _).mp hc.2
        obtain ⟨cs, rfl⟩ := List.head?_eq_some_iff.mp hd
        rw [numberTail, hdigit', Bool.true_or, if_pos rfl] at htail
        obtain ⟨front, rfl, -⟩ := List.cons_prefix_iff.mp htail
        simp [hc.1, hdigit']
    rw [numberTail, if_pos hc', hrest]
  | case3 c cs hc =>
    cases front with
    | nil => rw [numberTail]
    | cons d front =>
      obtain ⟨rfl, more, rfl⟩ := List.cons_prefix_cons.mp hfront
      rw [numberTail, if_neg]
      intro hd
      apply hc
      rw [Bool.or_eq_true, Bool.and_eq_true] at hd ⊢
      refine hd.imp id fun hpoint => ⟨hpoint.1, ?_⟩
      obtain ⟨e, he, hdigit⟩ := (Option.any_eq_true _ _).mp hpoint.2
      obtain ⟨front, rfl⟩ := List.head?_eq_some_iff.mp he
      simpa using hdigit

/-- A run of characters that lies within a front part ends there as in the text, with a character
that does not belong to it or with the front part. -/
theorem takeWhile_front {p : Char → Bool} {cs front : Text} (h : cs.takeWhile p <+: front)
    (hfront : front <+: cs) : front.takeWhile p = cs.takeWhile p := by
  induction cs generalizing front with
  | nil => rw [List.prefix_nil.mp hfront]
  | cons c cs ih =>
    by_cases hc : p c
    · rw [List.takeWhile_cons_of_pos hc] at h ⊢
      obtain ⟨front, rfl, htail⟩ := List.cons_prefix_iff.mp h
      rw [List.takeWhile_cons_of_pos hc, ih htail (List.cons_prefix_cons.mp hfront).2]
    · rw [List.takeWhile_cons_of_neg hc]
      cases front with
      | nil => rfl
      | cons d front =>
        obtain ⟨rfl, -⟩ := List.cons_prefix_cons.mp hfront
        rw [List.takeWhile_cons_of_neg hc]

/-- **What follows a token does not matter**: any front part that holds its rest gives it the same
rest. One case for each way in which a token goes on. -/
theorem tail_front {kind : Kind} {c : Char} {cs front : Text} (h : tail kind c cs <+: front)
    (hfront : front <+: cs) : tail kind c front = tail kind c cs := by
  unfold tail at h ⊢
  split at h
  · exact stringTail_front h hfront
  · exact numberTail_front h hfront
  · exact takeWhile_front h hfront
  · exact takeWhile_front h hfront
  · rfl

/-- A token is read as before if the text is cut somewhere behind it, and the rest is read from its
end. -/
theorem scanFrom_front {c : Char} {cs front back : Text} (hblank : isBlank c = false)
    (hcs : cs.drop (tail (kindOf c) c cs).length = front ++ back) (offset : Nat) :
    scanFrom offset (c :: tail (kindOf c) c cs ++ front) =
      ⟨kindOf c, c :: tail (kindOf c) c cs, offset⟩ ::
        scanFrom (offset + byteSize (c :: tail (kindOf c) c cs)) front := by
  refine scanFrom_append hblank (tail_front (List.prefix_append _ _) ⟨back, ?_⟩) offset
  rw [List.append_assoc, ← hcs, tail_append_drop]

/-! ## 2. Cuts at the ends of tokens -/

/-- The text is cut at a byte of its line, and so are its tokens behind the first `k` of them. The
front part is read from the start of the text, and the back from the cut. -/
def IsCutAt (offset : Nat) (t : Text) (n k : Nat) : Prop :=
  ∃ front back, t = front ++ back ∧ n = offset + byteSize front ∧
    scanFrom offset front = (scanFrom offset t).take k ∧
    scanFrom n back = (scanFrom offset t).drop k

/-- A cut of a text is one of the text behind white space, which is no part of any token. -/
theorem IsCutAt.blank {offset n k : Nat} {c : Char} {cs : Text} (hc : isBlank c)
    (h : IsCutAt (offset + c.utf8Size) cs n k) : IsCutAt offset (c :: cs) n k := by
  obtain ⟨front, back, rfl, rfl, hfront, hback⟩ := h
  refine ⟨c :: front, back, rfl, by rw [byteSize_cons, Nat.add_assoc], ?_, ?_⟩
  · rw [scanFrom_blank _ _ hc, scanFrom_blank _ _ hc, hfront]
  · rw [scanFrom_blank _ _ hc, hback]

/-- A cut of what follows a token is one behind a further token. That the token itself is read as
before is `scanFrom_front`. -/
theorem IsCutAt.token {offset n k : Nat} {c : Char} {cs : Text} (hc : isBlank c = false)
    (h : IsCutAt (offset + c.utf8Size + byteSize (tail (kindOf c) c cs))
      (cs.drop (tail (kindOf c) c cs).length) n k) : IsCutAt offset (c :: cs) n (k + 1) := by
  obtain ⟨front, back, hcs, rfl, hfront, hback⟩ := h
  refine ⟨c :: tail (kindOf c) c cs ++ front, back, ?_, ?_, ?_, ?_⟩
  · rw [List.append_assoc, ← hcs, List.cons_append, tail_append_drop]
  · rw [byteSize_append, byteSize_cons]
    omega
  · rw [scanFrom_front hc hcs, scanFrom_token _ _ hc, List.take_succ_cons, ← hfront, byteSize_cons,
      Nat.add_assoc]
  · rw [scanFrom_token _ _ hc, List.drop_succ_cons, hback]

/-- **A text can be cut where a token starts.** The induction follows the reader: each token that is
passed is one more in front of the cut. -/
theorem isCutAt_offset {offset : Nat} {t : Text} {token : Token} (i : Nat)
    (h : (scanFrom offset t)[i]? = some token) : IsCutAt offset t token.offset i := by
  fun_induction scanFrom offset t generalizing i with
  | case1 => simp at h
  | case2 offset c cs hblank ih => exact (ih i h).blank hblank
  | case3 offset c cs hblank kind rest ih =>
    cases i with
    | zero =>
      obtain rfl := Option.some.inj h
      exact ⟨[], c :: cs, rfl, rfl, by simp, rfl⟩
    | succ i => exact (ih i h).token (by simpa using hblank)

/-- **A text can be cut where a token stops**, by the same induction with the cut one token later.
-/
theorem isCutAt_stop {offset : Nat} {t : Text} {token : Token} (i : Nat)
    (h : (scanFrom offset t)[i]? = some token) : IsCutAt offset t token.stop (i + 1) := by
  fun_induction scanFrom offset t generalizing i with
  | case1 => simp at h
  | case2 offset c cs hblank ih => exact (ih i h).blank hblank
  | case3 offset c cs hblank kind rest ih =>
    refine .token (by simpa using hblank) ?_
    cases i with
    | zero =>
      obtain rfl := Option.some.inj h
      refine ⟨[], _, rfl, ?_, by simp, ?_⟩
      · simp [stop, Nat.add_assoc, kind, rest]
      · simp [stop, Nat.add_assoc, kind, rest]
    | succ i => exact ih i h

/-- What follows a cut has the tokens behind it, counted from the cut. -/
theorem IsCutAt.exists_back {t : Text} {n k : Nat} (h : IsCutAt 0 t n k) :
    ∃ s, StandsAt t n s ∧ n + byteSize s = byteSize t ∧
      (scan s).map (moved n) = (scan t).drop k := by
  obtain ⟨front, back, rfl, rfl, -, hback⟩ := h
  rw [Nat.zero_add] at hback ⊢
  refine ⟨back, ⟨front, [], by simp, rfl⟩, (byteSize_append ..).symm, ?_⟩
  rw [scan, ← scanFrom_add, Nat.add_zero, hback, scan]

/-- **A slice between two tokens has the tokens of the text between them.** The text is cut behind
the last one first, and then in front of the first one. -/
theorem exists_slice {t : Text} {i j : Nat} {first last : Token} (hij : i ≤ j)
    (hfirst : (scan t)[i]? = some first) (hlast : (scan t)[j]? = some last) :
    ∃ s, slice? first.offset last.stop t = some s ∧
      (scan s).map (moved first.offset) = ((scan t).take (j + 1)).drop i := by
  obtain ⟨front, back, rfl, hstop, hfront, -⟩ := isCutAt_stop j hlast
  rw [Nat.zero_add] at hstop
  -- the first token is one of the front, too
  have hfirst' : (scan front)[i]? = some first := by
    rw [scan, hfront, List.getElem?_take_of_lt (by omega)]
    exact hfirst
  obtain ⟨s, hstands, hsize, hscan⟩ := (isCutAt_offset i hfirst').exists_back
  refine ⟨s, ?_, by rw [hscan, scan, hfront, scan]⟩
  have hfrontAt : StandsAt (front ++ back) 0 front := ⟨[], back, rfl, rfl⟩
  have hslice := (hfrontAt.trans hstands).slice?_eq
  rwa [Nat.zero_add, hsize, ← hstop] at hslice

/-! ## 3. Gaps -/

/-- The spans that the tokens leave free between the bytes `start` and `stop` of a text: before the
first of them, between each two, and after the last. -/
def gaps (start stop : Nat) : List Token → List (Nat × Nat)
  | [] => [(start, stop)]
  | t :: ts => (start, t.offset) :: gaps t.stop stop ts

/-- **The gaps are white space**: the reader skips nothing else. The part before the gap is carried
along as `front`, so that the gap is cut out of the whole text. -/
theorem exists_blanks_of_mem_gaps (front : Text) {t : Text} {gap : Nat × Nat}
    (h : gap ∈ gaps (byteSize front) (byteSize (front ++ t)) (scanFrom (byteSize front) t)) :
    ∃ blanks, slice? gap.1 gap.2 (front ++ t) = some blanks ∧ isAllBlank blanks := by
  generalize htokens : scanFrom (byteSize front) t = tokens at h
  induction tokens generalizing front t with
  | nil =>
    obtain rfl := List.mem_singleton.mp h
    have hstands : StandsAt (front ++ t) (byteSize front) t := ⟨front, [], by simp, rfl⟩
    refine ⟨t, ?_, isAllBlank_of_scanFrom_eq_nil htokens⟩
    rw [byteSize_append, hstands.slice?_eq]
  | cons token tokens ih =>
    obtain ⟨lead, after, hlead, rfl, hoffset, -, hrest⟩ := exists_of_scanFrom_eq_cons htokens
    rcases List.mem_cons.mp h with rfl | h
    · have hstands : StandsAt (front ++ (lead ++ (token.text ++ after))) (byteSize front) lead :=
        ⟨front, token.text ++ after, by simp, rfl⟩
      exact ⟨lead, by rw [hoffset, hstands.slice?_eq], hlead⟩
    · have hstop : byteSize (front ++ (lead ++ token.text)) = token.stop := by
        rw [byteSize_append, byteSize_append, stop, hoffset, Nat.add_assoc]
      have hwhole : front ++ (lead ++ (token.text ++ after)) =
          front ++ (lead ++ token.text) ++ after := by simp
      rw [hwhole] at h ⊢
      rw [← hstop] at h hrest
      exact ih _ hrest h

/-! ## 4. Lossless and local -/

/-- **The tokens of a text are the text, and those of a slice are those of the text.** Each token is
the slice at its place, they follow one another, and all that is left out is white space. The slice
from the start of one token to the end of another, or of the text, has the same tokens, counted from
its start. -/
theorem scan_lossless_and_local (code : Text) :
    (∀ t ∈ scan code, t.text ≠ [] ∧ slice? t.offset t.stop code = some t.text) ∧
    ((scan code).Pairwise fun a b => a.offset < b.offset ∧ a.stop ≤ b.offset) ∧
    (∀ gap ∈ gaps 0 (byteSize code) (scan code),
      ∃ blanks, slice? gap.1 gap.2 code = some blanks ∧ isAllBlank blanks) ∧
    ∀ (i j : Nat) (first last : Token), i ≤ j → (scan code)[i]? = some first →
      (scan code)[j]? = some last →
      (∃ s, slice? first.offset last.stop code = some s ∧
        (scan s).map (moved first.offset) = ((scan code).take (j + 1)).drop i) ∧
      ∃ s, slice? first.offset (byteSize code) code = some s ∧
        (scan s).map (moved first.offset) = (scan code).drop i := by
  refine ⟨fun t ht => ⟨?_, (standsAt_of_mem_scan ht).slice?_eq⟩, ?_, fun gap hgap => ?_,
    fun i j first last hij hfirst hlast => ⟨exists_slice hij hfirst hlast, ?_⟩⟩
  · obtain ⟨front, c, cs, -, -, rfl⟩ := exists_of_mem_scan ht
    exact List.cons_ne_nil _ _
  · refine List.Pairwise.imp_of_mem ?_ (pairwise_scan code)
    intro a b ha _ hle
    exact ⟨Nat.lt_of_lt_of_le (offset_lt_stop ha) hle, hle⟩
  · exact exists_blanks_of_mem_gaps [] hgap
  · obtain ⟨s, hstands, hsize, hscan⟩ := (isCutAt_offset i hfirst).exists_back
    exact ⟨s, by rw [← hsize, hstands.slice?_eq], hscan⟩

/-- Points that belong to a number and points that do not, and a literal without its end. -/
def fusedNumbers : Text :=
  "n1.5+=1.5.x('é".toList

/-- The slice `.5+=1.5` goes from a point that follows a name to the end of a number. -/
theorem slice_of_fusedNumbers :
    (scan fusedNumbers)[1]? = some ⟨.dot, ['.'], 2⟩ ∧
    (scan fusedNumbers)[4]? = some ⟨.number, "1.5".toList, 6⟩ ∧
    ∃ s, slice? 2 9 fusedNumbers = some s ∧
      (scan s).map (moved 2) = ((scan fusedNumbers).take 5).drop 1 := by
  have hfirst : (scan fusedNumbers)[1]? = some ⟨.dot, ['.'], 2⟩ := by decide +kernel
  have hlast : (scan fusedNumbers)[4]? = some ⟨.number, "1.5".toList, 6⟩ := by decide +kernel
  have hslices := (scan_lossless_and_local fusedNumbers).2.2.2 1 4 _ _ (by decide) hfirst hlast
  exact ⟨hfirst, hlast, hslices.1⟩

end Token

end MacroScript
