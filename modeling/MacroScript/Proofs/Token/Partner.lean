import MacroScript.Proofs.Token.Span
import Mathlib.Order.Bounds.Defs

/-!
# Partners of brackets

The partner of an opening bracket is found by a scan that counts the brackets of its kind from there
on. What the count says is the height of the tokens, those opened less those closed: **the scan
stops at the first token behind which the height is what it was in front of the opening bracket**
(`Token.partner?_eq_some_iff`). The height changes by one token at a time, so between the two
brackets it is greater (`Token.height_lt_of_partner?`) and on the way down no value is left out
(`Token.exists_height_eq`). So groups of one kind lie within each other or apart, whatever brackets
of the other kinds stand between (`Token.groups_balance_and_nest`).
-/
namespace MacroScript

namespace Token

/-! ## 1. Heights -/

/-- How many brackets of the kind the tokens open, less those that they close. It may be negative,
where closing brackets have no partner. -/
def height (bracket : Bracket) (tokens : List Token) : Int :=
  tokens.countP (·.kind = .opener bracket) - tokens.countP (·.kind = .closer bracket)

section Height

variable (bracket : Bracket)

/-- Heights add up, so that the height behind a token is told by that before it and the token. -/
theorem height_append (ts us : List Token) :
    height bracket (ts ++ us) = height bracket ts + height bracket us := by
  simp only [height, List.countP_append]
  omega

theorem height_cons (t : Token) (ts : List Token) :
    height bracket (t :: ts) = height bracket [t] + height bracket ts :=
  height_append bracket [t] ts

theorem height_opener {t : Token} (h : t.kind = .opener bracket) : height bracket [t] = 1 := by
  simp [height, h]

theorem height_closer {t : Token} (h : t.kind = .closer bracket) : height bracket [t] = -1 := by
  simp [height, h]

theorem height_other {t : Token} (hopener : t.kind ≠ .opener bracket)
    (hcloser : t.kind ≠ .closer bracket) : height bracket [t] = 0 := by
  simp [height, hopener, hcloser]

theorem height_take_succ {tokens : List Token} {n : Nat} {t : Token} (h : tokens[n]? = some t) :
    height bracket (tokens.take (n + 1)) = height bracket (tokens.take n) + height bracket [t] := by
  rw [List.take_add_one, h, height_append]
  rfl

/-- A token lowers the height by one at most. This is what makes the height go through every value
on its way down. -/
theorem neg_one_le_height (t : Token) : -1 ≤ height bracket [t] := by
  by_cases hopener : t.kind = .opener bracket
  · rw [height_opener bracket hopener]
    omega
  · by_cases hcloser : t.kind = .closer bracket
    · exact Int.le_of_eq (height_closer bracket hcloser).symm
    · rw [height_other bracket hopener hcloser]
      omega

theorem height_take_le (tokens : List Token) (n : Nat) :
    height bracket (tokens.take n) ≤ height bracket (tokens.take (n + 1)) + 1 := by
  cases h : tokens[n]? with
  | none =>
    have hlength := List.getElem?_eq_none_iff.mp h
    rw [List.take_of_length_le hlength, List.take_of_length_le (Nat.le_succ_of_le hlength)]
    omega
  | some t =>
    have hlow := neg_one_le_height bracket t
    rw [height_take_succ bracket h]
    omega

/-- **On the way down no height is left out**, and there is a first token behind which it is
reached. -/
theorem exists_height_eq (tokens : List Token) (low : Int) {m n : Nat} (hle : m ≤ n)
    (hstart : low < height bracket (tokens.take m))
    (hstop : height bracket (tokens.take n) ≤ low) :
    ∃ k, m ≤ k ∧ k < n ∧ height bracket (tokens.take (k + 1)) = low ∧
      ∀ k', m ≤ k' → k' < k → height bracket (tokens.take (k' + 1)) ≠ low := by
  -- by the length of the way, from its upper end
  induction hlength : n - m generalizing m with
  | zero =>
    obtain rfl : m = n := by omega
    omega
  | succ length ih =>
    by_cases hhere : height bracket (tokens.take (m + 1)) = low
    · exact ⟨m, Nat.le_refl m, by omega, hhere, fun k' hge hlt => by omega⟩
    · have hstep := height_take_le bracket tokens m
      obtain ⟨k, hmk, hkn, heq, hbefore⟩ := ih (m := m + 1) (by omega) (by omega) (by omega)
      refine ⟨k, by omega, hkn, heq, fun k' hge hlt => ?_⟩
      rcases Nat.eq_or_lt_of_le hge with rfl | hgt
      · exact hhere
      · exact hbefore k' hgt hlt

end Height

/-! ## 2. The scan for a partner -/

/-- One token of the scan: it ends at depth zero and goes on otherwise. The three branches of the
scan are one equation if the next depth is told by the height of the token. -/
theorem closeAfter_cons {bracket : Bracket} {depth next : Nat} {t : Token} (hdepth : 0 < depth)
    (hnext : (next : Int) = depth + height bracket [t]) (ts : List Token) :
    closeAfter bracket depth (t :: ts) =
      if next = 0 then some 0 else (closeAfter bracket next ts).map (· + 1) := by
  rw [closeAfter]
  by_cases hopener : t.kind = .opener bracket
  · rw [height_opener bracket hopener] at hnext
    obtain rfl : next = depth + 1 := by omega
    rw [if_pos hopener, if_neg (by omega)]
  · rw [if_neg hopener]
    by_cases hcloser : t.kind = .closer bracket
    · rw [height_closer bracket hcloser] at hnext
      obtain rfl : next = depth - 1 := by omega
      rw [if_pos hcloser]
      by_cases hlast : depth ≤ 1
      · rw [if_pos hlast, if_pos (by omega)]
      · rw [if_neg hlast, if_neg (by omega)]
    · rw [height_other bracket hopener hcloser] at hnext
      obtain rfl : next = depth := by omega
      rw [if_neg hcloser, if_neg (by omega)]

/-- **The scan stops at the first token that takes the depth away.** By induction over the tokens,
with the depth changing at each of them. -/
theorem closeAfter_eq_some_iff {bracket : Bracket} {depth : Nat} (hdepth : 0 < depth)
    {ts : List Token} {k : Nat} :
    closeAfter bracket depth ts = some k ↔
      k < ts.length ∧ depth + height bracket (ts.take (k + 1)) = 0 ∧
        ∀ m < k, depth + height bracket (ts.take (m + 1)) ≠ 0 := by
  induction ts generalizing depth k with
  | nil => simp [closeAfter]
  | cons t ts ih =>
    have hlow := neg_one_le_height bracket t
    obtain ⟨next, hnext⟩ : ∃ next : Nat, (next : Int) = depth + height bracket [t] :=
      ⟨(depth + height bracket [t]).toNat, by omega⟩
    -- behind the first token the depth is `next`, and further on it is counted from there
    have hfirst : depth + height bracket ((t :: ts).take 1) = next := by
      rw [List.take_succ_cons, List.take_zero, hnext]
    have hlater (m : Nat) : depth + height bracket ((t :: ts).take (m + 1 + 1)) =
        next + height bracket (ts.take (m + 1)) := by
      rw [List.take_succ_cons, height_cons, hnext, Int.add_assoc]
    rw [closeAfter_cons hdepth hnext]
    by_cases hzero : next = 0
    · rw [if_pos hzero, Option.some.injEq]
      constructor
      · rintro rfl
        exact ⟨by simp, by rw [hfirst, hzero]; rfl, fun m hm => by omega⟩
      · rintro ⟨-, -, hbefore⟩
        by_contra hne
        exact hbefore 0 (by omega) (by rw [hfirst, hzero]; rfl)
    · rw [if_neg hzero, Option.map_eq_some_iff]
      cases k with
      | zero =>
        constructor
        · rintro ⟨k, -, hk⟩
          omega
        · rintro ⟨-, heq, -⟩
          rw [hfirst] at heq
          omega
      | succ k =>
        have hone : (∃ a, closeAfter bracket next ts = some a ∧ a + 1 = k + 1) ↔
            closeAfter bracket next ts = some k := by simp
        rw [hone, ih (by omega), hlater, List.length_cons, Nat.add_lt_add_iff_right]
        refine and_congr_right fun _ => and_congr_right fun _ => ⟨fun hbefore m hm => ?_, ?_⟩
        · cases m with
          | zero =>
            rw [hfirst]
            omega
          | succ m =>
            rw [hlater]
            exact hbefore m (by omega)
        · intro hbefore m hm
          rw [← hlater]
          exact hbefore (m + 1) (by omega)

/-! ## 3. Partners by their heights -/

section Partner

variable {bracket : Bracket} {tokens : List Token} {i j : Nat}
  (hopens : tokens[i]?.map kind = some (.opener bracket))

include hopens

theorem exists_opener : ∃ t, tokens[i]? = some t ∧ t.kind = .opener bracket :=
  Option.map_eq_some_iff.mp hopens

theorem height_take_succ_opener :
    height bracket (tokens.take (i + 1)) = height bracket (tokens.take i) + 1 := by
  obtain ⟨t, ht, hkind⟩ := exists_opener hopens
  rw [height_take_succ bracket ht, height_opener bracket hkind]

/-- The partner is found by a scan of what follows, which starts with one open bracket. -/
theorem partner?_eq_map :
    partner? tokens i = (closeAfter bracket 1 (tokens.drop (i + 1))).map (· + (i + 1)) := by
  obtain ⟨t, ht, hkind⟩ := exists_opener hopens
  obtain ⟨hi, hget⟩ := List.getElem?_eq_some_iff.mp ht
  rw [partner?, List.drop_eq_getElem_cons hi, hget]
  simp only [hkind]

/-- **The partner is the first token behind which the height is that in front of the bracket.** -/
theorem partner?_eq_some_iff :
    partner? tokens i = some j ↔
      i < j ∧ j < tokens.length ∧
        height bracket (tokens.take (j + 1)) = height bracket (tokens.take i) ∧
        ∀ m, i < m → m < j →
          height bracket (tokens.take (m + 1)) ≠ height bracket (tokens.take i) := by
  have hfront := height_take_succ_opener hopens
  -- the height behind a token of the scan
  have hheight (k : Nat) : height bracket (tokens.take (k + (i + 1) + 1)) =
      height bracket (tokens.take i) +
        (1 + height bracket ((tokens.drop (i + 1)).take (k + 1))) := by
    rw [← Int.add_assoc, ← hfront, ← height_append, ← List.take_add]
    congr 2
    omega
  rw [partner?_eq_map hopens, Option.map_eq_some_iff]
  constructor
  · rintro ⟨k, hk, rfl⟩
    obtain ⟨hlength, heq, hbefore⟩ := (closeAfter_eq_some_iff Nat.one_pos).mp hk
    rw [List.length_drop] at hlength
    refine ⟨by omega, by omega, ?_, fun m him hmk => ?_⟩
    · rw [hheight]
      omega
    · have hne := hbefore (m - (i + 1)) (by omega)
      have hm := hheight (m - (i + 1))
      rw [Nat.sub_add_cancel him] at hm
      omega
  · rintro ⟨hij, hlength, heq, hbefore⟩
    have hj := hheight (j - (i + 1))
    rw [Nat.sub_add_cancel hij] at hj
    refine ⟨j - (i + 1), (closeAfter_eq_some_iff Nat.one_pos).mpr ⟨?_, ?_, fun m hm => ?_⟩,
      Nat.sub_add_cancel hij⟩
    · rw [List.length_drop]
      omega
    · omega
    · have hne := hbefore (m + (i + 1)) (by omega) (by omega)
      rw [hheight] at hne
      omega

/-- The partner closes the same kind of bracket. -/
theorem kind_of_partner? (h : partner? tokens i = some j) :
    tokens[j]?.map kind = some (.closer bracket) := by
  rw [partner?_eq_map hopens] at h
  obtain ⟨k, hk, rfl⟩ := Option.map_eq_some_iff.mp h
  obtain ⟨closer, hcloser, hclosed⟩ := closeAfter_kind hk
  rw [List.getElem?_drop, Nat.add_comm] at hcloser
  rw [hcloser, Option.map_some, hclosed]

/-- **Within a group the height is greater than in front of it.** Otherwise it would have come down
to that height before, and the scan would have stopped there. -/
theorem height_lt_of_partner? (h : partner? tokens i = some j) {n : Nat} (hin : i < n)
    (hnj : n ≤ j) : height bracket (tokens.take i) < height bracket (tokens.take n) := by
  obtain ⟨-, -, -, hbefore⟩ := (partner?_eq_some_iff hopens).mp h
  have hfront := height_take_succ_opener hopens
  by_contra hnot
  obtain ⟨k, hik, hkn, heq, -⟩ := exists_height_eq bracket tokens
    (height bracket (tokens.take i)) (m := i + 1) (n := n) hin (by omega) (by omega)
  exact hbefore k hik (by omega) heq

/-- **A group ends before the height falls to what it was in front of it**, or right there. -/
theorem exists_partner? (hij : i < j) (hlength : j < tokens.length)
    (hle : height bracket (tokens.take (j + 1)) ≤ height bracket (tokens.take i)) :
    ∃ k, partner? tokens i = some k ∧ k ≤ j := by
  have hfront := height_take_succ_opener hopens
  obtain ⟨k, hik, hkj, heq, hbefore⟩ := exists_height_eq bracket tokens
    (height bracket (tokens.take i)) (m := i + 1) (n := j + 1) (by omega) (by omega) hle
  exact ⟨k, (partner?_eq_some_iff hopens).mpr ⟨hik, by omega, heq, hbefore⟩, by omega⟩

end Partner

/-! ## 4. Groups -/

/-- From index `i` to index `j`, both included, as many brackets of the kind are closed as opened.
-/
def IsBalanced (bracket : Bracket) (tokens : List Token) (i j : Nat) : Prop :=
  ((tokens.take (j + 1)).drop i).countP (·.kind = .closer bracket) =
    ((tokens.take (j + 1)).drop i).countP (·.kind = .opener bracket)

/-- Brackets balance between two tokens exactly if the height behind the second is that in front of
the first. -/
theorem isBalanced_iff {bracket : Bracket} {tokens : List Token} {i j : Nat} (hij : i < j) :
    IsBalanced bracket tokens i j ↔
      height bracket (tokens.take (j + 1)) = height bracket (tokens.take i) := by
  have hsplit := List.take_append_drop i (tokens.take (j + 1))
  rw [List.take_take, Nat.min_eq_left (by omega)] at hsplit
  have hheight := height_append bracket (tokens.take i) ((tokens.take (j + 1)).drop i)
  rw [hsplit] at hheight
  rw [hheight, IsBalanced, height, height]
  omega

section Groups

variable {bracket : Bracket} {tokens : List Token} {i k j : Nat}
  (hopens : tokens[i]?.map kind = some (.opener bracket))

include hopens

/-- The partner is the first place where the brackets balance. What `IsLeast` adds to the heights is
that no earlier place does. -/
theorem partner?_eq_some_iff_isLeast :
    partner? tokens i = some j ↔
      IsLeast {j | i < j ∧ j < tokens.length ∧ IsBalanced bracket tokens i j} j := by
  rw [partner?_eq_some_iff hopens]
  constructor
  · rintro ⟨hij, hlength, heq, hbefore⟩
    refine ⟨⟨hij, hlength, (isBalanced_iff hij).mpr heq⟩, ?_⟩
    rintro m ⟨him, -, hbalanced⟩
    by_contra hlt
    exact hbefore m him (by omega) ((isBalanced_iff him).mp hbalanced)
  · rintro ⟨⟨hij, hlength, hbalanced⟩, hlower⟩
    refine ⟨hij, hlength, (isBalanced_iff hij).mp hbalanced, fun m him hmj heq => ?_⟩
    have hle := hlower ⟨him, by omega, (isBalanced_iff him).mpr heq⟩
    omega

/-- Without a place where the brackets balance there is no partner, as the height never comes down
again. -/
theorem partner?_eq_none_iff :
    partner? tokens i = none ↔
      ¬∃ j, i < j ∧ j < tokens.length ∧ IsBalanced bracket tokens i j := by
  rw [Option.eq_none_iff_forall_ne_some]
  constructor
  · rintro hnone ⟨j, hij, hlength, hbalanced⟩
    obtain ⟨k, hk, -⟩ := exists_partner? hopens hij hlength
      (Int.le_of_eq ((isBalanced_iff hij).mp hbalanced))
    exact hnone k hk
  · rintro hnot j hj
    exact hnot ⟨j, ((partner?_eq_some_iff_isLeast hopens).mp hj).1⟩

variable (hopens' : tokens[k]?.map kind = some (.opener bracket)) (hik : i < k)
  (hpartner : partner? tokens i = some j)

include hopens' hik hpartner

/-- A group that starts within another one ends within it: at the end of the outer group the height
is less than in front of the inner one. -/
theorem exists_partner?_lt (hkj : k < j) : ∃ m, partner? tokens k = some m ∧ m < j := by
  obtain ⟨-, hlength, heq, -⟩ := (partner?_eq_some_iff hopens).mp hpartner
  have hlt := height_lt_of_partner? hopens hpartner hik (Nat.le_of_lt hkj)
  obtain ⟨m, hm, hmj⟩ := exists_partner? hopens' hkj hlength (by omega)
  obtain ⟨-, -, hmeq, -⟩ := (partner?_eq_some_iff hopens').mp hm
  refine ⟨m, hm, Nat.lt_of_le_of_ne hmj ?_⟩
  rintro rfl
  omega

/-- Two groups do not end with the same bracket, since the inner one has ended before. -/
theorem partner?_ne : partner? tokens k ≠ some j := by
  intro hsame
  obtain ⟨hkj, -, -, -⟩ := (partner?_eq_some_iff hopens').mp hsame
  obtain ⟨m, hm, hmj⟩ := exists_partner?_lt hopens hopens' hik hpartner hkj
  rw [hsame, Option.some.injEq] at hm
  omega

end Groups

/-- **A group ends where its brackets balance, and groups nest.** The partner of an opening bracket
is the first token behind it up to which as many brackets of the kind are closed as opened, and is a
closing bracket of the kind; there is no partner exactly if there is no such token. A group that
starts within another one of its kind ends within it, and no two of them end with the same bracket.
-/
theorem groups_balance_and_nest (tokens : List Token) (bracket : Bracket) :
    (∀ i, tokens[i]?.map kind = some (.opener bracket) →
      (∀ j, partner? tokens i = some j ↔
        IsLeast {j | i < j ∧ j < tokens.length ∧ IsBalanced bracket tokens i j} j) ∧
      (∀ j, partner? tokens i = some j → tokens[j]?.map kind = some (.closer bracket)) ∧
      (partner? tokens i = none ↔
        ¬∃ j, i < j ∧ j < tokens.length ∧ IsBalanced bracket tokens i j)) ∧
    ∀ i k, tokens[i]?.map kind = some (.opener bracket) →
      tokens[k]?.map kind = some (.opener bracket) → ∀ j, partner? tokens i = some j →
        (i < k → k < j → ∃ m, partner? tokens k = some m ∧ m < j) ∧
        (i ≠ k → partner? tokens k ≠ some j) := by
  refine ⟨fun i hopens => ⟨fun j => partner?_eq_some_iff_isLeast hopens,
    fun j => kind_of_partner? hopens, partner?_eq_none_iff hopens⟩,
    fun i k hopens hopens' j hj => ⟨fun hik => exists_partner?_lt hopens hopens' hik hj,
      fun hne hsame => ?_⟩⟩
  rcases Nat.lt_or_gt_of_ne hne with hik | hki
  · exact partner?_ne hopens hopens' hik hj hsame
  · exact partner?_ne hopens' hopens hki hsame hj

/-- Groups of two kinds that cross each other, and a brace that is never closed. -/
def crossedBrackets : List Token :=
  scan "([(]\x7b))".toList

/-- The round brackets nest, although the square ones are closed between them, and the brace has no
partner. -/
theorem groups_of_crossedBrackets :
    IsLeast {j | 0 < j ∧ j < crossedBrackets.length ∧ IsBalanced .round crossedBrackets 0 j} 6 ∧
    partner? crossedBrackets 1 = some 3 ∧
    (∃ m, partner? crossedBrackets 2 = some m ∧ m < 6) ∧ partner? crossedBrackets 2 ≠ some 6 ∧
    ¬∃ j, 4 < j ∧ j < crossedBrackets.length ∧ IsBalanced .curly crossedBrackets 4 j := by
  have houter : partner? crossedBrackets 0 = some 6 := by decide +kernel
  obtain ⟨hround, hpairs⟩ := groups_balance_and_nest crossedBrackets .round
  obtain ⟨hcurly, -⟩ := groups_balance_and_nest crossedBrackets .curly
  obtain ⟨hinner, hshared⟩ := hpairs 0 2 (by decide +kernel) (by decide +kernel) 6 houter
  exact ⟨((hround 0 (by decide +kernel)).1 6).mp houter, by decide +kernel,
    hinner (by decide) (by decide), hshared (by decide),
    (hcurly 4 (by decide +kernel)).2.2.mp (by decide +kernel)⟩

end Token

end MacroScript
