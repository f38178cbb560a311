import MacroScript.Proofs.Token.Locality
import MacroScript.Proofs.Token.TopLevel

/-!
# Points of numbers

Whether a point belongs to a number is decided twice. The reader of tokens comes from the left and
knows whether it is in a number or in a name. The scan that cuts a text at its points looks back
from the point, over letters and digits of ASCII and underscores, and takes it for one of a number
if these are digits only. **A point inside a number is always taken for one**
(`laterStarts_numberTail`). But a name may hold other characters as well, a dollar sign or a letter
beyond ASCII, and if only digits follow the last of them, **a point between that name and a digit is
taken for one of a number, too** (`Token.isTakenForNumber_iff`). So the text `$1.5`, which has three
tokens, is not cut (`Token.point_behind_dollar_kept`). These are the only points at top level that
are missed (`Token.points_cut_unless_mistaken`).
-/
namespace MacroScript

open Text

/-! ## 1. Words that end in digits -/

namespace Text

/-- A text can be cut at a byte in one way only. -/
theorem append_inj_byteSize {u v u' v' : Text} (heq : u ++ v = u' ++ v')
    (hsize : byteSize u = byteSize u') : u = u' ∧ v = v' := by
  obtain ⟨m, rfl, rfl⟩ := exists_middle heq (Nat.le_of_eq hsize)
  obtain rfl : m = [] := by
    rw [byteSize_append] at hsize
    exact byteSize_eq_zero.mp (by omega)
  exact ⟨(List.append_nil u).symm, rfl⟩

/-- The text ends with digits, and no letter of ASCII or underscore stands right before them. This
is what the scan sees when it looks back from a point. -/
def endsInNumber (t : Text) : Bool :=
  (t.getLast?.any Char.isDigit) && (t.reverse.takeWhile isAsciiNameChar).all Char.isDigit

/-- Looking back over a text that does not consist of digits, one sees no more than its end. What
stands before the text is then out of reach. -/
theorem endsInNumber_append {front t : Text} (ht : t.any fun c => !c.isDigit) :
    endsInNumber (front ++ t) = endsInNumber t := by
  have hne : t ≠ [] := by
    rintro rfl
    simp at ht
  have hlast : (front ++ t).getLast? = t.getLast? := by
    rw [List.getLast?_append, List.getLast?_eq_some_getLast hne]
    rfl
  rw [endsInNumber, endsInNumber, hlast, List.reverse_append, List.takeWhile_append]
  split
  · next hwhole =>
    -- all of the text is looked at, and it holds something else than digits
    have hall : t.reverse.takeWhile isAsciiNameChar = t.reverse :=
      (List.takeWhile_prefix _).eq_of_length hwhole
    have hnot : t.all Char.isDigit = false := by
      rw [List.all_eq_not_any_not, ht]
      rfl
    rw [hall, List.all_append, List.all_reverse, hnot, Bool.false_and]
  · rfl

end Text

/-- What the scan decides at a point, told by the text in front of it and the text behind it. -/
theorem isPointOfNumber_eq (front back : Text) :
    isPointOfNumber front.reverse back = (endsInNumber front && back.head?.any Char.isDigit) := by
  rw [isPointOfNumber, endsInNumber, List.head?_reverse]
  cases front.getLast?.any Char.isDigit <;> cases back.head?.any Char.isDigit <;> simp

namespace Token

/-! ## 2. The token around a character -/

/-- **A character other than white space lies in a token.** The induction follows the reader of
tokens: the character is in the token that is read now, or comes behind it. -/
theorem exists_token_around (offset : Nat) (front : Text) {c : Char} (hc : isBlank c = false)
    (back : Text) :
    ∃ token ∈ scanFrom offset (front ++ c :: back), ∃ u v, token.text = u ++ c :: v ∧
      token.offset + byteSize u = offset + byteSize front := by
  generalize h : front ++ c :: back = t
  fun_induction scanFrom offset t generalizing front with
  | case1 => simp at h
  | case2 offset d ds hblank ih =>
    cases front with
    | nil =>
      obtain ⟨rfl, -⟩ := List.cons.inj h
      rw [hblank] at hc
      contradiction
    | cons e front =>
      obtain ⟨rfl, hds⟩ := List.cons.inj h
      obtain ⟨token, hmem, u, v, htext, hoffset⟩ := ih front hds
      exact ⟨token, hmem, u, v, htext, by rw [hoffset, byteSize_cons, Nat.add_assoc]⟩
  | case3 offset d ds hblank kind rest ih =>
    have hsplit : d :: rest ++ ds.drop rest.length = front ++ c :: back := by
      rw [h, List.cons_append, tail_append_drop]
    rcases List.append_eq_append_iff.mp hsplit with ⟨m, rfl, hrest⟩ | ⟨m, htext, hrest⟩
    · -- it comes behind this token
      obtain ⟨token, hmem, u, v, htext, hoffset⟩ := ih m hrest.symm
      refine ⟨token, List.mem_cons_of_mem _ hmem, u, v, htext, ?_⟩
      rw [hoffset, byteSize_append, byteSize_cons]
      omega
    · cases m with
      | nil =>
        rw [List.append_nil] at htext
        obtain ⟨token, hmem, u, v, htext', hoffset⟩ := ih [] hrest
        refine ⟨token, List.mem_cons_of_mem _ hmem, u, v, htext', ?_⟩
        rw [hoffset, ← htext, byteSize_cons, byteSize_nil]
        omega
      | cons e m =>
        obtain ⟨rfl, -⟩ := List.cons.inj hrest
        exact ⟨⟨kind, d :: rest, offset⟩, List.mem_cons_self, front, m, htext, rfl⟩

/-- After its first character only a number or a literal can hold a point. -/
theorem kind_of_point_mem_tail {kind : Kind} {c : Char} {cs : Text} (h : '.' ∈ tail kind c cs) :
    kind = .number ∨ kind = .string := by
  have hname : isNameChar '.' = false := by decide
  have hsign : isOperatorSign '.' = false := by decide
  unfold tail at h
  split at h
  · exact .inr rfl
  · exact .inl rfl
  · rw [List.mem_takeWhile_imp h] at hname
    contradiction
  · rw [List.mem_takeWhile_imp h] at hsign
    contradiction
  · simp at h

/-- **A point is a token by itself, or part of a number or of a literal.** A name cannot hold one.
-/
theorem kind_of_point_mem {t : Text} {token : Token} (h : token ∈ scan t) {u v : Text}
    (htext : token.text = u ++ '.' :: v) :
    token.kind = .number ∨ token.kind = .string ∨ token.kind = .dot ∧ u = [] ∧ v = [] := by
  obtain ⟨front, c, cs, -, -, rfl⟩ := exists_of_mem_scan h
  have htext : c :: tail (kindOf c) c cs = u ++ '.' :: v := htext
  cases u with
  | nil =>
    obtain ⟨rfl, hv⟩ := List.cons.inj htext
    exact .inr (.inr ⟨rfl, rfl, hv.symm⟩)
  | cons d u =>
    obtain ⟨-, htail⟩ := List.cons.inj htext
    have hmem : '.' ∈ tail (kindOf c) c cs := by
      rw [htail]
      simp
    exact (kind_of_point_mem_tail hmem).imp id .inl

/-! ## 3. Neighbours of a point -/

/-- Two tokens of a text are the same, or one comes behind the other. The tokens are listed in their
order, so that this is a comparison of their places in the list. -/
theorem eq_or_apart {t : Text} {a b : Token} (ha : a ∈ scan t) (hb : b ∈ scan t) :
    a = b ∨ a.stop ≤ b.offset ∨ b.stop ≤ a.offset := by
  obtain ⟨i, hi, rfl⟩ := List.getElem_of_mem ha
  obtain ⟨j, hj, rfl⟩ := List.getElem_of_mem hb
  have hapart := List.pairwise_iff_getElem.mp (pairwise_scan t)
  rcases Nat.lt_trichotomy i j with hlt | rfl | hgt
  · exact .inr (.inl (hapart i j hi hj hlt))
  · exact .inl rfl
  · exact .inr (.inr (hapart j i hj hi hgt))

/-- Tokens that share a byte are one token. -/
theorem eq_of_overlap {t : Text} {a b : Token} (ha : a ∈ scan t) (hb : b ∈ scan t)
    (hab : a.offset < b.stop) (hba : b.offset < a.stop) : a = b := by
  rcases eq_or_apart ha hb with heq | hle | hle
  · exact heq
  · omega
  · omega

/-- A character other than white space right behind a token starts another. It lies in some token,
and that cannot start before it without an overlap. -/
theorem exists_token_behind {t : Text} {a : Token} (ha : a ∈ scan t) {d : Char}
    (hd : isBlank d = false) (hstands : StandsAt t a.stop [d]) :
    ∃ b ∈ scan t, b.offset = a.stop ∧ b.text.head? = some d := by
  obtain ⟨front, back, rfl, hfront⟩ := hstands
  rw [List.append_assoc, List.singleton_append] at ha ⊢
  obtain ⟨b, hb, u, v, htext, hoffset⟩ := exists_token_around 0 front hd back
  rw [Nat.zero_add, hfront] at hoffset
  have hstop : b.stop = b.offset + byteSize u + d.utf8Size + byteSize v := by
    rw [stop, htext, byteSize_append, byteSize_cons]
    omega
  -- the token around the character does not overlap the one before it
  have hstart : byteSize u = 0 := by
    have := d.utf8Size_pos
    have := offset_lt_stop ha
    rcases eq_or_apart ha hb with rfl | hle | hle <;> omega
  obtain rfl := byteSize_eq_zero.mp hstart
  exact ⟨b, hb, hoffset, by rw [htext]; rfl⟩

/-- A character other than white space right before a token ends another, for the same reason. -/
theorem exists_token_before {t : Text} {a : Token} (ha : a ∈ scan t) {d : Char}
    (hd : isBlank d = false) {n : Nat} (hstands : StandsAt t n [d])
    (hn : n + d.utf8Size = a.offset) :
    ∃ b ∈ scan t, b.stop = a.offset ∧ b.text.getLast? = some d := by
  obtain ⟨front, back, rfl, rfl⟩ := hstands
  rw [List.append_assoc, List.singleton_append] at ha ⊢
  obtain ⟨b, hb, u, v, htext, hoffset⟩ := exists_token_around 0 front hd back
  rw [Nat.zero_add] at hoffset
  have hstop : b.stop = b.offset + byteSize u + d.utf8Size + byteSize v := by
    rw [stop, htext, byteSize_append, byteSize_cons]
    omega
  have hend : byteSize v = 0 := by
    have := d.utf8Size_pos
    have := offset_lt_stop ha
    rcases eq_or_apart ha hb with rfl | hle | hle <;> omega
  obtain rfl := byteSize_eq_zero.mp hend
  exact ⟨b, hb, by omega, by rw [htext]; simp⟩

/-- A token that is a point is the single character at its offset. -/
theorem exists_of_mem_dots {t : Text} {dot : Token} (h : dot ∈ scan t) (hkind : dot.kind = .dot) :
    ∃ front back, t = front ++ '.' :: back ∧ dot = ⟨.dot, ['.'], byteSize front⟩ := by
  have hsep : ('.', Kind.dot) ∈ separators := by simp [separators]
  obtain ⟨front, c, back, rfl, -, rfl⟩ := exists_of_mem_scan h
  have hkind : kindOf c = .dot := hkind
  obtain rfl := (kindOf_eq_iff hsep c).mp hkind
  exact ⟨front, back, rfl, rfl⟩

/-- A token that stops at the end of a front part is its end, so that what the scan sees when
looking back is that token. -/
theorem exists_of_stop_eq {front back : Text} {token : Token} (h : token ∈ scan (front ++ back))
    (hstop : token.stop = byteSize front) :
    ∃ lead c cs, front = lead ++ c :: tail (kindOf c) c cs ∧
      cs.drop (tail (kindOf c) c cs).length = back ∧
      token = ⟨kindOf c, c :: tail (kindOf c) c cs, byteSize lead⟩ := by
  obtain ⟨lead, c, cs, heq, -, rfl⟩ := exists_of_mem_scan h
  rw [← tail_append_drop (kindOf c) c cs, ← List.cons_append, ← List.append_assoc] at heq
  have hsize : byteSize front = byteSize (lead ++ c :: tail (kindOf c) c cs) := by
    rw [byteSize_append]
    exact hstop.symm
  obtain ⟨hfront, hback⟩ := append_inj_byteSize heq hsize
  exact ⟨lead, c, cs, hfront, hback.symm, rfl⟩

/-- A name does not consist of digits, since its first character is none. -/
theorem any_not_isDigit_of_kindOf {c : Char} (h : kindOf c = .name) (cs : Text) :
    (c :: cs).any fun d => !d.isDigit := by
  have hc : c.isDigit = false := by
    rw [← Bool.not_eq_true, ← kindOf_eq_number, h]
    decide
  rw [List.any_cons, hc]
  rfl

/-- A number goes on behind a point if there is a digit, so what is left behind it does not start
that way. -/
theorem drop_numberTail_ne {cs : Text} {d : Char} (hd : d.isDigit) (rest : Text) :
    cs.drop (numberTail cs).length ≠ '.' :: d :: rest := by
  fun_induction numberTail cs with
  | case1 => simp
  | case2 c cs hc ih => exact ih
  | case3 c cs hc =>
    intro h
    obtain ⟨rfl, rfl⟩ := List.cons.inj h
    exact hc (by simp [isAsciiDigit, hd])

/-- A name ends right before the point, and its end looks like a number. For a name of ASCII letters
this cannot be. -/
def followsName (tokens : List Token) (dot : Token) : Bool :=
  tokens.any fun name => name.kind = .name && name.stop = dot.offset && name.text.endsInNumber

/-- A number starts right behind the point. -/
def precedesNumber (tokens : List Token) (dot : Token) : Bool :=
  tokens.any fun number => number.kind = .number && number.offset = dot.stop

section Neighbours

variable {front back : Text} (h : ⟨.dot, ['.'], byteSize front⟩ ∈ scan (front ++ '.' :: back))

include h

/-- A number starts right behind the point exactly if a digit does: the digit cannot be inside a
token that started earlier. -/
theorem precedesNumber_iff :
    precedesNumber (scan (front ++ '.' :: back)) ⟨.dot, ['.'], byteSize front⟩ ↔
      back.head?.any Char.isDigit := by
  constructor
  · intro hnumber
    obtain ⟨number, hmem, hnumber⟩ := List.any_eq_true.mp hnumber
    obtain ⟨hkind, hoffset⟩ := by simpa using hnumber
    obtain ⟨front', d, ds, heq, -, rfl⟩ := exists_of_mem_scan hmem
    -- the number starts where the text behind the point does
    have hsize : byteSize (front ++ ['.']) = byteSize front' := by
      rw [byteSize_append]
      exact hoffset.symm
    rw [← List.singleton_append, ← List.append_assoc] at heq
    obtain ⟨-, rfl⟩ := append_inj_byteSize heq hsize
    exact kindOf_eq_number.mp hkind
  · intro hdigit
    obtain ⟨d, hd, hdigit⟩ := (Option.any_eq_true _ _).mp hdigit
    obtain ⟨ds, rfl⟩ := List.head?_eq_some_iff.mp hd
    have hstands : StandsAt (front ++ '.' :: d :: ds) (byteSize front + 1) [d] :=
      ⟨front ++ ['.'], ds, by simp, by rw [byteSize_append]; rfl⟩
    -- the token that covers the digit starts with it, as the point before is a token of its own
    obtain ⟨number, hmem, hoffset, hhead⟩ := exists_token_behind h
      (isBlank_of_isAsciiNameChar (isAsciiNameChar_of_isDigit hdigit)) hstands
    obtain ⟨front', c, cs, -, -, rfl⟩ := exists_of_mem_scan hmem
    obtain rfl := Option.some.inj hhead
    refine List.any_eq_true.mpr ⟨_, hmem, ?_⟩
    rw [Bool.and_eq_true, decide_eq_true_eq, decide_eq_true_eq]
    exact ⟨kindOf_eq_number.mpr hdigit, hoffset⟩

/-- Before a point that a digit follows, only a name can end in digits: a number would have gone on
over the point. -/
theorem followsName_iff (hback : back.head?.any Char.isDigit) :
    followsName (scan (front ++ '.' :: back)) ⟨.dot, ['.'], byteSize front⟩ ↔
      endsInNumber front := by
  constructor
  · intro hname
    obtain ⟨name, hmem, hname⟩ := List.any_eq_true.mp hname
    obtain ⟨⟨hkind, hstop⟩, hends⟩ := by simpa using hname
    obtain ⟨lead, c, cs, rfl, -, rfl⟩ := exists_of_stop_eq hmem hstop
    rwa [endsInNumber_append (any_not_isDigit_of_kindOf hkind _)]
  · intro hends
    have hends' := hends
    rw [endsInNumber, Bool.and_eq_true] at hends'
    obtain ⟨e, he, hdigit⟩ := (Option.any_eq_true _ _).mp hends'.1
    obtain ⟨front, rfl⟩ := List.getLast?_eq_some_iff.mp he
    have hename := isAsciiNameChar_of_isDigit hdigit
    have hstands : StandsAt (front ++ [e] ++ '.' :: back) (byteSize front) [e] :=
      ⟨front, '.' :: back, rfl, rfl⟩
    -- the digit before the point is the last character of a token
    obtain ⟨name, hmem, hstop, hlast⟩ := exists_token_before h
      (isBlank_of_isAsciiNameChar hename) hstands (by rw [byteSize_append]; rfl)
    obtain ⟨lead, c, cs, hfront, hdrop, rfl⟩ := exists_of_stop_eq hmem hstop
    rcases kindOf_of_getLast? hlast hename (by simp [hdrop]) with hkind | hkind
    · refine List.any_eq_true.mpr ⟨_, hmem, ?_⟩
      rw [hfront, endsInNumber_append (any_not_isDigit_of_kindOf hkind _)] at hends
      rw [Bool.and_eq_true, Bool.and_eq_true, decide_eq_true_eq, decide_eq_true_eq]
      exact ⟨⟨hkind, hstop⟩, hends⟩
    · -- a number would have gone on over the point
      obtain ⟨d, hd, hdigit⟩ := (Option.any_eq_true _ _).mp hback
      obtain ⟨rest, rfl⟩ := List.head?_eq_some_iff.mp hd
      rw [hkind] at hdrop
      exact absurd hdrop (drop_numberTail_ne hdigit rest)

end Neighbours

/-! ## 4. Mistaken points -/

/-- The point stands between a name whose end looks like a number, and a number. -/
def isMistaken (tokens : List Token) (dot : Token) : Bool :=
  followsName tokens dot && precedesNumber tokens dot

/-- **A point that is a token is taken for one of a number exactly if it is mistaken.** The two
looks at the point, back and forward, are told by the tokens beside it. -/
theorem isTakenForNumber_iff {t : Text} {dot : Token} (h : dot ∈ scan t) (hkind : dot.kind = .dot) :
    isTakenForNumber t dot = isMistaken (scan t) dot := by
  obtain ⟨front, back, rfl, rfl⟩ := exists_of_mem_dots h hkind
  rw [isTakenForNumber_eq, isPointOfNumber_eq, isMistaken, Bool.eq_iff_iff, Bool.and_eq_true,
    Bool.and_eq_true, precedesNumber_iff h]
  constructor
  · rintro ⟨hfront, hback⟩
    exact ⟨(followsName_iff h hback).mpr hfront, hback⟩
  · rintro ⟨hfront, hback⟩
    exact ⟨(followsName_iff h hback).mp hfront, hback⟩

/-- A name in letters and digits of ASCII does not look like a number at its end: looking back, one
sees all of it. -/
theorem endsInNumber_of_all {c : Char} (h : kindOf c = .name) {cs : Text}
    (hall : (c :: cs).all isAsciiNameChar) : endsInNumber (c :: cs) = false := by
  have hwhole : (c :: cs).reverse.takeWhile isAsciiNameChar = (c :: cs).reverse := by
    rw [List.takeWhile_eq_self_iff]
    intro d hd
    exact List.all_eq_true.mp hall d (List.mem_reverse.mp hd)
  have hnot : (c :: cs).all Char.isDigit = false := by
    rw [List.all_eq_not_any_not, any_not_isDigit_of_kindOf h cs]
    rfl
  rw [endsInNumber, hwhole, List.all_reverse, hnot, Bool.and_false]

/-- A token at top level is one of the tokens, of the kind that was asked for. -/
theorem mem_topLevelFrom {kind : Kind} {before tokens : List Token} {token : Token}
    (h : token ∈ topLevelFrom kind before tokens) : token ∈ tokens ∧ token.kind = kind := by
  induction tokens generalizing before with
  | nil => simp [topLevelFrom] at h
  | cons first tokens ih =>
    rw [topLevelFrom_cons, List.mem_append] at h
    rcases h with h | h
    · split at h
      · next hfirst =>
        obtain rfl := List.mem_singleton.mp h
        rw [Bool.and_eq_true, decide_eq_true_eq] at hfirst
        exact ⟨List.mem_cons_self, hfirst.1⟩
      · simp at h
    · exact ⟨List.mem_cons_of_mem _ (ih h).1, (ih h).2⟩

/-- **Where the parts between points start**: at the start of the text, and behind each point at top
level that is not mistaken. -/
theorem starts_of_points (t : Text) :
    (topLevelParts '.' t).map (·.1) =
      0 :: ((topLevel .dot (scan t)).filter fun dot => !isMistaken (scan t) dot).map stop := by
  have hstarts := starts_topLevelParts (by simp [separators] : ('.', Kind.dot) ∈ separators) t
  rw [hstarts]
  congr 2
  refine List.filter_congr fun dot hdot => ?_
  obtain ⟨hmem, hkind⟩ := mem_topLevelFrom hdot
  rw [isTakenForNumber_iff hmem hkind]
  rfl

/-- The cut behind a point of the text is made at the token that is this point. -/
theorem mem_starts_iff (t : Text) (n : Nat) :
    n + 1 ∈ (topLevelParts '.' t).map (·.1) ↔
      ∃ dot ∈ topLevel .dot (scan t), isMistaken (scan t) dot = false ∧ dot.offset = n := by
  rw [starts_of_points, List.mem_cons, or_iff_right (Nat.succ_ne_zero n), List.mem_map]
  refine exists_congr fun dot => ?_
  rw [List.mem_filter, Bool.not_eq_true', and_assoc, and_congr_right_iff]
  intro hdot
  obtain ⟨hmem, hkind⟩ := mem_topLevelFrom hdot
  obtain ⟨front, back, -, rfl⟩ := exists_of_mem_dots hmem hkind
  exact and_congr_right fun _ => Nat.succ_inj

/-- **A point that is not cut at** is part of a number or of a literal, or it is a token that stands
in brackets or is mistaken. -/
theorem not_mem_starts_iff (front back : Text) :
    byteSize front + 1 ∉ (topLevelParts '.' (front ++ '.' :: back)).map (·.1) ↔
      (∃ token ∈ scan (front ++ '.' :: back), (token.kind = .number ∨ token.kind = .string) ∧
        token.offset ≤ byteSize front ∧ byteSize front < token.stop) ∨
      ∃ dot ∈ scan (front ++ '.' :: back), dot.kind = .dot ∧ dot.offset = byteSize front ∧
        (dot ∉ topLevel .dot (scan (front ++ '.' :: back)) ∨
          isMistaken (scan (front ++ '.' :: back)) dot) := by
  rw [mem_starts_iff]
  constructor
  · intro hkept
    -- a point is no white space, so it is in a token; this is a number, a literal or the point
    -- itself
    obtain ⟨token, hmem, u, v, htext, hoffset⟩ :=
      exists_token_around 0 front (by decide : isBlank '.' = false) back
    have hcovers : token.offset ≤ byteSize front ∧ byteSize front < token.stop := by
      rw [stop, htext, byteSize_append, byteSize_cons]
      have := Char.utf8Size_pos '.'
      omega
    rcases kind_of_point_mem hmem htext with hkind | hkind | ⟨hkind, rfl, -⟩
    · exact .inl ⟨token, hmem, .inl hkind, hcovers⟩
    · exact .inl ⟨token, hmem, .inr hkind, hcovers⟩
    · have hoffset : token.offset = byteSize front := by simpa using hoffset
      refine .inr ⟨token, hmem, hkind, hoffset, ?_⟩
      rw [or_iff_not_imp_left, not_not]
      intro htop
      rw [← Bool.not_eq_false]
      exact fun hclear => hkept ⟨token, htop, hclear, hoffset⟩
  · rintro (⟨token, hmem, hkind, hle, hlt⟩ | ⟨token, hmem, -, hoffset, hnot⟩)
      ⟨dot, hdot, hclear, hoffset'⟩
    · -- two tokens that overlap are one, but a point is neither a number nor a literal
      obtain ⟨hmem', hkind'⟩ := mem_topLevelFrom hdot
      have hlt' := offset_lt_stop hmem'
      obtain rfl := eq_of_overlap hmem hmem' (by omega) (by omega)
      rw [hkind'] at hkind
      simp at hkind
    · have hmem' := (mem_topLevelFrom hdot).1
      have hlt := offset_lt_stop hmem
      have hlt' := offset_lt_stop hmem'
      obtain rfl := eq_of_overlap hmem hmem' (by omega) (by omega)
      rw [hclear] at hnot
      exact hnot.elim (fun hout => hout hdot) Bool.false_ne_true

/-- If names are in letters, digits and underscores of ASCII, no point is mistaken, since none of
them looks like a number at its end. -/
theorem isMistaken_of_ascii {t : Text}
    (hnames : ∀ name ∈ scan t, name.kind = .name → name.text.all isAsciiNameChar) (dot : Token) :
    isMistaken (scan t) dot = false := by
  have hfollows : followsName (scan t) dot = false := by
    rw [followsName, List.any_eq_false]
    intro name hmem hname
    simp only [Bool.and_eq_true, decide_eq_true_eq] at hname
    obtain ⟨⟨hkind, -⟩, hends⟩ := hname
    have hall := hnames name hmem hkind
    obtain ⟨front, c, cs, -, -, rfl⟩ := exists_of_mem_scan hmem
    rw [endsInNumber_of_all hkind hall] at hends
    contradiction
  rw [isMistaken, hfollows, Bool.false_and]

/-! ## 5. Cuts at points -/

/-- **A text is cut at its points at top level, unless they are mistaken.** The points at which it
is cut are the tokens with no more opening than closing brackets before them, less those that stand
between a name and a number, where the name ends in digits that follow neither a letter of ASCII nor
an underscore. So the cuts are those of the tokens exactly if there is no such point, as in a text
with names of ASCII only. -/
theorem points_cut_unless_mistaken (t : Text) :
    (topLevelParts '.' t).map (·.1) =
      0 :: ((topLevel .dot (scan t)).filter fun dot => !isMistaken (scan t) dot).map stop ∧
    (∀ part ∈ topLevelParts '.' t, slice? part.1 (part.1 + byteSize part.2) t = some part.2) ∧
    List.intercalate ['.'] ((topLevelParts '.' t).map (·.2)) = t ∧
    ((topLevelParts '.' t).map (·.1) = 0 :: (topLevel .dot (scan t)).map stop ↔
      ∀ dot ∈ topLevel .dot (scan t), isMistaken (scan t) dot = false) ∧
    ((∀ name ∈ scan t, name.kind = .name → name.text.all isAsciiNameChar) →
      (topLevelParts '.' t).map (·.1) = 0 :: (topLevel .dot (scan t)).map stop) ∧
    ∀ front back, t = front ++ '.' :: back →
      (byteSize front + 1 ∉ (topLevelParts '.' t).map (·.1) ↔
        (∃ token ∈ scan t, (token.kind = .number ∨ token.kind = .string) ∧
          token.offset ≤ byteSize front ∧ byteSize front < token.stop) ∨
        ∃ dot ∈ scan t, dot.kind = .dot ∧ dot.offset = byteSize front ∧
          (dot ∉ topLevel .dot (scan t) ∨ isMistaken (scan t) dot)) := by
  have hiff : (topLevelParts '.' t).map (·.1) = 0 :: (topLevel .dot (scan t)).map stop ↔
      ∀ dot ∈ topLevel .dot (scan t), isMistaken (scan t) dot = false := by
    rw [starts_of_points, List.cons_inj_right]
    constructor
    · intro heq
      -- as many points are left as there are, so none was taken out
      have hlength := congrArg List.length heq
      rw [List.length_map, List.length_map, List.length_filter_eq_length_iff] at hlength
      intro dot hdot
      rw [← Bool.not_eq_true']
      exact hlength dot hdot
    · intro hclear
      rw [List.filter_eq_self.mpr fun dot hdot => by rw [hclear dot hdot]; rfl]
  refine ⟨starts_of_points t, fun part hpart => ?_, ?_, hiff, fun hnames => ?_, ?_⟩
  · exact (standsAt_of_mem_topLevelParts hpart).1.slice?_eq
  · rw [topLevelParts, map_snd_locateParts, intercalate_splitFrom]
  · exact hiff.mpr fun dot _ => isMistaken_of_ascii hnames dot
  · rintro front back rfl
    exact not_mem_starts_iff front back

/-- A point in a number, one behind a name, and one that is mistaken. -/
def threePoints : Text :=
  "x=1.5+a1.b$2.3".toList

/-- The first point belongs to a number, the second is cut at, and the third is mistaken. -/
theorem cuts_of_threePoints :
    (topLevelParts '.' threePoints).map (·.1) = [0, 9] ∧
    ((topLevelParts '.' threePoints).map (·.1) =
      0 :: ((topLevel .dot (scan threePoints)).filter fun dot =>
        !isMistaken (scan threePoints) dot).map stop) ∧
    4 ∉ (topLevelParts '.' threePoints).map (·.1) := by
  obtain ⟨hstarts, -, -, -, -, hkept⟩ := points_cut_unless_mistaken threePoints
  refine ⟨by decide +kernel, hstarts, (hkept "x=1".toList "5+a1.b$2.3".toList (by decide)).mpr ?_⟩
  exact .inl ⟨⟨.number, "1.5".toList, 2⟩, by decide +kernel, .inl rfl, by decide, by decide⟩

/-- **A point between `$1` and `5` is a token at top level, and the text is not cut there.** -/
theorem point_behind_dollar_kept :
    topLevel .dot (scan "$1.5".toList) = [⟨.dot, ['.'], 2⟩] ∧
    topLevelParts '.' "$1.5".toList = [(0, "$1.5".toList)] ∧
    (topLevelParts '.' "$1.5".toList).map (·.1) ≠
      0 :: (topLevel .dot (scan "$1.5".toList)).map stop := by
  refine ⟨?_, ?_, ?_⟩ <;> decide +kernel

end Token

end MacroScript
