import MacroScript.Proofs.Text.Part
import MacroScript.Token.Group
import MacroScript.Token.Lemmas

/-!
# Where tokens and parts stand

The tokens of a text stand in it at their offsets, one after the other and without overlap, and each
starts with a character other than white space. A token that is no string literal holds no space at
all, and a string literal ends with its quote or with the text. The top-level parts of a text stand
in it at their offsets too, with a separator before each but the first.
-/
namespace MacroScript

open Text

namespace Token

/-! ## 1. One token -/

/-- A token is read from the place where it stands: its kind is that of the character there, and its
text goes on with what that kind takes. All facts about single tokens are read off this. -/
theorem exists_of_mem_scanFrom {offset : Nat} {t : Text} {token : Token}
    (h : token ∈ scanFrom offset t) :
    ∃ front c cs, t = front ++ c :: cs ∧ isBlank c = false ∧
      token = ⟨kindOf c, c :: tail (kindOf c) c cs, offset + byteSize front⟩ := by
  fun_induction scanFrom offset t with
  | case1 => simp at h
  | case2 offset c cs hblank ih =>
    obtain ⟨front, d, ds, rfl, hd, rfl⟩ := ih h
    exact ⟨c :: front, d, ds, rfl, hd, by simp [Nat.add_assoc]⟩
  | case3 offset c cs hblank kind rest ih =>
    rcases List.mem_cons.mp h with rfl | h
    · exact ⟨[], c, cs, rfl, by simpa using hblank, rfl⟩
    · obtain ⟨front, d, ds, heq, hd, rfl⟩ := ih h
      have hsplit : rest ++ cs.drop rest.length = cs := tail_append_drop kind c cs
      refine ⟨c :: (rest ++ front), d, ds, ?_, hd, ?_⟩
      · rw [← hsplit, heq]
        simp
      · simp [Nat.add_assoc]

theorem exists_of_mem_scan {t : Text} {token : Token} (h : token ∈ scan t) :
    ∃ front c cs, t = front ++ c :: cs ∧ isBlank c = false ∧
      token = ⟨kindOf c, c :: tail (kindOf c) c cs, byteSize front⟩ := by
  obtain ⟨front, c, cs, heq, hc, htoken⟩ := exists_of_mem_scanFrom h
  exact ⟨front, c, cs, heq, hc, by rw [htoken, Nat.zero_add]⟩

/-- **A token stands at its offset**, so that its two ends are boundaries of the text. -/
theorem standsAt_of_mem_scan {t : Text} {token : Token} (h : token ∈ scan t) :
    StandsAt t token.offset token.text := by
  obtain ⟨front, c, cs, rfl, -, rfl⟩ := exists_of_mem_scan h
  have hsplit := tail_append_drop (kindOf c) c cs
  refine ⟨front, cs.drop (tail (kindOf c) c cs).length, ?_, rfl⟩
  rw [List.append_assoc, List.cons_append, hsplit]

/-- A token starts with a character other than white space, and is at least as long as that. -/
theorem exists_first_of_mem_scan {t : Text} {token : Token} (h : token ∈ scan t) :
    ∃ c, isBlank c = false ∧ StandsAt t token.offset [c] ∧
      token.offset + c.utf8Size ≤ token.stop := by
  have hstands := standsAt_of_mem_scan h
  obtain ⟨front, c, cs, rfl, hc, rfl⟩ := exists_of_mem_scan h
  refine ⟨c, hc, hstands.of_isPrefix ⟨_, rfl⟩, ?_⟩
  rw [stop, byteSize_cons]
  omega

/-- A token is not empty. -/
theorem offset_lt_stop {t : Text} {token : Token} (h : token ∈ scan t) :
    token.offset < token.stop := by
  obtain ⟨c, -, -, hle⟩ := exists_first_of_mem_scan h
  have := c.utf8Size_pos
  omega

/-- The core of a text reaches beyond the start of each token, as a token starts with a character
other than white space. -/
theorem offset_lt_coreSpan {t : Text} {token : Token} (h : token ∈ scan t) :
    token.offset < (coreSpan t).2 := by
  obtain ⟨c, hc, hstands, -⟩ := exists_first_of_mem_scan h
  have hle := stop_le_coreSpan hstands hc
  have := c.utf8Size_pos
  omega

theorem kind_of_isWord {t : Token} {word : String} (h : t.isWord word) : t.kind = .name := by
  rw [isWord, Bool.and_eq_true, decide_eq_true_eq] at h
  exact h.1

/-- A number holds no space. -/
theorem numberTail_ne_space {cs : Text} {c : Char} (h : c ∈ numberTail cs) : c ≠ ' ' := by
  induction cs with
  | nil => simp [numberTail] at h
  | cons d ds ih =>
    rw [numberTail] at h
    split at h
    · next hd =>
      rcases List.mem_cons.mp h with rfl | h
      · rintro rfl
        have hdigit : isAsciiDigit ' ' = false := by decide
        simp [hdigit] at hd
      · exact ih h
    · simp at h

/-- Only string literals hold spaces; the other tokens go on with characters of classes that leave
the space out. -/
theorem ne_space_of_mem_tail {kind : Kind} (hkind : kind ≠ .string) {c : Char} {cs : Text}
    {d : Char} (h : d ∈ tail kind c cs) : d ≠ ' ' := by
  have hwhile {p : Char → Bool} (hp : p ' ' = false) (h : d ∈ cs.takeWhile p) : d ≠ ' ' := by
    rintro rfl
    have := List.mem_takeWhile_imp h
    rw [hp] at this
    contradiction
  unfold tail at h
  split at h
  · contradiction
  · exact numberTail_ne_space h
  · exact hwhile (by decide) h
  · exact hwhile (by decide) h
  · simp at h

/-- **A token that is no string literal is solid**, as it holds no space at all. -/
theorem isSolid_of_mem_scan {t : Text} {token : Token} (h : token ∈ scan t)
    (hkind : token.kind ≠ .string) : token.text.isSolid := by
  obtain ⟨front, c, cs, rfl, hc, rfl⟩ := exists_of_mem_scan h
  refine isSolid_of_forall_ne (by simp) fun d hd => ?_
  rcases List.mem_cons.mp hd with rfl | hd
  · exact ne_space_of_not_isBlank hc
  · exact ne_space_of_mem_tail hkind hd

/-- The rest of a string literal ends with its quote, or is all that is left. -/
theorem stringTail_cases (quote : Char) (escaped : Bool) (cs : Text) :
    stringTail quote escaped cs = cs ∨ ∃ front, stringTail quote escaped cs = front ++ [quote] := by
  have hcons {c : Char} {tail cs : Text} (h : tail = cs ∨ ∃ front, tail = front ++ [quote]) :
      c :: tail = c :: cs ∨ ∃ front, c :: tail = front ++ [quote] := by
    rcases h with rfl | ⟨front, rfl⟩
    · exact .inl rfl
    · exact .inr ⟨c :: front, rfl⟩
  fun_induction stringTail quote escaped cs with
  | case1 => exact .inl rfl
  | case2 c cs ih => exact hcons ih
  | case3 cs ih => exact hcons ih
  | case4 cs => exact .inr ⟨[], rfl⟩
  | case5 c cs _ _ ih => exact hcons ih

/-- A string literal is solid, or goes to the end of the text: a closed one has its quotes at both
ends. -/
theorem isSolid_or_stop_eq {t : Text} {token : Token} (h : token ∈ scan t) :
    token.text.isSolid ∨ token.stop = byteSize t := by
  by_cases hkind : token.kind = .string
  · obtain ⟨front, c, cs, rfl, hc, rfl⟩ := exists_of_mem_scan h
    simp only at hkind
    have hspace : c ≠ ' ' := ne_space_of_not_isBlank hc
    rw [hkind, tail]
    rcases stringTail_cases c false cs with hall | ⟨middle, hmiddle⟩
    · exact .inr (by simp [hall, stop])
    · refine .inl ?_
      rw [hmiddle, ← List.cons_append, isSolid, List.getLast?_concat]
      simp [hspace]
  · exact .inl (isSolid_of_mem_scan h hkind)

/-! ## 2. The order of tokens -/

/-- Each token is read from where the one before it stops, so they come one after the other. -/
theorem pairwise_scanFrom (offset : Nat) (t : Text) :
    (scanFrom offset t).Pairwise (fun a b => a.stop ≤ b.offset) ∧
      ∀ token ∈ scanFrom offset t, offset ≤ token.offset := by
  fun_induction scanFrom offset t with
  | case1 => simp
  | case2 offset c cs hblank ih =>
    exact ⟨ih.1, fun token h => Nat.le_trans (Nat.le_add_right _ _) (ih.2 token h)⟩
  | case3 offset c cs hblank kind rest ih =>
    refine ⟨List.pairwise_cons.mpr ⟨fun token h => ?_, ih.1⟩, fun token h => ?_⟩
    · have hle := ih.2 token h
      simpa [stop, Nat.add_assoc] using hle
    · rcases List.mem_cons.mp h with rfl | h
      · exact Nat.le_refl _
      · have hle := ih.2 token h
        omega

/-- A text without tokens is white space, since the reader skips nothing else. -/
theorem isAllBlank_of_scanFrom_eq_nil {offset : Nat} {t : Text} (h : scanFrom offset t = []) :
    isAllBlank t := by
  fun_induction scanFrom offset t with
  | case1 => rfl
  | case2 offset c cs hblank ih =>
    rw [isAllBlank, List.all_cons, hblank, Bool.true_and]
    exact ih h
  | case3 => simp at h

/-- The first token follows the white space at the start, and the others are read from its end on.
-/
theorem exists_of_scanFrom_eq_cons {offset : Nat} {t : Text} {token : Token} {rest : List Token}
    (h : scanFrom offset t = token :: rest) :
    ∃ lead after, isAllBlank lead ∧ t = lead ++ (token.text ++ after) ∧
      token.offset = offset + byteSize lead ∧ isAllBlank token.text = false ∧
      scanFrom token.stop after = rest := by
  fun_induction scanFrom offset t with
  | case1 => simp at h
  | case2 offset c cs hblank ih =>
    obtain ⟨lead, after, hlead, rfl, hoffset, hsolid, hrest⟩ := ih h
    refine ⟨c :: lead, after, ?_, rfl, ?_, hsolid, hrest⟩
    · rw [isAllBlank, List.all_cons, hblank, Bool.true_and]
      exact hlead
    · rw [hoffset, byteSize_cons, Nat.add_assoc]
  | case3 offset c cs hblank kind tail ih =>
    obtain ⟨rfl, rfl⟩ := List.cons.inj h
    have hsplit : tail ++ cs.drop tail.length = cs := tail_append_drop kind c cs
    refine ⟨[], cs.drop tail.length, rfl, ?_, rfl, by simp [isAllBlank, hblank], ?_⟩
    · rw [List.nil_append, List.cons_append, hsplit]
    · rw [stop, byteSize_cons, Nat.add_assoc]

/-- The token, further to the right by `k` bytes. -/
def moved (k : Nat) (t : Token) : Token :=
  { t with offset := k + t.offset }

/-- **What stands before a text only moves its tokens.** The reader uses the offset for nothing but
to write it down. -/
theorem scanFrom_add (k offset : Nat) (t : Text) :
    scanFrom (k + offset) t = (scanFrom offset t).map (moved k) := by
  fun_induction scanFrom offset t with
  | case1 => simp
  | case2 offset c cs hblank ih => rw [scanFrom_blank _ cs hblank, Nat.add_assoc, ih]
  | case3 offset c cs hblank kind rest ih =>
    rw [scanFrom_token _ cs (by simpa using hblank), List.map_cons, ← ih]
    simp only [moved, kind, rest, Nat.add_assoc]

/-- **Tokens come one after the other.** -/
theorem pairwise_scan (t : Text) : (scan t).Pairwise (fun a b => a.stop ≤ b.offset) :=
  (pairwise_scanFrom 0 t).1

/-! ## 3. Brackets -/

/-- The search for a closing bracket stops at one of its kind. -/
theorem closeAfter_kind {bracket : Bracket} {depth i : Nat} {ts : List Token}
    (h : closeAfter bracket depth ts = some i) :
    ∃ t, ts[i]? = some t ∧ t.kind = .closer bracket := by
  fun_induction closeAfter bracket depth ts generalizing i with
  | case1 => simp at h
  | case2 depth t ts hopener ih =>
    obtain ⟨j, hj, rfl⟩ := Option.map_eq_some_iff.mp h
    simpa using ih hj
  | case3 depth t ts hopener hcloser hdepth =>
    obtain rfl : 0 = i := by simpa using h
    exact ⟨t, rfl, hcloser⟩
  | case4 depth t ts hopener hcloser hdepth ih =>
    obtain ⟨j, hj, rfl⟩ := Option.map_eq_some_iff.mp h
    simpa using ih hj
  | case5 depth t ts hopener hcloser ih =>
    obtain ⟨j, hj, rfl⟩ := Option.map_eq_some_iff.mp h
    simpa using ih hj

/-- The partner of an opening bracket is a closing one that comes after it. -/
theorem partner?_eq_some {tokens : List Token} {i j : Nat} (h : partner? tokens i = some j) :
    i < j ∧ ∃ bracket t, tokens[j]? = some t ∧ t.kind = .closer bracket := by
  unfold partner? at h
  split at h
  · simp at h
  · next t ts hdrop =>
    split at h
    · next bracket hkind =>
      obtain ⟨k, hk, rfl⟩ := Option.map_eq_some_iff.mp h
      obtain ⟨closer, hcloser, hkind⟩ := closeAfter_kind hk
      refine ⟨by omega, bracket, closer, ?_, hkind⟩
      have hget : (tokens.drop i)[k + 1]? = some closer := by
        rw [hdrop, List.getElem?_cons_succ]
        exact hcloser
      rw [List.getElem?_drop] at hget
      rw [← hget]
      congr 1
      omega
    · simp at h

/-- A partner is always there: the index that is found is that of a token. -/
theorem partner?_eq_none {tokens : List Token} {i : Nat}
    (h : (partner? tokens i).bind (tokens[·]?) = none) : partner? tokens i = none := by
  cases hpartner : partner? tokens i with
  | none => rfl
  | some j =>
    obtain ⟨-, bracket, t, ht, -⟩ := partner?_eq_some hpartner
    rw [hpartner, Option.bind_some, ht] at h
    contradiction

/-- Tokens in order that come before one in the list end before it. -/
theorem stop_le_of_mem_take {tokens : List Token}
    (hpairwise : tokens.Pairwise fun a b => a.stop ≤ b.offset) {i : Nat} {t u : Token}
    (ht : t ∈ tokens.take i) (hu : tokens[i]? = some u) : t.stop ≤ u.offset := by
  obtain ⟨hi, rfl⟩ := List.getElem?_eq_some_iff.mp hu
  rw [← List.take_append_drop i tokens, List.pairwise_append] at hpairwise
  refine hpairwise.2.2 t ht _ ?_
  rw [List.drop_eq_getElem_cons hi]
  exact List.mem_cons_self

/-- An assignment is read off the equals sign at its start, whatever signs the token goes on with.
-/
theorem standsAt_equals {t : Text} {token : Token} (h : token ∈ scan t)
    (hassigns : token.assigns) : StandsAt t token.offset ['='] := by
  rw [assigns, Bool.and_eq_true, Bool.and_eq_true] at hassigns
  exact (standsAt_of_mem_scan h).of_isPrefix (List.isPrefixOf_iff_prefix.mp hassigns.1.2)

end Token

/-! ## 4. Top-level parts -/

/-- With one more separator in front of the text, each part stands right after a separator. The
extra one is there so that the first part is no exception in the induction. -/
theorem exists_of_mem_locateParts {sep : Char} {offset n : Nat} {parts : List Text} {part : Text}
    (h : (n, part) ∈ locateParts sep offset parts) :
    ∃ k, n = offset + k ∧ StandsAt (sep :: List.intercalate [sep] parts) k (sep :: part) := by
  induction parts generalizing offset with
  | nil => simp [locateParts] at h
  | cons first parts ih =>
    rw [locateParts] at h
    rcases List.mem_cons.mp h with heq | h
    · obtain ⟨rfl, rfl⟩ := Prod.mk.inj heq
      refine ⟨0, rfl, (standsAt_self _).of_isPrefix (List.cons_prefix_cons.mpr ⟨rfl, ?_⟩)⟩
      cases parts with
      | nil => exact List.intercalate_singleton ▸ List.prefix_refl _
      | cons next parts => exact ⟨[sep] ++ List.intercalate [sep] (next :: parts), by simp⟩
    · obtain ⟨k, rfl, hk⟩ := ih h
      cases parts with
      | nil => simp [locateParts] at h
      | cons next parts =>
        have hrest : StandsAt (sep :: List.intercalate [sep] (first :: next :: parts))
            (byteSize (sep :: first)) (sep :: List.intercalate [sep] (next :: parts)) :=
          ⟨sep :: first, [], by simp, rfl⟩
        refine ⟨byteSize (sep :: first) + k, ?_, hrest.trans hk⟩
        rw [byteSize_cons]
        omega

theorem le_of_mem_locateParts {sep : Char} {offset n : Nat} {parts : List Text} {part : Text}
    (h : (n, part) ∈ locateParts sep offset parts) : offset ≤ n := by
  obtain ⟨k, rfl, -⟩ := exists_of_mem_locateParts h
  exact Nat.le_add_right _ _

/-- **A part stands at its offset**, right after a separator unless it is the first. -/
theorem standsAt_of_mem_topLevelParts {sep : Char} {t part : Text} {n : Nat}
    (h : (n, part) ∈ topLevelParts sep t) :
    StandsAt t n part ∧
      (n = 0 ∨ ∃ k, n = k + sep.utf8Size ∧ StandsAt t k (sep :: part)) := by
  obtain ⟨k, rfl, front, back, heq, rfl⟩ := exists_of_mem_locateParts h
  rw [intercalate_splitFrom, List.append_assoc, List.cons_append] at heq
  rw [Nat.zero_add]
  cases front with
  | nil => exact ⟨⟨[], back, (List.cons.inj heq).2, rfl⟩, .inl rfl⟩
  | cons d front =>
    obtain ⟨rfl, rfl⟩ := List.cons.inj heq
    have hsep : StandsAt (front ++ sep :: (part ++ back)) (byteSize front) (sep :: part) :=
      ⟨front, back, by simp, rfl⟩
    refine ⟨?_, .inr ⟨byteSize front, Nat.add_comm _ _, hsep⟩⟩
    have hpart := hsep.right (s := [sep])
    rwa [byteSize_cons, byteSize_nil, Nat.add_zero, Nat.add_comm] at hpart

/-- The last of several parts stands right after a separator, as it is not the first. -/
theorem standsAt_last_of_topLevelParts {sep : Char} {t part : Text} {n : Nat}
    (hseveral : 1 < (topLevelParts sep t).length)
    (h : (topLevelParts sep t).getLast? = some (n, part)) :
    ∃ k, n = k + sep.utf8Size ∧ StandsAt t k (sep :: part) := by
  rcases (standsAt_of_mem_topLevelParts (List.mem_of_getLast? h)).2 with rfl | hsep
  · unfold topLevelParts at h hseveral
    cases hparts : splitFrom sep 0 .outside [] t with
    | nil => exact absurd hparts (splitFrom_ne_nil _ _ _ _ _)
    | cons first parts =>
      rw [hparts, locateParts] at h hseveral
      cases parts with
      | nil => simp [locateParts] at hseveral
      | cons next parts =>
        rw [locateParts, List.getLast?_cons_cons, ← locateParts] at h
        have hle := le_of_mem_locateParts (List.mem_of_getLast? h)
        have := sep.utf8Size_pos
        omega
  · exact hsep

end MacroScript
