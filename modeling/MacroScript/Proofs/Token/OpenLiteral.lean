import MacroScript.Proofs.Token.Ascii
import MacroScript.Proofs.Text.Quoting
import MacroScript.Proofs.Token.Span

/-!
# Literals that are still open

Whether a text ends inside a string literal is told by a scan that knows nothing but quotes and
backslashes. The reader of tokens has a state of its own for that, and the two agree: **behind a
token the scan for quotes stands outside of all literals, unless the token is a literal that goes to
the end of the text** (`Token.past_token`). So a space ends every token of a text that does not end
inside a literal, and what follows it is read as a text of its own (`Token.scanFrom_append_space`).
In a text that does, the space belongs to its last token (`Token.length_scanFrom_of_isInside`).
-/
namespace MacroScript

open Text

namespace Token

/-! ## 1. Quotes in tokens -/

theorem isQuote_of_isDigit {c : Char} (h : c.isDigit) : isQuote c = false :=
  isQuote_of_class (by decide) h

theorem isQuote_of_isOperatorSign {c : Char} (h : isOperatorSign c) : isQuote c = false :=
  isQuote_of_class (by decide) h

/-- A number goes on with digits, and with points in front of digits. -/
theorem eq_point_of_mem_numberTail {cs : Text} {c : Char} (h : c ∈ numberTail cs) :
    c.isDigit ∨ c = '.' := by
  fun_induction numberTail cs with
  | case1 => simp at h
  | case2 d ds hd ih =>
    rcases List.mem_cons.mp h with rfl | h
    · rw [Bool.or_eq_true, Bool.and_eq_true, decide_eq_true_eq] at hd
      exact hd.imp id And.left
    · exact ih h
  | case3 => simp at h

/-- Only string literals hold quotes: names, numbers and operators go on with characters of classes
that have none, and the other tokens do not go on at all. So a token that is no literal does not
change the state of the scan for quotes. -/
theorem isQuote_of_mem_tail {kind : Kind} (hkind : kind ≠ .string) {c : Char} {cs : Text}
    {d : Char} (h : d ∈ tail kind c cs) : isQuote d = false := by
  unfold tail at h
  split at h
  · contradiction
  · rcases eq_point_of_mem_numberTail h with hdigit | rfl
    · exact isQuote_of_isDigit hdigit
    · rfl
  · exact isQuote_of_isNameChar (List.mem_takeWhile_imp h)
  · exact isQuote_of_isOperatorSign (List.mem_takeWhile_imp h)
  · simp at h

/-- A single character of punctuation is of none of the other kinds, which settles the last branch
of `kindOf`. -/
theorem punctuation_ne (c : Char) :
    punctuation c ≠ .string ∧ punctuation c ≠ .number ∧ punctuation c ≠ .operator := by
  unfold punctuation
  split <;> simp

/-- A quote starts a literal, and nothing else does. -/
theorem kindOf_eq_string {c : Char} : kindOf c = .string ↔ isQuote c := by
  unfold kindOf
  split_ifs <;> simp_all [punctuation_ne]

theorem kindOf_eq_number {c : Char} : kindOf c = .number ↔ c.isDigit := by
  have hquote := @isQuote_of_isDigit c
  unfold kindOf
  split_ifs <;> simp_all [punctuation_ne, isAsciiDigit]

/-! ## 2. Literals, closed and open -/

/-- The rest of a literal leads out of it, or it is all that is left and leads nowhere. The reader
and the scan treat backslashes alike, so that they see the same quote as the end. -/
theorem past_stringTail (quote : Char) (escaped : Bool) (cs : Text) :
    (Quoting.inside quote escaped).past isQuote (stringTail quote escaped cs) = .outside ∨
      stringTail quote escaped cs = cs ∧
        ∃ escaped', (Quoting.inside quote escaped).past isQuote cs = .inside quote escaped' := by
  have hcons {c : Char} {tail cs : Text} {q : Quoting}
      (h : q.past isQuote tail = .outside ∨
        tail = cs ∧ ∃ escaped', q.past isQuote cs = .inside quote escaped') :
      q.past isQuote tail = .outside ∨
        c :: tail = c :: cs ∧ ∃ escaped', q.past isQuote cs = .inside quote escaped' :=
    h.imp id fun hopen => ⟨congrArg _ hopen.1, hopen.2⟩
  fun_induction stringTail quote escaped cs with
  | case1 escaped => exact .inr ⟨rfl, escaped, rfl⟩
  | case2 c cs ih => exact hcons ih
  | case3 cs ih => exact hcons ih
  | case4 cs hbackslash =>
    refine .inl ?_
    simp [Quoting.next, hbackslash]
  | case5 c cs hbackslash hquote ih =>
    simp only [Quoting.past_cons, Quoting.next, hbackslash, hquote, if_false]
    exact hcons ih

/-- Nothing is added to a closed literal by what comes after its quote. -/
theorem stringTail_append_of_closed {quote : Char} {escaped : Bool} {cs : Text}
    (h : (Quoting.inside quote escaped).past isQuote (stringTail quote escaped cs) = .outside)
    (v : Text) :
    stringTail quote escaped (cs ++ v) = stringTail quote escaped cs := by
  fun_induction stringTail quote escaped cs with
  | case1 => simp at h
  | case2 c cs ih => rw [List.cons_append, stringTail, ih h]
  | case3 cs ih => rw [List.cons_append, stringTail, if_pos rfl, ih h]
  | case4 cs hbackslash => rw [List.cons_append, stringTail, if_neg hbackslash, if_pos rfl]
  | case5 c cs hbackslash hquote ih =>
    simp only [Quoting.past_cons, Quoting.next, hbackslash, hquote, if_false] at h
    rw [List.cons_append, stringTail, if_neg hbackslash, if_neg hquote, ih h]

/-- An open literal goes on with what is added, from the state at its end: a backslash there still
counts. -/
theorem stringTail_append_of_open {quote : Char} {escaped escaped' : Bool} {cs : Text}
    (hall : stringTail quote escaped cs = cs)
    (h : (Quoting.inside quote escaped).past isQuote cs = .inside quote escaped') (v : Text) :
    stringTail quote escaped (cs ++ v) = cs ++ stringTail quote escaped' v := by
  fun_induction stringTail quote escaped cs with
  | case1 escaped =>
    obtain rfl : escaped = escaped' := by simpa using h
    rfl
  | case2 c cs ih => rw [List.cons_append, stringTail, ih (List.cons.inj hall).2 h]; rfl
  | case3 cs ih => rw [List.cons_append, stringTail, if_pos rfl, ih (List.cons.inj hall).2 h]; rfl
  | case4 cs hbackslash =>
    obtain rfl : [] = cs := (List.cons.inj hall).2
    simp [Quoting.next, hbackslash] at h
  | case5 c cs hbackslash hquote ih =>
    simp only [Quoting.past_cons, Quoting.next, hbackslash, hquote, if_false] at h
    rw [List.cons_append, stringTail, if_neg hbackslash, if_neg hquote,
      ih (List.cons.inj hall).2 h]
    rfl

/-- **Behind a token the scan for quotes stands outside**, unless the token is a literal that goes
to the end of the text. A token that is no literal holds no quote, and a literal is left with its
own. -/
theorem past_token (c : Char) (cs : Text) :
    Quoting.outside.past isQuote (c :: tail (kindOf c) c cs) = .outside ∨
      isQuote c ∧ tail (kindOf c) c cs = cs ∧
        ∃ escaped, (Quoting.inside c false).past isQuote cs = .inside c escaped := by
  by_cases hquote : isQuote c
  · rw [Quoting.past_cons, Quoting.next_of_opens hquote, kindOf_eq_string.mpr hquote]
    exact (past_stringTail c false cs).imp id fun hopen => ⟨hquote, hopen⟩
  · refine .inl (Quoting.past_outside fun d hd => ?_)
    have hkind : kindOf c ≠ .string := mt kindOf_eq_string.mp hquote
    rcases List.mem_cons.mp hd with rfl | hd
    · simpa using hquote
    · exact isQuote_of_mem_tail hkind hd

/-! ## 3. A space behind a text -/

theorem numberTail_append_space (cs u : Text) : numberTail (cs ++ ' ' :: u) = numberTail cs := by
  have hspace : isAsciiDigit ' ' = false := by decide
  induction cs with
  | nil => simp [numberTail, hspace]
  | cons c cs ih =>
    have hhead : (cs ++ ' ' :: u).head?.any isAsciiDigit = cs.head?.any isAsciiDigit := by
      cases cs <;> simp [hspace]
    rw [List.cons_append, numberTail, numberTail, hhead, ih]

theorem takeWhile_append_space {p : Char → Bool} (hp : p ' ' = false) (cs u : Text) :
    (cs ++ ' ' :: u).takeWhile p = cs.takeWhile p := by
  induction cs with
  | nil => simp [hp]
  | cons c cs ih => rw [List.cons_append, List.takeWhile_cons, List.takeWhile_cons, ih]

/-- A space ends every token but an open literal, since no other token holds one. -/
theorem tail_append_space {c : Char} {cs : Text}
    (h : Quoting.outside.past isQuote (c :: tail (kindOf c) c cs) = .outside) (u : Text) :
    tail (kindOf c) c (cs ++ ' ' :: u) = tail (kindOf c) c cs := by
  cases hkind : kindOf c with
  | string =>
    rw [Quoting.past_cons, Quoting.next_of_opens (kindOf_eq_string.mp hkind), hkind] at h
    exact stringTail_append_of_closed h _
  | number => exact numberTail_append_space cs u
  | name => exact takeWhile_append_space (by decide) cs u
  | operator => exact takeWhile_append_space (by decide) cs u
  | opener | closer | dot | comma | semicolon | colon | other => rfl

/-- What comes behind a token that a space would end is what is left of the text, with the space
behind it. -/
theorem scanFrom_token_append_space {c : Char} {cs : Text} (hblank : isBlank c = false)
    (h : Quoting.outside.past isQuote (c :: tail (kindOf c) c cs) = .outside) (offset : Nat)
    (u : Text) :
    scanFrom offset (c :: cs ++ ' ' :: u) =
      ⟨kindOf c, c :: tail (kindOf c) c cs, offset⟩ ::
        scanFrom (offset + c.utf8Size + byteSize (tail (kindOf c) c cs))
          (cs.drop (tail (kindOf c) c cs).length ++ ' ' :: u) := by
  rw [List.cons_append, scanFrom_token _ _ hblank, tail_append_space h,
    List.drop_append_of_le_length]
  exact (tail_isPrefix _ _ _).length_le

theorem past_blank {c : Char} (h : isBlank c) (t : Text) :
    Quoting.outside.past isQuote (c :: t) = Quoting.outside.past isQuote t := by
  rw [Quoting.past_cons, Quoting.next_of_not_opens (isQuote_of_isBlank h)]

/-- The scan for quotes goes on behind a token as from the start, if the token has left it outside.
-/
theorem past_drop {c : Char} {cs : Text}
    (h : Quoting.outside.past isQuote (c :: tail (kindOf c) c cs) = .outside) :
    Quoting.outside.past isQuote (c :: cs) =
      Quoting.outside.past isQuote (cs.drop (tail (kindOf c) c cs).length) := by
  nth_rewrite 1 [← tail_append_drop (kindOf c) c cs]
  rw [← List.cons_append, Quoting.past_append, h]

/-- **Behind a space the tokens start anew**, if no literal is open there. The induction follows the
reader over the tokens in front of the space. -/
theorem scanFrom_append_space {t : Text} (h : (Quoting.outside.past isQuote t).isInside = false)
    (offset : Nat) (u : Text) :
    scanFrom offset (t ++ ' ' :: u) =
      scanFrom offset t ++ scanFrom (offset + byteSize t + 1) u := by
  fun_induction scanFrom offset t with
  | case1 offset => exact scanFrom_blank offset u (by decide)
  | case2 offset c cs hblank ih =>
    rw [past_blank hblank] at h
    rw [List.cons_append, scanFrom_blank _ _ hblank, ih h, byteSize_cons, ← Nat.add_assoc]
  | case3 offset c cs hblank kind rest ih =>
    -- an open literal would be all that is left, and the text would end inside it
    have hclosed : Quoting.outside.past isQuote (c :: rest) = .outside := by
      rcases past_token c cs with hclosed | ⟨hquote, -, escaped, hopen⟩
      · exact hclosed
      · rw [Quoting.past_cons, Quoting.next_of_opens hquote, hopen] at h
        contradiction
    rw [past_drop hclosed] at h
    have hsize : byteSize (c :: cs) =
        c.utf8Size + byteSize rest + byteSize (cs.drop rest.length) := by
      rw [byteSize_cons, Nat.add_assoc, ← byteSize_append, tail_append_drop]
    rw [scanFrom_token_append_space (by simpa using hblank) hclosed, ih h, hsize]
    simp only [kind, rest, List.cons_append, Nat.add_assoc]

/-- **An open literal is the last token** and goes to the end of the text: all that follows its
quote belongs to it. -/
theorem exists_last_of_isInside {t : Text} (h : (Quoting.outside.past isQuote t).isInside)
    (offset : Nat) :
    ∃ token, (scanFrom offset t).getLast? = some token ∧ token.kind = .string ∧
      token.stop = offset + byteSize t := by
  fun_induction scanFrom offset t with
  | case1 => contradiction
  | case2 offset c cs hblank ih =>
    rw [past_blank hblank] at h
    obtain ⟨token, hlast, hkind, hstop⟩ := ih h
    exact ⟨token, hlast, hkind, by rw [hstop, byteSize_cons, Nat.add_assoc]⟩
  | case3 offset c cs hblank kind rest ih =>
    rcases past_token c cs with hclosed | ⟨hquote, hall, -⟩
    · rw [past_drop hclosed] at h
      obtain ⟨token, hlast, hkind, hstop⟩ := ih h
      refine ⟨token, by rw [List.getLast?_cons, hlast]; rfl, hkind, ?_⟩
      rw [hstop, byteSize_cons, Nat.add_assoc, Nat.add_assoc, ← byteSize_append, tail_append_drop]
    · -- this token is the literal
      have hrest : rest = cs := hall
      refine ⟨⟨kind, c :: rest, offset⟩, ?_, kindOf_eq_string.mpr hquote, ?_⟩
      · simp [hrest]
      · rw [hrest]
        rfl

/-- **In an open literal a space and a letter are no further token.** They lengthen the last one, in
contrast to `scanFrom_append_space`. -/
theorem length_scanFrom_of_isInside {t : Text} (h : (Quoting.outside.past isQuote t).isInside)
    (offset : Nat) :
    (scanFrom offset (t ++ [' ', 'x'])).length = (scanFrom offset t).length := by
  fun_induction scanFrom offset t with
  | case1 => contradiction
  | case2 offset c cs hblank ih =>
    rw [past_blank hblank] at h
    rw [List.cons_append, scanFrom_blank _ _ hblank, ih h]
  | case3 offset c cs hblank kind rest ih =>
    rcases past_token c cs with hclosed | ⟨hquote, hall, escaped, hopen⟩
    · rw [past_drop hclosed] at h
      rw [scanFrom_token_append_space (by simpa using hblank) hclosed, List.length_cons,
        List.length_cons, ih h]
    · -- the literal takes in both characters, whether or not a backslash stands before them
      have hstring := kindOf_eq_string.mpr hquote
      have hrest : rest = cs := hall
      rw [hstring] at hall
      have hmore : stringTail c escaped [' ', 'x'] = [' ', 'x'] := by
        simp only [isQuote, Bool.or_eq_true, beq_iff_eq] at hquote
        rcases hquote with (rfl | rfl) | rfl <;> cases escaped <;> rfl
      have htail : tail (kindOf c) c (cs ++ [' ', 'x']) = cs ++ [' ', 'x'] := by
        rw [hstring, tail, stringTail_append_of_open hall hopen, hmore]
      rw [List.cons_append, scanFrom_token _ _ (by simpa using hblank), htail]
      simp [hrest]

end Token

end MacroScript
