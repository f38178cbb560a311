import MacroScript.Proofs.Line.Comment
import MacroScript.Proofs.Line.Mask
import MacroScript.Proofs.Token.Span

/-!
# The code lies over the line

The code of a line is read in place of the line, and what is found in it is looked up in the line by
its byte offsets. **The two fit byte for byte up to the end of the code** (`overlays_code`): each
character of the line is there in the code, or as many spaces as it has bytes. So a boundary of the
line is one of the code. The converse fails, since a blanked character of several bytes has
boundaries inside; but the ends of tokens, which are looked up, are boundaries of the line as well
(`Line.isBoundary_token`).

Code is its own code (`codeOf_code`), and the code of the part of the line that it covers
(`Line.codeOf_body`).
-/
namespace MacroScript

open Text

/-! ## 1. Code of code -/

/-- The first character of the code is the first one of the line, as outside literals nothing is
blanked. -/
theorem head?_of_head?_codeFrom {cs : Text} {d : Char}
    (h : (codeFrom .outside cs).head? = some d) : cs.head? = some d := by
  cases cs with
  | nil => exact h
  | cons c cs =>
    rw [codeFrom] at h
    split at h
    · simp at h
    · exact h

/-- Spaces inside a literal stay: each is blanked by one space. -/
theorem codeFrom_blanks (n : Nat) (t : Text) :
    codeFrom (.inside '"' false) (List.replicate n ' ' ++ t) =
      List.replicate n ' ' ++ codeFrom (.inside '"' false) t := by
  induction n with
  | zero => rfl
  | succ n ih =>
    rw [List.replicate_succ, List.cons_append, codeFrom]
    exact congrArg (' ' :: ·) ih

/-- The code of code is the code. The backslashes inside literals are gone, so the second scan is
never right behind one. -/
theorem codeFrom_codeFrom {q : Quoting} (hq : q.IsDouble) (raw : Text) :
    codeFrom q.calm (codeFrom q raw) = codeFrom q raw := by
  fun_induction codeFrom q raw with
  | case1 => rw [codeFrom]
  | case2 c cs hslashes => rw [codeFrom]
  | case3 c cs hslashes ih =>
    have hrest := ih (Quoting.isDouble_next hq c)
    rw [Quoting.calm_next_outside] at hrest
    rw [Quoting.calm, codeFrom, if_neg, hrest]
    -- two slashes in the code would be two slashes in the line
    intro hagain
    apply hslashes
    rw [Bool.and_eq_true, decide_eq_true_eq, decide_eq_true_eq] at hagain ⊢
    obtain ⟨rfl, hhead⟩ := hagain
    exact ⟨rfl, head?_of_head?_codeFrom hhead⟩
  | case4 quote e c cs hnext ih =>
    have hrest := ih Quoting.isDouble_outside
    have hkept : (Quoting.inside quote e).covers c = false := by
      rw [Quoting.covers, hnext]
      rfl
    obtain ⟨rfl, heq, -⟩ := Quoting.eq_quote_of_not_covers hq rfl hkept
    rw [heq]
    exact congrArg ('"' :: ·) hrest
  | case5 quote e c cs quote' e' hnext ih =>
    have hdouble := Quoting.isDouble_next hq c
    rw [hnext] at hdouble
    have hrest := ih hdouble
    rw [Quoting.calm_eq hdouble rfl] at hrest
    rw [Quoting.calm_eq hq rfl, codeFrom_blanks, hrest]

/-- **Code is its own code**, so analysing the code in place of the line changes nothing. -/
theorem codeOf_code (raw : Text) : codeOf (codeOf raw) = codeOf raw :=
  codeFrom_codeFrom Quoting.isDouble_outside raw

/-- **The part of a line under its code has the same code**, whether a comment follows it or the
line ends. -/
theorem Line.codeOf_body (l : Line) : codeOf l.body = l.code := by
  by_cases hcomment : l.hasComment
  · have halike := readsAlike_of_hasComment hcomment 0 (.inl rfl)
    have hcode := halike.code
    rwa [code, List.append_nil] at hcode
  · -- the code goes to the end of the line
    obtain ⟨tail, hraw⟩ := l.exists_raw_eq
    have hsize := l.byteSize_body
    obtain rfl : tail = [] := by
      rw [hasComment, decide_eq_true_eq, hraw, byteSize_append, hsize] at hcomment
      exact byteSize_eq_zero.mp (by omega)
    rw [List.append_nil] at hraw
    rw [← hraw, code]

/-! ## 2. Byte for byte -/

/-- The second of two texts is masked from the state that the first leads to. -/
theorem maskFrom_append (q : Quoting) (u v : Text) :
    maskFrom q (u ++ v) = maskFrom q u ++ maskFrom (q.past isDoubleQuote u) v := by
  induction u generalizing q with
  | nil => rfl
  | cons c u ih =>
    rw [List.cons_append, maskFrom, ih, maskFrom, List.append_assoc, Quoting.past_cons]

/-- The code lies over the line. -/
structure Overlays (code raw : Text) : Prop where
  /-- The code is no longer than the line. -/
  byteSize_le : byteSize code ≤ byteSize raw
  /-- Within the code, boundaries of the line are boundaries of the code. -/
  isBoundary : ∀ n ≤ byteSize code, isBoundary n raw → isBoundary n code
  /-- Where the line has a character, the code has the same character or, if it stands between
  double quotes, a space for each of its bytes. -/
  slice? : ∀ front c back, raw = front ++ c :: back → byteSize front < byteSize code →
    Text.slice? (byteSize front) (byteSize front + c.utf8Size) code =
      some (if (Quoting.outside.past isDoubleQuote front).covers c
        then List.replicate c.utf8Size ' ' else [c])
  /-- The code is its own code. -/
  codeOf_code : codeOf code = code
  /-- The code is the code of what it lies over. -/
  codeOf_body : (Text.slice? 0 (byteSize code) raw).map codeOf = some code

namespace Line

variable (l : Line)

/-- The code behind a front part of the line is the mask of what follows, from the state at the end
of the front part. -/
theorem code_eq_of_front {front back : Text} (hraw : l.raw = front ++ back)
    (hle : byteSize front ≤ byteSize l.code) :
    ∃ middle tail, back = middle ++ tail ∧
      l.code = mask front ++ maskFrom (Quoting.outside.past isDoubleQuote front) middle := by
  obtain ⟨tail, hbody⟩ := l.exists_raw_eq
  rw [hraw] at hbody
  obtain ⟨middle, hmiddle, hback⟩ := exists_middle hbody (by rwa [l.byteSize_body])
  refine ⟨middle, tail, hback, ?_⟩
  rw [l.code_eq_mask, hmiddle, mask, maskFrom_append, mask]

/-- **The code of a line lies over the line.** -/
theorem overlays_code : Overlays l.code l.raw := by
  obtain ⟨tail, hraw⟩ := l.exists_raw_eq
  have hsize := l.byteSize_body
  refine ⟨?_, fun n hn hboundary => ?_, fun front c back hfront hlt => ?_, codeOf_code l.raw, ?_⟩
  · rw [← hsize, hraw, byteSize_append]
    exact Nat.le_add_right _ _
  · obtain ⟨front, back, hfront, rfl⟩ := isBoundary_iff.mp hboundary
    obtain ⟨middle, -, -, hcode⟩ := l.code_eq_of_front hfront hn
    exact isBoundary_iff.mpr ⟨_, _, hcode, byteSize_maskFrom _ _⟩
  · obtain ⟨middle, after, hback, hcode⟩ := l.code_eq_of_front hfront (Nat.le_of_lt hlt)
    cases middle with
    | nil =>
      -- then the code would end before the character
      rw [hcode, maskFrom, List.append_nil, mask, byteSize_maskFrom] at hlt
      exact absurd hlt (Nat.lt_irrefl _)
    | cons d middle =>
      obtain ⟨rfl, -⟩ := List.cons.inj hback
      rw [maskFrom] at hcode
      have hstands : StandsAt l.code (byteSize front)
          (if (Quoting.outside.past isDoubleQuote front).covers c then List.replicate c.utf8Size ' '
            else [c]) :=
        ⟨mask front, _, by rw [hcode, List.append_assoc], byteSize_maskFrom _ _⟩
      have hpiece : byteSize (if (Quoting.outside.past isDoubleQuote front).covers c
          then List.replicate c.utf8Size ' ' else [c]) = c.utf8Size := by
        split
        · exact byteSize_replicate_space _
        · rfl
      have hslice := hstands.slice?_eq
      rwa [hpiece] at hslice
  · have hstands : StandsAt l.raw 0 l.body := ⟨[], tail, by rw [hraw]; rfl, rfl⟩
    have hslice := hstands.slice?_eq
    rw [Nat.zero_add, hsize] at hslice
    rw [hslice, Option.map_some, l.codeOf_body]

/-! ## 3. Offsets that are looked up -/

variable {l}

/-- **The ends of a token are boundaries of the line.** A token starts with a character other than
white space; it ends with one too, or with the code. -/
theorem isBoundary_token {t : Token} (h : t ∈ Token.scan l.code) :
    isBoundary t.offset l.raw ∧ isBoundary t.stop l.raw := by
  constructor
  · obtain ⟨c, hc, hstands, -⟩ := Token.exists_first_of_mem_scan h
    exact (InSight.before hstands (ne_space_of_not_isBlank hc)).isBoundary
  · rcases Token.isSolid_or_stop_eq h with hsolid | hstop
    · exact (inSight_stop (Token.standsAt_of_mem_scan h) hsolid).isBoundary
    · rw [hstop]
      exact InSight.stop.isBoundary

end Line

end MacroScript
