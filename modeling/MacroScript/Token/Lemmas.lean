import MacroScript.Text.Lemmas
import MacroScript.Token.Scan
import MacroScript.Token.Split

/-!
# Tokens and parts lose nothing

What follows the first character of a token is the start of what follows it in the line, so reading
one token loses nothing. The three equations for `scanFrom` say what one step of the scan does. The
top-level parts of a text, joined, are the text.
-/
namespace MacroScript

namespace Token

/-! ## The rest of a token -/

/-- The rest of a string literal is the start of what follows its quote. -/
theorem stringTail_isPrefix (quote : Char) (escaped : Bool) (cs : Text) :
    stringTail quote escaped cs <+: cs := by
  induction cs generalizing escaped with
  | nil => cases escaped <;> simp [stringTail]
  | cons c cs ih =>
    cases escaped with
    | true =>
      rw [stringTail]
      exact List.cons_prefix_cons.mpr ⟨rfl, ih false⟩
    | false =>
      rw [stringTail]
      split
      · exact List.cons_prefix_cons.mpr ⟨rfl, ih true⟩
      · split
        · exact List.cons_prefix_cons.mpr ⟨rfl, List.nil_prefix⟩
        · exact List.cons_prefix_cons.mpr ⟨rfl, ih false⟩

/-- The rest of a number is the start of what follows its first digit. -/
theorem numberTail_isPrefix (cs : Text) : numberTail cs <+: cs := by
  induction cs with
  | nil => simp [numberTail]
  | cons c cs ih =>
    rw [numberTail]
    split
    · exact List.cons_prefix_cons.mpr ⟨rfl, ih⟩
    · exact List.nil_prefix

/-- The rest of a token is the start of what follows its first character. -/
theorem tail_isPrefix (kind : Kind) (c : Char) (cs : Text) : tail kind c cs <+: cs := by
  unfold tail
  split
  · exact stringTail_isPrefix c false cs
  · exact numberTail_isPrefix cs
  · exact List.takeWhile_prefix _
  · exact List.takeWhile_prefix _
  · exact List.nil_prefix

/-- **A token loses nothing**: its rest and what the scan goes on with are what follows its first
character. -/
theorem tail_append_drop (kind : Kind) (c : Char) (cs : Text) :
    tail kind c cs ++ cs.drop (tail kind c cs).length = cs :=
  (List.prefix_iff_eq_append.mp (tail_isPrefix kind c cs))

/-! ## One step of the scan -/

@[simp] theorem scanFrom_nil (offset : Nat) : scanFrom offset [] = [] := by
  rw [scanFrom]

/-- White space is passed over. -/
theorem scanFrom_blank (offset : Nat) {c : Char} (cs : Text) (h : isBlank c = true) :
    scanFrom offset (c :: cs) = scanFrom (offset + c.utf8Size) cs := by
  rw [scanFrom, if_pos h]

/-- Any other character starts a token. -/
theorem scanFrom_token (offset : Nat) {c : Char} (cs : Text) (h : isBlank c = false) :
    scanFrom offset (c :: cs) =
      ⟨kindOf c, c :: tail (kindOf c) c cs, offset⟩ ::
        scanFrom (offset + c.utf8Size + Text.byteSize (tail (kindOf c) c cs))
          (cs.drop (tail (kindOf c) c cs).length) := by
  rw [scanFrom, if_neg (by simp [h])]

/-- A token that is known to end where `rest` starts. -/
theorem scanFrom_append {c : Char} {cs rest : Text} (hblank : isBlank c = false)
    (htail : tail (kindOf c) c (cs ++ rest) = cs) (offset : Nat) :
    scanFrom offset (c :: cs ++ rest) =
      ⟨kindOf c, c :: cs, offset⟩ :: scanFrom (offset + Text.byteSize (c :: cs)) rest := by
  rw [List.cons_append, scanFrom_token offset _ hblank, htail, List.drop_left, Text.byteSize_cons,
    Nat.add_assoc]

theorem scanFrom_blanks {blanks : Text} (h : ∀ c ∈ blanks, isBlank c) (rest : Text)
    (offset : Nat) :
    scanFrom offset (blanks ++ rest) = scanFrom (offset + Text.byteSize blanks) rest := by
  induction blanks generalizing offset with
  | nil => rfl
  | cons c cs ih =>
    rw [List.cons_append, scanFrom_blank offset _ (h c List.mem_cons_self),
      ih fun d hd => h d (List.mem_cons_of_mem _ hd), Text.byteSize_cons, Nat.add_assoc]

end Token

/-! ## Top-level parts -/

/-- Only the separator is a cut. -/
theorem eq_of_isCut {sep : Char} {depth : Int} {before after : Text} {c : Char}
    (h : isCut sep depth before c after = true) : c = sep := by
  simp only [isCut, Bool.and_eq_true, decide_eq_true_eq] at h
  exact h.1.1.2

/-- There is always a part. -/
theorem splitFrom_ne_nil (sep : Char) (depth : Int) (quoting : Quoting) (before t : Text) :
    splitFrom sep depth quoting before t ≠ [] := by
  induction t generalizing depth quoting before with
  | nil => simp [splitFrom]
  | cons c cs ih =>
    cases quoting with
    | outside =>
      rw [splitFrom]
      split
      · simp
      · exact mt List.modifyHead_eq_nil_iff.mp (ih _ _ _)
    | inside q e =>
      rw [splitFrom]
      exact mt List.modifyHead_eq_nil_iff.mp (ih _ _ _)

/-- **The parts, joined, are the text**, from wherever the cutting starts. -/
theorem intercalate_splitFrom (sep : Char) (depth : Int) (quoting : Quoting) (before t : Text) :
    List.intercalate [sep] (splitFrom sep depth quoting before t) = t := by
  induction t generalizing depth quoting before with
  | nil => simp [splitFrom]
  | cons c cs ih =>
    cases quoting with
    | outside =>
      have hrest := ih (depth + bracketStep c) (Quoting.outside.next isQuote c) (c :: before)
      have hne := splitFrom_ne_nil sep (depth + bracketStep c)
        (Quoting.outside.next isQuote c) (c :: before) cs
      rw [splitFrom]
      by_cases h : isCut sep depth before c cs = true
      · rw [if_pos h, List.intercalate_cons_of_ne_nil hne, hrest, eq_of_isCut h]
        rfl
      · rw [if_neg h, Text.intercalate_modifyHead _ _ hne, hrest]
    | inside q e =>
      rw [splitFrom, Text.intercalate_modifyHead _ _ (splitFrom_ne_nil _ _ _ _ _), ih]

/-- Locating the parts leaves them as they are. -/
theorem map_snd_locateParts (sep : Char) (offset : Nat) (parts : List Text) :
    (locateParts sep offset parts).map (·.2) = parts := by
  induction parts generalizing offset with
  | nil => rfl
  | cons part parts ih => simp [locateParts, ih]

end MacroScript
