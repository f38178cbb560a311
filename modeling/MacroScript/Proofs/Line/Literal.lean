import MacroScript.Line
import MacroScript.Proofs.Line.Code
import MacroScript.Proofs.Text.Quoting

/-!
# The code of a string literal

Between the quotes of a string literal a backslash takes the next character with it, so the literal
ends at the first quote that no backslash stands before. In the code of a line **the inside of a
literal is blanked, byte for byte**, and what comes after its closing quote is read on as code.
-/
namespace MacroScript

/-- What can stand between the quotes of a string literal. A backslash takes the next character with
it, which has to be one of `escapes`. Scans that know nothing of backslashes agree with the others
only if no quote is escaped, so that the class is left open. -/
inductive IsLiteralBody (escapes : Char → Bool) : Text → Prop
  | nil : IsLiteralBody escapes []
  | plain {c : Char} {cs : Text} (hquote : c ≠ '"') (hbackslash : c ≠ '\\')
      (hcs : IsLiteralBody escapes cs) : IsLiteralBody escapes (c :: cs)
  | escaped {c : Char} {cs : Text} (hc : escapes c) (hcs : IsLiteralBody escapes cs) :
      IsLiteralBody escapes ('\\' :: c :: cs)

namespace IsLiteralBody

/-- Fewer escapes are allowed where more are. -/
theorem mono {escapes escapes' : Char → Bool} (h : ∀ c, escapes c → escapes' c) {t : Text}
    (ht : IsLiteralBody escapes t) : IsLiteralBody escapes' t := by
  induction ht with
  | nil => exact .nil
  | plain hquote hbackslash _ ih => exact .plain hquote hbackslash ih
  | escaped hc _ ih => exact .escaped (h _ hc) ih

variable {escapes : Char → Bool} {body : Text}

/-- Inside a literal an escaped character changes nothing, so its end is its closing quote. The
class of quotes that open a literal does not matter inside one. -/
theorem quoting (h : IsLiteralBody escapes body) (opens : Char → Bool) :
    (Quoting.inside '"' false).past opens body = .inside '"' false := by
  induction h with
  | nil => rfl
  | plain hquote hbackslash _ ih =>
    simpa only [Quoting.past_cons, Quoting.next, hquote, hbackslash, if_false] using ih
  | escaped _ _ ih => simpa only [Quoting.past_cons, Quoting.next, if_true] using ih

end IsLiteralBody

/-- A character inside a literal is blanked, as long as it does not end it. -/
theorem codeFrom_inside {q c : Char} {e e' : Bool} {cs : Text}
    (h : (Quoting.inside q e).next isDoubleQuote c = .inside q e') :
    codeFrom (.inside q e) (c :: cs) =
      List.replicate c.utf8Size ' ' ++ codeFrom (.inside q e') cs := by
  rw [codeFrom, h]

/-- The inside of a literal is blanked up to its closing quote, and the code goes on behind it. -/
theorem IsLiteralBody.codeFrom {escapes : Char → Bool} {body : Text}
    (h : IsLiteralBody escapes body) (rest : Text) :
    codeFrom (.inside '"' false) (body ++ '"' :: rest) =
      List.replicate (Text.byteSize body) ' ' ++ '"' :: MacroScript.codeFrom .outside rest := by
  induction h with
  | nil =>
    have hclose : (Quoting.inside '"' false).next isDoubleQuote '"' = .outside := rfl
    rw [List.nil_append, MacroScript.codeFrom, hclose]
    rfl
  | @plain c cs hquote hbackslash _ ih =>
    have hstep : (Quoting.inside '"' false).next isDoubleQuote c = .inside '"' false := by
      simp [Quoting.next, hquote, hbackslash]
    rw [List.cons_append, codeFrom_inside hstep, ih, Text.byteSize_cons,
      ← List.replicate_append_replicate, List.append_assoc]
  | @escaped c cs _ _ ih =>
    have hstep : (Quoting.inside '"' false).next isDoubleQuote '\\' = .inside '"' true := rfl
    have hstep' : (Quoting.inside '"' true).next isDoubleQuote c = .inside '"' false := rfl
    rw [List.cons_append, codeFrom_inside hstep, List.cons_append, codeFrom_inside hstep', ih,
      Text.byteSize_cons, Text.byteSize_cons, ← List.replicate_append_replicate,
      ← List.replicate_append_replicate, List.append_assoc, List.append_assoc]

/-- **The code of a whole literal**: its quotes, and a space for each byte between them. -/
theorem codeFrom_literal {escapes : Char → Bool} {body : Text} (h : IsLiteralBody escapes body)
    (rest : Text) :
    codeFrom .outside ('"' :: (body ++ '"' :: rest)) =
      '"' :: (List.replicate (Text.byteSize body) ' ' ++ '"' :: codeFrom .outside rest) := by
  have hopen : Quoting.outside.next isDoubleQuote '"' = .inside '"' false := rfl
  rw [codeFrom, hopen, h.codeFrom]
  rfl

/-- A character that neither opens a literal nor can open a comment is code, and the scan stays
outside. -/
theorem codeFrom_cons {c : Char} {cs : Text} (hquote : c ≠ '"')
    (hslash : ¬ (c = '/' ∧ cs.head? = some '/')) :
    codeFrom .outside (c :: cs) = c :: codeFrom .outside cs := by
  have hopens : Quoting.outside.next isDoubleQuote c = .outside := by
    simp [Quoting.next, isDoubleQuote, hquote]
  rw [codeFrom, hopens]
  simp only [Bool.and_eq_true, decide_eq_true_eq, hslash, if_false]

end MacroScript
