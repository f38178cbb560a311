import MacroScript.Diagnostic.Comparison
import MacroScript.Proofs.Token.Ascii
import MacroScript.Proofs.Text.Part

/-!
# Comparisons as they are written

No character of an operand, and no white space, is a character of an operator. So a text is a
comparison in one way at most, and **it is read as the comparison that it is written as**
(`Comparison.ofText?_eq_some_iff`). It starts and ends with an operand, so none of its operators
lacks one, and the first place where its operator is spelled is the one between the operands, if the
left operand does not spell it.
-/
namespace MacroScript

open Text

/-! ## 1. Characters of operands and of operators -/

theorem isOperandChar_of_isAsciiNameChar {c : Char} (h : isAsciiNameChar c) : isOperandChar c := by
  simp [isOperandChar, h]

/-- What holds of no character of an operator. There are four of them, so that the hypothesis can be
evaluated. -/
theorem forall_of_isComparisonChar {p : Char → Bool}
    (h : ['=', '!', '<', '>'].all (!p ·)) {c : Char} (hc : p c) :
    isComparisonChar c = false := by
  rw [← Bool.not_eq_true]
  intro hcomparison
  have hmem : c ∈ ['=', '!', '<', '>'] := by
    simpa [isComparisonChar, or_assoc] using hcomparison
  have hnot := List.all_eq_true.mp h c hmem
  rw [hc] at hnot
  contradiction

theorem isComparisonChar_of_isDigit {c : Char} (h : c.isDigit) : isComparisonChar c = false :=
  forall_of_isComparisonChar (by decide) h

theorem isComparisonChar_of_isBlank {c : Char} (h : isBlank c) : isComparisonChar c = false :=
  forall_of_isComparisonChar (by decide) h

theorem isOperandChar_of_isBlank {c : Char} (h : isBlank c) : isOperandChar c = false := by
  have hnot : !isOperandChar c :=
    forall_of_isBlank (p := fun c => !isOperandChar c) (by decide +kernel) (by decide +kernel) h
  simpa using hnot

/-- A character at an end of an operand: a quote if it is a literal, and else one of a name. -/
def isOperandEnd (c : Char) : Bool :=
  c == '"' || isOperandChar c

theorem isComparisonChar_of_isOperandEnd {c : Char} (h : isOperandEnd c) :
    isComparisonChar c = false :=
  forall_of_isComparisonChar (by decide) h

/-- An operand without quotes ends at the latest where an operator starts. -/
theorem isOperandChar_of_isComparisonChar {c : Char} (h : isComparisonChar c) :
    isOperandChar c = false := by
  rw [← Bool.not_eq_true]
  intro hoperand
  have hnot := isComparisonChar_of_isOperandEnd (c := c) (by simp [isOperandEnd, hoperand])
  rw [h] at hnot
  contradiction

theorem isBlank_of_isComparisonChar {c : Char} (h : isComparisonChar c) : isBlank c = false := by
  rw [← Bool.not_eq_true]
  intro hblank
  rw [isComparisonChar_of_isBlank hblank] at h
  contradiction

theorem isBlank_of_isOperandEnd {c : Char} (h : isOperandEnd c) : isBlank c = false := by
  rw [isOperandEnd, Bool.or_eq_true, beq_iff_eq] at h
  rcases h with rfl | h
  · decide
  · rw [← Bool.not_eq_true]
    intro hblank
    rw [isOperandChar_of_isBlank hblank] at h
    contradiction

/-- What white space is not, and what the text behind it does not start with, the two together do
not start with. A reading that stops in front of the text stops in front of the white space before
it. -/
theorem head?_blank_append {p : Char → Bool} (hp : ∀ c, isBlank c → p c = false) {gap rest : Text}
    (hgap : isAllBlank gap) (hrest : ∀ c ∈ rest.head?, p c = false) :
    ∀ c ∈ (gap ++ rest).head?, p c = false := by
  intro c hc
  cases gap with
  | nil => exact hrest c hc
  | cons d gap =>
    obtain rfl : d = c := by simpa using hc
    exact hp d (List.all_eq_true.mp hgap d List.mem_cons_self)

/-! ## 2. Operands -/

/-- An operand: a string literal, or a dotted or indexed name. There is no escape in a literal here,
so that its first double quote ends it. -/
inductive IsOperand : Text → Prop
  | literal {inner : Text} (h : '"' ∉ inner) : IsOperand ('"' :: inner ++ ['"'])
  | name {cs : Text} (hne : cs ≠ []) (h : ∀ c ∈ cs, isOperandChar c) : IsOperand cs

namespace IsOperand

variable {o : Text} (ho : IsOperand o)
include ho

theorem exists_head : ∃ c cs, o = c :: cs ∧ isOperandEnd c := by
  cases ho with
  | @literal inner _ => exact ⟨'"', inner ++ ['"'], rfl, rfl⟩
  | name hne h =>
    obtain ⟨c, cs, rfl⟩ := List.exists_cons_of_ne_nil hne
    exact ⟨c, cs, rfl, by simp [isOperandEnd, h c List.mem_cons_self]⟩

theorem exists_last : ∃ cs c, o = cs ++ [c] ∧ isOperandEnd c := by
  cases ho with
  | @literal inner _ => exact ⟨'"' :: inner, '"', rfl, rfl⟩
  | name hne h =>
    refine ⟨_, _, (List.dropLast_append_getLast hne).symm, ?_⟩
    simp [isOperandEnd, h _ (List.getLast_mem hne)]

theorem isTrimmed : o.isTrimmed := by
  obtain ⟨c, cs, hhead, hc⟩ := ho.exists_head
  obtain ⟨ds, d, hlast, hd⟩ := ho.exists_last
  rw [Text.isTrimmed, Bool.and_eq_true]
  constructor
  · simp [hhead, isBlank_of_isOperandEnd hc]
  · simp [hlast, isBlank_of_isOperandEnd hd]

/-- **An operand is read off the front of a text**, if what follows does not go on with a name. -/
theorem readOperand?_append {rest : Text} (hrest : ∀ c ∈ rest.head?, isOperandChar c = false) :
    readOperand? (o ++ rest) = some (o, rest) := by
  cases ho with
  | @literal inner h =>
    have htake : (inner ++ '"' :: rest).takeWhile (· != '"') = inner := by
      apply takeWhile_append
      · intro c hc
        simp only [bne_iff_ne]
        rintro rfl
        exact h hc
      · simp
    simp [readOperand?, htake]
  | name hne h =>
    have htake : (o ++ rest).takeWhile isOperandChar = o := takeWhile_append h hrest
    unfold readOperand?
    split
    · next cs heq =>
      obtain ⟨c, o, rfl⟩ := List.exists_cons_of_ne_nil hne
      obtain ⟨rfl, -⟩ := List.cons.inj heq
      exact absurd (h '"' List.mem_cons_self) (by decide)
    · simp [htake, hne]

end IsOperand

/-- What is read off the front of a text is an operand. With the converse above, an operand and what
is read as one are the same. -/
theorem isOperand_of_readOperand? {t o rest : Text} (h : readOperand? t = some (o, rest)) :
    t = o ++ rest ∧ IsOperand o := by
  unfold readOperand? at h
  split at h
  · next cs =>
    have hsplit := List.takeWhile_append_dropWhile (p := (· != '"')) (l := cs)
    have hinner : '"' ∉ cs.takeWhile (· != '"') := by
      intro hmem
      simpa using List.mem_takeWhile_imp hmem
    dsimp only at h
    rw [drop_length_takeWhile] at h
    split at h
    · contradiction
    · next quote rest' hdrop =>
      -- what ends the run is a quote
      have hquote : quote = '"' := by
        have hhead := List.head?_dropWhile_not (· != '"') cs
        rw [hdrop] at hhead
        simpa using hhead
      obtain ⟨rfl, rfl⟩ := Prod.mk.inj (Option.some.inj h)
      rw [hquote]
      refine ⟨?_, .literal hinner⟩
      rw [hdrop, hquote] at hsplit
      simpa using hsplit.symm
  · dsimp only at h
    rw [drop_length_takeWhile] at h
    split at h
    · contradiction
    · next hempty =>
      obtain ⟨rfl, rfl⟩ := Prod.mk.inj (Option.some.inj h)
      exact ⟨List.takeWhile_append_dropWhile.symm,
        .name (by simpa using hempty) fun c => List.mem_takeWhile_imp⟩

/-! ## 3. Comparisons -/

namespace Comparison

/-- The comparison with white space around its operator. The white space is all that reading it
forgets. -/
def written (k : Comparison) (gap gap' : Text) : Text :=
  k.left ++ (gap ++ (k.operator ++ (gap' ++ k.right)))

/-- The operands are operands, and what stands between them is made of operator characters. It need
not be an operator of the language. -/
structure WellFormed (k : Comparison) : Prop where
  left : IsOperand k.left
  right : IsOperand k.right
  operator_ne : k.operator ≠ []
  operator : ∀ c ∈ k.operator, isComparisonChar c

namespace WellFormed

variable {k : Comparison} (hk : k.WellFormed)
include hk

theorem exists_operator : ∃ c cs, k.operator = c :: cs ∧ isComparisonChar c := by
  obtain ⟨c, cs, hcons⟩ := List.exists_cons_of_ne_nil hk.operator_ne
  exact ⟨c, cs, hcons, hk.operator c (by simp [hcons])⟩

theorem isTrimmed_written (gap gap' : Text) : (k.written gap gap').isTrimmed := by
  have htrimmed := isTrimmed_append hk.left.isTrimmed hk.right.isTrimmed
    (gap ++ k.operator ++ gap')
  simpa [written] using htrimmed

/-- The operator ends where the white space or the right operand starts, so that it is read as a
whole and nothing else with it. -/
theorem head?_behind {gap' : Text} (hgap' : isAllBlank gap') :
    ∀ c ∈ (gap' ++ k.right).head?, isComparisonChar c = false := by
  apply head?_blank_append (fun _ => isComparisonChar_of_isBlank) hgap'
  obtain ⟨d, ds, hright, hd⟩ := hk.right.exists_head
  intro c hc
  obtain rfl : d = c := by simpa [hright] using hc
  exact isComparisonChar_of_isOperandEnd hd

/-- **A well-formed comparison is read back**, whatever the white space in it. -/
theorem ofText?_written {gap gap' : Text} (hgap : isAllBlank gap) (hgap' : isAllBlank gap') :
    ofText? (k.written gap gap') = some k := by
  obtain ⟨c, cs, hoperator, hc⟩ := hk.exists_operator
  obtain ⟨d, ds, hright, hd⟩ := hk.right.exists_head
  -- each part ends where the next one starts, since no character can belong to both
  have hleft : readOperand? (k.written gap gap') =
      some (k.left, gap ++ (k.operator ++ (gap' ++ k.right))) := by
    apply hk.left.readOperand?_append
    apply head?_blank_append (fun _ => isOperandChar_of_isBlank) hgap
    intro e he
    obtain rfl : c = e := by simpa [hoperator] using he
    exact isOperandChar_of_isComparisonChar hc
  have htrim : trimStart (gap ++ (k.operator ++ (gap' ++ k.right))) =
      k.operator ++ (gap' ++ k.right) := by
    rw [hoperator]
    exact trimStart_append hgap (isBlank_of_isComparisonChar hc) _
  have htake : (k.operator ++ (gap' ++ k.right)).takeWhile isComparisonChar = k.operator :=
    takeWhile_append hk.operator (hk.head?_behind hgap')
  have htrim' : trimStart (gap' ++ k.right) = k.right := by
    rw [hright]
    exact trimStart_append hgap' (isBlank_of_isOperandEnd hd) _
  have hend : readOperand? k.right = some (k.right, []) := by
    have hnil : ∀ e ∈ ([] : Text).head?, isOperandChar e = false := by simp
    simpa using hk.right.readOperand?_append hnil
  have hne : k.operator.isEmpty = false := by simp [hoperator]
  simp only [ofText?, Option.bind_eq_bind, hleft, Option.bind_some, htrim, htake, List.drop_left,
    htrim', hend, hne]
  rfl

end WellFormed

/-- **A text is a comparison in one way at most**, and the way it is written shows which. Each step
of the reading is undone: what it takes off is put in front again. -/
theorem ofText?_eq_some_iff {t : Text} {k : Comparison} :
    ofText? t = some k ↔
      k.WellFormed ∧ ∃ gap gap', isAllBlank gap ∧ isAllBlank gap' ∧ t = k.written gap gap' := by
  constructor
  · intro h
    simp only [ofText?, Option.bind_eq_bind, Option.bind_eq_some_iff, Prod.exists] at h
    obtain ⟨left, rest, hleft, right, rest', hright, h⟩ := h
    split at h
    · next hends =>
      obtain rfl := Option.some.inj h
      rw [Bool.and_eq_true, List.isEmpty_iff, Bool.not_eq_true', ← Bool.not_eq_true,
        List.isEmpty_iff] at hends
      obtain ⟨hrest', hne⟩ := hends
      subst hrest'
      rw [drop_length_takeWhile] at hright
      -- what was taken off: an operand, white space, the operator, white space and an operand
      obtain ⟨hsplit, hoperand⟩ := isOperand_of_readOperand? hleft
      obtain ⟨hsplit', hoperand'⟩ := isOperand_of_readOperand? hright
      obtain ⟨gap, hgap, hrest⟩ := exists_append_trimStart rest
      obtain ⟨gap', hgap', hbehind⟩ :=
        exists_append_trimStart ((trimStart rest).dropWhile isComparisonChar)
      refine ⟨⟨hoperand, hoperand', hne, fun c => List.mem_takeWhile_imp⟩,
        gap, gap', hgap, hgap', ?_⟩
      calc t = left ++ rest := hsplit
        _ = left ++ (gap ++ trimStart rest) := by rw [← hrest]
        _ = left ++ (gap ++ ((trimStart rest).takeWhile isComparisonChar ++
              (trimStart rest).dropWhile isComparisonChar)) := by
            rw [List.takeWhile_append_dropWhile]
        _ = left ++ (gap ++ ((trimStart rest).takeWhile isComparisonChar ++ (gap' ++ right))) := by
            rw [List.append_nil] at hsplit'
            rw [← hsplit', ← hbehind]
    · contradiction
  · rintro ⟨hk, gap, gap', hgap, hgap', rfl⟩
    exact hk.ofText?_written hgap hgap'

end Comparison

/-! ## 4. Places of operators -/

/-- Every operator ends with one of the four characters, so a text that does not has none at its
end. -/
theorem trailingOperator?_eq_none {t : Text} (h : ∀ c ∈ t.getLast?, isComparisonChar c = false)
    (offset : Nat) : trailingOperator? offset t = none := by
  have hends : ∀ operator ∈ comparisonOperators, operator.getLast?.any isComparisonChar := by decide
  fun_induction trailingOperator? offset t with
  | case1 => rfl
  | case2 offset c cs hmem =>
    have hlast := hends _ (by simpa using hmem)
    obtain ⟨d, hd, hcomparison⟩ := (Option.any_eq_true _ _).mp hlast
    rw [h d hd] at hcomparison
    contradiction
  | case3 offset c cs hnot ih =>
    apply ih
    intro d hd
    apply h d
    rw [List.getLast?_cons]
    simp [Option.mem_def.mp hd]

/-- An operator lacks an operand only at an end of the text. So a text that neither starts nor ends
with a character of an operator has none. -/
theorem danglingOperator?_eq_none {t : Text} (hhead : ∀ c ∈ t.head?, isComparisonChar c = false)
    (hlast : ∀ c ∈ t.getLast?, isComparisonChar c = false) : danglingOperator? t = none := by
  have hstarts : ∀ operator ∈ comparisonOperators, operator.head?.any isComparisonChar := by decide
  have hfind : comparisonOperators.find? (fun operator => operator.isPrefixOf t) = none := by
    rw [List.find?_eq_none]
    intro operator hmem hpre
    obtain ⟨rest, rfl⟩ := List.isPrefixOf_iff_prefix.mp hpre
    obtain ⟨c, hc, hcomparison⟩ := (Option.any_eq_true _ _).mp (hstarts operator hmem)
    rw [hhead c (by simp [Option.mem_def.mp hc])] at hcomparison
    contradiction
  rw [danglingOperator?, hfind]
  exact trailingOperator?_eq_none hlast 0

/-- Words to search for: they are made of operator characters, and none of them starts another. By
the last condition it does not matter which of them is tried first. -/
structure IsSpelling (words : List Text) : Prop where
  ne_nil : ∀ word ∈ words, word ≠ []
  chars : ∀ word ∈ words, word.all isComparisonChar
  eq_of_isPrefix : ∀ word ∈ words, ∀ word' ∈ words, word <+: word' → word = word'

namespace IsSpelling

variable {words : List Text} (hwords : IsSpelling words)
include hwords

theorem isComparisonChar_of_mem {word : Text} (hword : word ∈ words) :
    ∀ c ∈ word, isComparisonChar c :=
  List.all_eq_true.mp (hwords.chars word hword)

/-- Where there is no operator character no spelling is found, and the search goes on behind. -/
theorem firstOf?_append {front : Text} (hfront : ∀ c ∈ front, isComparisonChar c = false)
    (offset : Nat) (rest : Text) :
    firstOf? words offset (front ++ rest) = firstOf? words (offset + byteSize front) rest := by
  induction front generalizing offset with
  | nil => simp
  | cons c cs ih =>
    have hfind : words.find? (fun word => word.isPrefixOf (c :: (cs ++ rest))) = none := by
      rw [List.find?_eq_none]
      intro word hword hpre
      obtain ⟨d, ds, rfl⟩ := List.exists_cons_of_ne_nil (hwords.ne_nil word hword)
      obtain ⟨more, hmore⟩ := List.isPrefixOf_iff_prefix.mp hpre
      obtain ⟨rfl, -⟩ := List.cons.inj hmore
      have hnot := hfront d List.mem_cons_self
      rw [hwords.isComparisonChar_of_mem hword d List.mem_cons_self] at hnot
      contradiction
    rw [List.cons_append, firstOf?, hfind, byteSize_cons, ← Nat.add_assoc]
    exact ih (fun d hd => hfront d (List.mem_cons_of_mem _ hd)) _

/-- **A spelling is found where it stands**, if no operator character goes before it or goes on
behind it. -/
theorem firstOf?_eq {front word rest : Text} (hfront : ∀ c ∈ front, isComparisonChar c = false)
    (hword : word ∈ words) (hrest : ∀ c ∈ rest.head?, isComparisonChar c = false) :
    firstOf? words 0 (front ++ (word ++ rest)) = some (byteSize front, byteSize word) := by
  have hfind : words.find? (fun word' => word'.isPrefixOf (word ++ rest)) = some word := by
    cases hfound : words.find? (fun word' => word'.isPrefixOf (word ++ rest)) with
    | none =>
      have hnot := List.find?_eq_none.mp hfound word hword
      simp at hnot
    | some word' =>
      have hmem := List.mem_of_find?_eq_some hfound
      have hpre : word'.isPrefixOf (word ++ rest) := by simpa using List.find?_some hfound
      have hshort := isPrefix_of_append (List.isPrefixOf_iff_prefix.mp hpre)
        (hwords.isComparisonChar_of_mem hmem) hrest
      rw [hwords.eq_of_isPrefix word' hmem word hword hshort]
  obtain ⟨c, cs, rfl⟩ := List.exists_cons_of_ne_nil (hwords.ne_nil word hword)
  rw [hwords.firstOf?_append hfront, List.cons_append, firstOf?, ← List.cons_append, hfind]
  simp

end IsSpelling

end MacroScript
