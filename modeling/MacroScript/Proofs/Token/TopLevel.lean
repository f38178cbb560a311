import MacroScript.Proofs.Token.OpenLiteral

/-!
# Cuts at top level

A text is cut at a separator by a scan of its own, which goes from character to character and keeps
the depth of brackets and the state of literals. Here it is told by the tokens of the text. **A cut
is made at the first character of a token or not at all** (`laterStarts_token`): literals are passed
over as a whole, the characters of names and operators mean nothing to the scan, and the points of a
number are known as such, since a number does not go on a word (`IsFresh`). So the cuts are the
tokens of the separator's kind before which the opening brackets do not outnumber the closing ones,
`Token.topLevel`, less the points that the scan takes for points of numbers
(`laterStarts_splitFrom`).
-/
namespace MacroScript

open Text

/-! ## 1. Marks -/

/-- The characters that mean something to a scan for literals, brackets and separators. All others
are passed over by it without a change of its state. -/
def marks : List Char :=
  ['"', '\'', '`', '(', ')', '[', ']', '{', '}', '.', ',', ';', ':']

/-- A class of characters with no mark in it. The marks are thirteen, so that a class is checked by
asking it about these. -/
theorem not_mem_marks {p : Char → Bool} (hp : marks.all fun c => !p c) {c : Char} (hc : p c) :
    c ∉ marks := by
  intro hmark
  have hnot := List.all_eq_true.mp hp c hmark
  rw [hc] at hnot
  contradiction

theorem not_mem_marks_of_isBlank {c : Char} (h : isBlank c) : c ∉ marks :=
  not_mem_marks (by decide) h

theorem not_mem_marks_of_isNameChar {c : Char} (h : isNameChar c) : c ∉ marks :=
  not_mem_marks (by decide) h

theorem not_mem_marks_of_isOperatorSign {c : Char} (h : isOperatorSign c) : c ∉ marks :=
  not_mem_marks (by decide) h

theorem not_mem_marks_of_isDigit {c : Char} (h : c.isDigit) : c ∉ marks :=
  not_mem_marks (by decide) h

theorem isQuote_of_not_mem_marks {c : Char} (h : c ∉ marks) : isQuote c = false := by
  simp only [marks, List.mem_cons, List.not_mem_nil, not_or] at h
  simp [isQuote, h]

theorem bracketStep_of_not_mem_marks {c : Char} (h : c ∉ marks) : bracketStep c = 0 := by
  simp only [marks, List.mem_cons, List.not_mem_nil, not_or] at h
  simp [bracketStep, h]

/-- The separators that are tokens of a kind of their own. -/
def separators : List (Char × Token.Kind) :=
  [(';', .semicolon), (',', .comma), (':', .colon), ('.', .dot)]

/-- The kind of a separator is that of its tokens and of no others, so a cut can be told from the
kind of a token. -/
theorem kindOf_eq_iff {sep : Char} {kind : Token.Kind} (h : (sep, kind) ∈ separators) (c : Char) :
    Token.kindOf c = kind ↔ c = sep := by
  simp only [separators, List.mem_cons, Prod.mk.injEq, List.not_mem_nil, or_false] at h
  constructor
  · intro hkind
    unfold Token.kindOf Token.punctuation at hkind
    rcases h with ⟨rfl, rfl⟩ | ⟨rfl, rfl⟩ | ⟨rfl, rfl⟩ | ⟨rfl, rfl⟩ <;>
      split_ifs at hkind <;> split at hkind <;> first | rfl | contradiction
  · rintro rfl
    rcases h with ⟨rfl, rfl⟩ | ⟨rfl, rfl⟩ | ⟨rfl, rfl⟩ | ⟨rfl, rfl⟩ <;> decide

theorem mem_marks_of_mem_separators {sep : Char} {kind : Token.Kind}
    (h : (sep, kind) ∈ separators) : sep ∈ marks := by
  simp only [separators, List.mem_cons, Prod.mk.injEq, List.not_mem_nil, or_false] at h
  rcases h with ⟨rfl, -⟩ | ⟨rfl, -⟩ | ⟨rfl, -⟩ | ⟨rfl, -⟩ <;> decide

/-! ## 2. Tokens at top level -/

namespace Token

/-- The tokens of a kind among those that follow `before`, given from right to left, if the opening
brackets before them do not outnumber the closing ones. Brackets of all kinds count alike. -/
def topLevelFrom (kind : Kind) (before : List Token) : List Token → List Token
  | [] => []
  | t :: ts =>
    let later := topLevelFrom kind (t :: before) ts
    if t.kind = kind && before.countP isOpener ≤ before.countP isCloser then t :: later else later

/-- The tokens of a kind before which the opening brackets do not outnumber the closing ones. -/
def topLevel (kind : Kind) (tokens : List Token) : List Token :=
  topLevelFrom kind [] tokens

/-- How many brackets more are opened than closed. It is negative where closing brackets come first,
and a cut is made there all the same. -/
def depthOf (tokens : List Token) : Int :=
  tokens.countP isOpener - tokens.countP isCloser

/-- One token at a time, with the comparison of brackets told as a depth. -/
theorem topLevelFrom_cons (kind : Kind) (before : List Token) (t : Token) (ts : List Token) :
    topLevelFrom kind before (t :: ts) =
      (if t.kind = kind && depthOf before ≤ 0 then [t] else []) ++
        topLevelFrom kind (t :: before) ts := by
  have hcount : depthOf before ≤ 0 ↔ before.countP isOpener ≤ before.countP isCloser := by
    rw [depthOf]
    omega
  simp only [topLevelFrom, hcount]
  split <;> rfl

/-- What a token of the kind adds to the depth. -/
def Kind.step : Kind → Int
  | .opener _ => 1
  | .closer _ => -1
  | _ => 0

theorem depthOf_cons (t : Token) (before : List Token) :
    depthOf (t :: before) = depthOf before + t.kind.step := by
  rw [depthOf, depthOf, List.countP_cons, List.countP_cons]
  unfold isOpener isCloser Kind.step
  cases t.kind <;> simp <;> omega

/-- The first character of a token says what it adds, so that the scan by characters and the count
by tokens go together. -/
theorem step_kindOf (c : Char) : (kindOf c).step = bracketStep c := by
  by_cases hmark : c ∈ marks
  · simp only [marks, List.mem_cons, List.not_mem_nil, or_false] at hmark
    rcases hmark with
      rfl | rfl | rfl | rfl | rfl | rfl | rfl | rfl | rfl | rfl | rfl | rfl | rfl <;> rfl
  · rw [bracketStep_of_not_mem_marks hmark]
    simp only [marks, List.mem_cons, List.not_mem_nil, or_false, not_or] at hmark
    have hpunctuation : punctuation c = .other := by
      unfold punctuation
      split <;> simp_all
    unfold kindOf
    rw [hpunctuation]
    split_ifs <;> rfl

end Token

/-! ## 3. Where the parts start -/

/-- The byte offsets of the parts after the first, which stands at `offset`. The first part is left
out so that a character in front of it only moves the offset. -/
def laterStarts (sep : Char) (offset : Nat) (parts : List Text) : List Nat :=
  (locateParts sep offset parts).tail.map (·.1)

/-- A character that is not cut at goes to the front of the first part, and moves the start of the
others. -/
theorem laterStarts_modifyHead (sep : Char) (offset : Nat) (c : Char) {parts : List Text}
    (hne : parts ≠ []) :
    laterStarts sep offset (parts.modifyHead (List.cons c)) =
      laterStarts sep (offset + c.utf8Size) parts := by
  obtain ⟨part, parts, rfl⟩ := List.exists_cons_of_ne_nil hne
  simp [laterStarts, locateParts, Nat.add_assoc]

/-- A cut ends the first part, and the next one starts right behind the separator. -/
theorem laterStarts_cut (sep : Char) (offset : Nat) {parts : List Text} (hne : parts ≠ []) :
    laterStarts sep offset ([] :: parts) =
      (offset + sep.utf8Size) :: laterStarts sep (offset + sep.utf8Size) parts := by
  obtain ⟨part, parts, rfl⟩ := List.exists_cons_of_ne_nil hne
  simp [laterStarts, locateParts]

section Step

variable (sep : Char) (depth : Int) (before : Text) (offset : Nat)

/-- One character outside of literals: it is cut at or not, and the scan goes on with its depth and
its state. -/
theorem laterStarts_outside (c : Char) (cs : Text) :
    laterStarts sep offset (splitFrom sep depth .outside before (c :: cs)) =
      (if isCut sep depth before c cs then [offset + c.utf8Size] else []) ++
        laterStarts sep (offset + c.utf8Size)
          (splitFrom sep (depth + bracketStep c) (Quoting.outside.next isQuote c) (c :: before)
            cs) := by
  have hne := splitFrom_ne_nil sep (depth + bracketStep c) (Quoting.outside.next isQuote c)
    (c :: before) cs
  rw [splitFrom]
  split
  · next hcut =>
    rw [laterStarts_cut _ _ hne, eq_of_isCut hcut]
    rfl
  · rw [laterStarts_modifyHead _ _ _ hne]
    rfl

/-- One character inside a literal, which is never cut at and changes no depth. -/
theorem laterStarts_inside (q : Char) (e : Bool) (c : Char) (cs : Text) :
    laterStarts sep offset (splitFrom sep depth (.inside q e) before (c :: cs)) =
      laterStarts sep (offset + c.utf8Size)
        (splitFrom sep depth ((Quoting.inside q e).next isQuote c) (c :: before) cs) := by
  rw [splitFrom, laterStarts_modifyHead _ _ _ (splitFrom_ne_nil _ _ _ _ _)]

end Step

/-- A literal is passed over as a whole, up to the quote that ends it for the reader of tokens. -/
theorem laterStarts_stringTail (sep : Char) (depth : Int) (before : Text) (offset : Nat)
    (quote : Char) (escaped : Bool) (cs : Text) :
    laterStarts sep offset (splitFrom sep depth (.inside quote escaped) before cs) =
      laterStarts sep (offset + byteSize (Token.stringTail quote escaped cs))
        (splitFrom sep depth .outside ((Token.stringTail quote escaped cs).reverse ++ before)
          (cs.drop (Token.stringTail quote escaped cs).length)) := by
  fun_induction Token.stringTail quote escaped cs generalizing before offset with
  | case1 escaped => rfl
  | case2 c cs ih =>
    rw [laterStarts_inside, Quoting.next, ih]
    simp [Nat.add_assoc]
  | case3 cs ih =>
    rw [laterStarts_inside, Quoting.next, if_pos rfl, ih]
    simp [Nat.add_assoc]
  | case4 cs hbackslash =>
    rw [laterStarts_inside, Quoting.next, if_neg hbackslash, if_pos rfl]
    simp
  | case5 c cs hbackslash hquote ih =>
    rw [laterStarts_inside, Quoting.next, if_neg hbackslash, if_neg hquote, ih]
    simp [Nat.add_assoc]

section Passed

variable {sep : Char} (hsep : sep ∈ marks)

include hsep

/-- A character that is no mark is passed over: it is no separator, no bracket and no quote. -/
theorem laterStarts_of_not_mem_marks {c : Char} (hc : c ∉ marks) (depth : Int) (before : Text)
    (offset : Nat) (cs : Text) :
    laterStarts sep offset (splitFrom sep depth .outside before (c :: cs)) =
      laterStarts sep (offset + c.utf8Size) (splitFrom sep depth .outside (c :: before) cs) := by
  have hcut : isCut sep depth before c cs = false := by
    rw [← Bool.not_eq_true]
    intro hcut
    exact hc (eq_of_isCut hcut ▸ hsep)
  rw [laterStarts_outside, hcut, bracketStep_of_not_mem_marks hc, Int.add_zero,
    Quoting.next_of_not_opens (isQuote_of_not_mem_marks hc)]
  rfl

/-- So is a run of characters of a class without marks, which is how names and operators go on. -/
theorem laterStarts_takeWhile {p : Char → Bool} (hp : ∀ c, p c → c ∉ marks) (depth : Int)
    (before : Text) (offset : Nat) (cs : Text) :
    laterStarts sep offset (splitFrom sep depth .outside before cs) =
      laterStarts sep (offset + byteSize (cs.takeWhile p))
        (splitFrom sep depth .outside ((cs.takeWhile p).reverse ++ before)
          (cs.drop (cs.takeWhile p).length)) := by
  induction cs generalizing before offset with
  | nil => rfl
  | cons c cs ih =>
    by_cases hc : p c
    · rw [laterStarts_of_not_mem_marks hsep (hp c hc), List.takeWhile_cons_of_pos hc, ih]
      simp [Nat.add_assoc]
    · rw [List.takeWhile_cons_of_neg hc]
      rfl

/-- A number is passed over, if the word before it is all digits: then its points are known for
points of a number. Right behind a point there is a digit, so no point follows another. -/
theorem laterStarts_numberTail (depth : Int) {before : Text} (offset : Nat) {cs : Text}
    (hword : (before.takeWhile isAsciiNameChar).all Char.isDigit)
    (hdigit : before.head?.any Char.isDigit ∨ cs.head?.any Char.isDigit) :
    laterStarts sep offset (splitFrom sep depth .outside before cs) =
      laterStarts sep (offset + byteSize (Token.numberTail cs))
        (splitFrom sep depth .outside ((Token.numberTail cs).reverse ++ before)
          (cs.drop (Token.numberTail cs).length)) := by
  fun_induction Token.numberTail cs generalizing before offset with
  | case1 => rfl
  | case2 c cs hc ih =>
    have hcases : c.isDigit ∨ c = '.' ∧ cs.head?.any Char.isDigit := by
      rw [Bool.or_eq_true, Bool.and_eq_true, decide_eq_true_eq] at hc
      exact hc
    obtain ⟨hstep, hword', hdigit'⟩ :
        laterStarts sep offset (splitFrom sep depth .outside before (c :: cs)) =
          laterStarts sep (offset + c.utf8Size) (splitFrom sep depth .outside (c :: before) cs) ∧
        ((c :: before).takeWhile isAsciiNameChar).all Char.isDigit ∧
        ((c :: before).head?.any Char.isDigit ∨ cs.head?.any Char.isDigit) := by
      rcases hcases with hcdigit | ⟨rfl, hnext⟩
      · refine ⟨laterStarts_of_not_mem_marks hsep (not_mem_marks_of_isDigit hcdigit) _ _ _ _, ?_,
          .inl (by simpa using hcdigit)⟩
        rw [List.takeWhile_cons_of_pos (isAsciiNameChar_of_isDigit hcdigit), List.all_cons, hcdigit]
        exact hword
      · -- a point is no digit, so the digit that is there stands before it
        have hbefore : before.head?.any Char.isDigit := hdigit.resolve_right Bool.false_ne_true
        have hpoint : isPointOfNumber before cs := by
          rw [isPointOfNumber, hbefore, hnext]
          exact hword
        have hcut : isCut sep depth before '.' cs = false := by
          by_cases hsepPoint : sep = '.'
          · simp [isCut, hsepPoint, hpoint]
          · simp [isCut, Ne.symm hsepPoint]
        have hflat : bracketStep '.' = 0 := rfl
        refine ⟨?_, rfl, .inr hnext⟩
        rw [laterStarts_outside, hcut, hflat, Int.add_zero]
        rfl
    rw [hstep, ih _ hword' hdigit']
    simp [Nat.add_assoc]
  | case3 => rfl

end Passed

/-! ## 4. Tokens are cut off as a whole -/

/-- A digit at the start of a text starts a number, as it does not go on the word that stands before
it, given from right to left. Without this the points of the number could be taken for points of a
name. -/
def IsFresh (before t : Text) : Prop :=
  ∀ c ∈ t.head?, c.isDigit → ∀ d ∈ before.head?, isAsciiNameChar d = false

/-- Behind white space everything is fresh. -/
theorem isFresh_blank {c : Char} (h : isBlank c) (before t : Text) : IsFresh (c :: before) t := by
  intro _ _ _ d hd
  obtain rfl : c = d := by simpa using hd
  rw [← Bool.not_eq_true]
  intro hname
  rw [isBlank_of_isAsciiNameChar hname] at h
  contradiction

namespace Token

/-- No digit follows a number, as it would belong to it. -/
theorem head?_drop_numberTail {cs : Text} {c : Char}
    (h : c ∈ (cs.drop (numberTail cs).length).head?) : c.isDigit = false := by
  fun_induction numberTail cs with
  | case1 => simp at h
  | case2 d ds hd ih => exact ih h
  | case3 d ds hd =>
    obtain rfl : d = c := by simpa using h
    rw [Bool.or_eq_true, not_or] at hd
    exact Bool.not_eq_true _ ▸ hd.1

/-- Behind a run of characters of a class comes no further one of them. -/
theorem head?_drop_takeWhile {p : Char → Bool} {cs : Text} {c : Char}
    (h : c ∈ (cs.drop (cs.takeWhile p).length).head?) : p c = false := by
  rw [drop_length_takeWhile] at h
  have hnot := List.head?_dropWhile_not p cs
  rw [Option.mem_def.mp h] at hnot
  simpa using hnot

theorem not_isQuote_of_kindOf {c : Char} {kind : Kind} (h : kindOf c = kind)
    (hkind : kind ≠ .string) : isQuote c = false := by
  rw [← Bool.not_eq_true]
  intro hquote
  exact hkind (h ▸ kindOf_eq_string.mpr hquote)

theorem isOperatorSign_of_kindOf {c : Char} (h : kindOf c = .operator) : isOperatorSign c := by
  unfold kindOf at h
  split_ifs at h with hquote hdigit hname hsign
  · exact hsign
  · exact absurd h (punctuation_ne c).2.2

/-- Only a name or a number ends with a character of ASCII names, other than at the end of the text,
where an open literal may. -/
theorem kindOf_of_getLast? {c : Char} {cs : Text} {e : Char}
    (hlast : (c :: tail (kindOf c) c cs).getLast? = some e) (hname : isAsciiNameChar e)
    (hmore : cs.drop (tail (kindOf c) c cs).length ≠ []) :
    kindOf c = .name ∨ kindOf c = .number := by
  cases hkind : kindOf c with
  | name => exact .inl rfl
  | number => exact .inr rfl
  | string =>
    rw [hkind, tail] at hmore hlast
    rcases stringTail_cases c false cs with hall | ⟨middle, hmiddle⟩
    · rw [hall, List.drop_length] at hmore
      contradiction
    · -- the literal ends with its quote
      rw [hmiddle, ← List.cons_append, List.getLast?_concat] at hlast
      obtain rfl : c = e := by simpa using hlast
      have hquote := kindOf_eq_string.mp hkind
      rw [isQuote_of_isNameChar (isNameChar_of_isAsciiNameChar hname)] at hquote
      contradiction
  | operator =>
    rw [hkind] at hlast
    have hsign : isOperatorSign e := by
      rcases List.mem_cons.mp (List.mem_of_getLast? hlast) with rfl | hmem
      · exact isOperatorSign_of_kindOf hkind
      · exact List.mem_takeWhile_imp hmem
    rw [isOperatorSign_of_isAsciiNameChar hname] at hsign
    contradiction
  | opener | closer | dot | comma | semicolon | colon | other =>
    rw [hkind] at hlast
    obtain rfl : c = e := by simpa [tail] using hlast
    rcases kindOf_of_isAsciiNameChar hname with h | h <;> rw [hkind] at h <;> contradiction

/-- **A digit right behind a token starts a number**: a name or a number would have gone on with it,
and no other token ends with a character of a word. -/
theorem isFresh_token (c : Char) (cs before : Text) :
    IsFresh ((c :: tail (kindOf c) c cs).reverse ++ before)
      (cs.drop (tail (kindOf c) c cs).length) := by
  intro d hd hdigit e he
  have hlast : (c :: tail (kindOf c) c cs).getLast? = some e := by
    rw [List.head?_append, List.head?_reverse] at he
    cases h : (c :: tail (kindOf c) c cs).getLast? with
    | none => simp at h
    | some e' => simpa [h] using he
  have hmore : cs.drop (tail (kindOf c) c cs).length ≠ [] := by
    intro hnil
    simp [hnil] at hd
  rw [← Bool.not_eq_true]
  intro hname
  -- a name or a number would have gone on with the digit
  rcases kindOf_of_getLast? hlast hname hmore with hkind | hkind <;> rw [hkind] at hd
  · have hdname := isNameChar_of_isAsciiNameChar (isAsciiNameChar_of_isDigit hdigit)
    rw [head?_drop_takeWhile hd] at hdname
    contradiction
  · rw [head?_drop_numberTail hd] at hdigit
    contradiction

/-- The rest of a token is passed over, whatever its kind. -/
theorem laterStarts_tail {sep : Char} (hsep : sep ∈ marks) (depth : Int) {before : Text}
    (offset : Nat) {c : Char} {cs : Text} (hfresh : IsFresh before (c :: cs)) :
    laterStarts sep offset
        (splitFrom sep depth (Quoting.outside.next isQuote c) (c :: before) cs) =
      laterStarts sep (offset + byteSize (tail (kindOf c) c cs))
        (splitFrom sep depth .outside ((tail (kindOf c) c cs).reverse ++ c :: before)
          (cs.drop (tail (kindOf c) c cs).length)) := by
  cases hkind : kindOf c with
  | string =>
    rw [Quoting.next_of_opens (kindOf_eq_string.mp hkind)]
    exact laterStarts_stringTail sep depth (c :: before) offset c false cs
  | number =>
    have hdigit := kindOf_eq_number.mp hkind
    -- the digit starts a token, so the word in front of it has nothing but this digit
    have hword : ((c :: before).takeWhile isAsciiNameChar).all Char.isDigit := by
      rw [List.takeWhile_cons_of_pos (isAsciiNameChar_of_isDigit hdigit), List.all_cons, hdigit]
      cases before with
      | nil => rfl
      | cons d before =>
        rw [List.takeWhile_cons_of_neg (by simp [hfresh c rfl hdigit d rfl])]
        rfl
    rw [Quoting.next_of_not_opens (isQuote_of_isDigit hdigit)]
    exact laterStarts_numberTail hsep depth offset hword (.inl hdigit)
  | name =>
    rw [Quoting.next_of_not_opens (not_isQuote_of_kindOf hkind (by simp))]
    exact laterStarts_takeWhile hsep (fun _ => not_mem_marks_of_isNameChar) depth _ offset cs
  | operator =>
    rw [Quoting.next_of_not_opens (not_isQuote_of_kindOf hkind (by simp))]
    exact laterStarts_takeWhile hsep (fun _ => not_mem_marks_of_isOperatorSign) depth _ offset cs
  | opener | closer | dot | comma | semicolon | colon | other =>
    rw [Quoting.next_of_not_opens (not_isQuote_of_kindOf hkind (by simp))]
    rfl

/-- **A cut is made at the first character of a token or not at all.** What follows in the token is
passed over, whatever its kind. -/
theorem laterStarts_token {sep : Char} (hsep : sep ∈ marks) (depth : Int) {before : Text}
    (offset : Nat) {c : Char} {cs : Text} (hfresh : IsFresh before (c :: cs)) :
    laterStarts sep offset (splitFrom sep depth .outside before (c :: cs)) =
      (if isCut sep depth before c cs then [offset + c.utf8Size] else []) ++
        laterStarts sep (offset + byteSize (c :: tail (kindOf c) c cs))
          (splitFrom sep (depth + bracketStep c) .outside
            ((c :: tail (kindOf c) c cs).reverse ++ before)
            (cs.drop (tail (kindOf c) c cs).length)) := by
  rw [laterStarts_outside, laterStarts_tail hsep _ _ hfresh, byteSize_cons, Nat.add_assoc,
    List.reverse_cons, List.append_assoc, List.singleton_append]

/-! ## 5. The cuts of a text -/

/-- The point of a token is taken for one of a number. The scan looks at the text on both sides of
it, and not at the tokens. -/
def isTakenForNumber (t : Text) (token : Token) : Bool :=
  isPointOfNumber (takeBytes token.offset t).reverse (dropBytes token.stop t)

theorem isTakenForNumber_eq (front : Text) (c : Char) (cs : Text) (kind : Kind) :
    isTakenForNumber (front ++ c :: cs) ⟨kind, [c], byteSize front⟩ =
      isPointOfNumber front.reverse cs := by
  have hback : dropBytes (byteSize front + byteSize [c]) (front ++ c :: cs) = cs := by
    have hdrop := dropBytes_byteSize_append (front ++ [c]) cs
    rwa [byteSize_append, List.append_assoc, List.singleton_append] at hdrop
  rw [isTakenForNumber, stop, takeBytes_byteSize_append, hback]

section Separator

variable {sep : Char} {kind : Kind} (hsep : (sep, kind) ∈ separators)

include hsep

/-- A separator is a token by itself. -/
theorem tail_separator (c : Char) (cs : Text) : tail kind c cs = [] := by
  simp only [separators, List.mem_cons, Prod.mk.injEq, List.not_mem_nil, or_false] at hsep
  rcases hsep with ⟨-, rfl⟩ | ⟨-, rfl⟩ | ⟨-, rfl⟩ | ⟨-, rfl⟩ <;> rfl

/-- Whether a character is cut at, by the kind of its token. -/
theorem isCut_eq (depth : Int) (before : Text) (c : Char) (cs : Text) :
    isCut sep depth before c cs =
      (kindOf c = kind && depth ≤ 0 && !(sep = '.' && isPointOfNumber before cs)) := by
  have hplain : isQuote sep = false ∧ bracketStep sep = 0 := by
    simp only [separators, List.mem_cons, Prod.mk.injEq, List.not_mem_nil, or_false] at hsep
    rcases hsep with ⟨rfl, -⟩ | ⟨rfl, -⟩ | ⟨rfl, -⟩ | ⟨rfl, -⟩ <;> decide
  by_cases hc : c = sep
  · simp [isCut, hc, hplain, (kindOf_eq_iff hsep sep).mpr rfl]
  · simp [isCut, hc, mt (kindOf_eq_iff hsep c).mp hc]

/-- **The cuts of a text are tokens at top level**, from wherever the cutting starts. The tokens
before that place give the depth. -/
theorem laterStarts_splitFrom (front t : Text) {offset : Nat} (hoffset : byteSize front = offset)
    (before : List Token) (hfresh : IsFresh front.reverse t) :
    laterStarts sep offset (splitFrom sep (depthOf before) .outside front.reverse t) =
      ((topLevelFrom kind before (scanFrom offset t)).filter fun token =>
        !(sep = '.' && isTakenForNumber (front ++ t) token)).map stop := by
  have hmark := mem_marks_of_mem_separators hsep
  -- by the tokens of the text: what was read goes over to `front` and `before`
  fun_induction scanFrom offset t generalizing front before with
  | case1 offset => rfl
  | case2 offset c cs hblank ih =>
    have hnext := ih (front ++ [c]) (by simp [hoffset]) before
      (by simpa using isFresh_blank hblank front.reverse cs)
    rw [laterStarts_of_not_mem_marks hmark (not_mem_marks_of_isBlank hblank)]
    simpa using hnext
  | case3 offset c cs hblank kind' rest ih =>
    have hsplit : rest ++ cs.drop rest.length = cs := tail_append_drop kind' c cs
    have hnext := ih (front ++ c :: rest) (by simp [hoffset, Nat.add_assoc])
      (⟨kind', c :: rest, offset⟩ :: before) (by simpa using isFresh_token c cs front.reverse)
    have hwhole : front ++ c :: rest ++ cs.drop rest.length = front ++ c :: cs := by
      rw [List.append_assoc, List.cons_append, hsplit]
    have hdepth : depthOf (⟨kind', c :: rest, offset⟩ :: before) =
        depthOf before + bracketStep c := by
      rw [depthOf_cons, ← step_kindOf]
    rw [hwhole, hdepth, List.reverse_append] at hnext
    rw [laterStarts_token hmark _ _ hfresh, byteSize_cons, ← Nat.add_assoc, hnext,
      topLevelFrom_cons, List.filter_append, List.map_append, isCut_eq hsep]
    congr 1
    by_cases hkind : kindOf c = kind
    · -- the token is the separator alone
      have hrest : rest = [] := by
        rw [← tail_separator hsep c cs, ← hkind]
      have htaken := isTakenForNumber_eq front c cs kind
      rw [hoffset] at htaken
      simp only [kind', hkind, hrest, decide_true, Bool.true_and]
      by_cases hdepth : depthOf before ≤ 0
      · simp only [hdepth, decide_true, Bool.true_and, if_true, List.filter_cons, List.filter_nil,
          htaken]
        split <;> rfl
      · simp [hdepth]
    · simp [hkind, kind']

/-- **Where the parts of a text start**: at its start, and behind each cut. A part is known by its
offset, and the first one has offset zero. -/
theorem starts_topLevelParts (t : Text) :
    (topLevelParts sep t).map (·.1) =
      0 :: ((topLevel kind (scan t)).filter fun token =>
        !(sep = '.' && isTakenForNumber t token)).map stop := by
  have hlater := laterStarts_splitFrom hsep [] t rfl [] (by simp [IsFresh])
  obtain ⟨part, parts, hparts⟩ := List.exists_cons_of_ne_nil (splitFrom_ne_nil sep 0 .outside [] t)
  have hdepth : depthOf [] = 0 := rfl
  rw [hdepth, byteSize_nil, List.reverse_nil, hparts, List.nil_append] at hlater
  rw [topLevelParts, hparts, topLevel, scan, ← hlater]
  rfl

end Separator

/-- **The scans for quotes and for brackets agree with the tokens.** Behind a text that does not end
inside a literal a space starts the tokens anew; otherwise the literal is the last token, and the
space is part of it. A text is cut at a semicolon, comma or colon exactly where such a token has no
more opening than closing brackets before it, and the parts are what stands between the cuts. -/
theorem scans_agree_with_tokens (t : Text) :
    (t.endsInString = false → ∀ u,
      scan (t ++ ' ' :: u) = scan t ++ (scan u).map (moved (byteSize t + 1))) ∧
    (t.endsInString = true →
      (∃ token, (scan t).getLast? = some token ∧ token.kind = .string ∧
        token.stop = byteSize t) ∧
      (scan (t ++ [' ', 'x'])).length ≤ (scan t).length) ∧
    ∀ sep kind, (sep, kind) ∈ [(';', Kind.semicolon), (',', .comma), (':', .colon)] →
      (topLevelParts sep t).map (·.1) = 0 :: (topLevel kind (scan t)).map stop ∧
      (∀ part ∈ topLevelParts sep t,
        slice? part.1 (part.1 + byteSize part.2) t = some part.2) ∧
      List.intercalate [sep] ((topLevelParts sep t).map (·.2)) = t := by
  refine ⟨fun hclosed u => ?_, fun hopen => ⟨?_, ?_⟩,
    fun sep kind hsep => ⟨?_, fun part hpart => ?_, ?_⟩⟩
  · have hscan := scanFrom_append_space hclosed 0 u
    rwa [Nat.zero_add, ← Nat.add_zero (byteSize t + 1), scanFrom_add] at hscan
  · have hlast := exists_last_of_isInside hopen 0
    rwa [Nat.zero_add] at hlast
  · exact Nat.le_of_eq (length_scanFrom_of_isInside hopen 0)
  · -- no separator of the three is a point
    have hpoint : sep ≠ '.' := by
      rintro rfl
      simp at hsep
    have hsep' : (sep, kind) ∈ separators := by
      simp only [List.mem_cons, List.not_mem_nil, or_false] at hsep
      simp only [separators, List.mem_cons]
      tauto
    have hstarts := starts_topLevelParts hsep' t
    simpa [hpoint] using hstarts
  · exact (standsAt_of_mem_topLevelParts hpart).1.slice?_eq
  · rw [topLevelParts, map_snd_locateParts, intercalate_splitFrom]

/-- Quotes of two kinds, an escaped quote, and a closing bracket too many. -/
def mixedQuotes : Text :=
  "a\"\\\";\");b'[;,\\".toList

/-- Of the three semicolons only the second is cut at, behind a closing bracket that was never
opened. The others stand in literals, and the last literal is open and ends with a backslash. -/
theorem scans_agree_on_mixedQuotes :
    mixedQuotes.endsInString = true ∧
    (∃ token, (scan mixedQuotes).getLast? = some token ∧ token.kind = .string ∧
      token.stop = byteSize mixedQuotes) ∧
    (topLevelParts ';' mixedQuotes).map (·.1) =
      0 :: (topLevel .semicolon (scan mixedQuotes)).map stop ∧
    (topLevel .semicolon (scan mixedQuotes)).map stop = [8] := by
  have hopen : mixedQuotes.endsInString = true := by decide +kernel
  obtain ⟨-, hlast, hcuts⟩ := scans_agree_with_tokens mixedQuotes
  exact ⟨hopen, (hlast hopen).1, (hcuts ';' .semicolon (by simp)).1, by decide +kernel⟩

end Token

end MacroScript
