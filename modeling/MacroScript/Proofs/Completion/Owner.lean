import MacroScript.Completion.Offer
import MacroScript.Proofs.Line.Chain

/-!
# The owner of a member is the chain before it

After a chain and its point something is always offered (`offersAfter_chain`), since no scan takes
the place for a string or a comment. What is offered depends on the owner.

The owner is read from right to left, and a quote is taken back to the nearest one before it. If no
literal holds an escaped quote these two are the quotes of one literal, and the scan takes a chain
back to its first character: **completion after a chain offers the members of the chain's tag**
(`complete_after_chain`).

An escaped quote inside a literal is where the scan backwards and those that go forward part. It
takes the escaped quote for the start of the literal, and the owner is no longer the chain
(`complete_after_escaped_quote`).
-/
namespace MacroScript

/-! ## 1. Something is offered after a chain -/

/-- **Something is offered after a chain and its point.** The position is in no string and no
comment, as the chain is settled, and the line is not the start of a declaration. -/
theorem offersAfter_chain {escapes : Char → Bool} {indent t : Text}
    (hindent : Text.isAllBlank indent) (h : IsChain escapes t) :
    offersAfter (indent ++ t ++ ['.']) := by
  have hpoint : IsSettled ['.'] := isSettled_cons rfl (by simp) isSettled_nil
  have hsettled : IsSettled (indent ++ t ++ ['.']) := by
    obtain ⟨c, cs, rfl, -, hslash⟩ := h.exists_head
    refine IsSettled.append ((isSettled_of_isAllBlank hindent).append ?_ h.isSettled) (by simp)
      hpoint
    rw [List.head?_cons]
    exact fun h => hslash (Option.some.inj h)
  -- the position is in no string and in no comment, and the line declares nothing
  have hstring : Text.endsInString (indent ++ t ++ ['.']) = false := by
    rw [Text.endsInString, hsettled.quoting, Quoting.isInside]
  have hsize : Text.byteSize (codeOf (indent ++ t ++ ['.'])) =
      Text.byteSize (indent ++ t ++ ['.']) := by
    have hcode := hsettled.code [] (by simp)
    rwa [List.append_nil] at hcode
  have hstart : Text.trimStart (indent ++ t ++ ['.']) = t ++ ['.'] := by
    obtain ⟨c, cs, rfl, hblank, -⟩ := h.exists_head
    rw [List.append_assoc]
    exact Text.trimStart_append hindent hblank _
  have hcomment : ['/', '/'].isPrefixOf (t ++ ['.']) = false := by
    obtain ⟨c, cs, rfl, -, hslash⟩ := h.exists_head
    simp [List.isPrefixOf, Ne.symm hslash]
  have hdeclaration : isOpenDeclaration (t ++ ['.']) = false := by
    rw [isOpenDeclaration, show Catalogue.varKeyword = "var" from rfl,
      h.opensWithWord_var (.inl rfl) [], Bool.false_and]
  simp only [offersAfter, hstart, hcomment, hstring, hdeclaration, hsize, beq_self_eq_true,
    Bool.not_false, Bool.and_self]

/-! ## 2. One step backwards -/

/-- The characters of names and numbers are taken at any depth. -/
theorem isOwnerChar_of_isAtomChar {c : Char} (h : isAtomChar c) : isOwnerChar c := by
  rw [isAtomChar, Bool.or_eq_true] at h
  rcases h with hname | hpoint
  · rw [isOwnerChar, isLetterOrNumeral_of_isAsciiNameChar hname, Bool.true_or, Bool.true_or]
  · rw [isOwnerChar, hpoint, Bool.or_true]

/-- White space does not continue a name, and it is no point. So outside of brackets it stops the
scan. -/
theorem isOwnerChar_of_isBlank {c : Char} (h : isBlank c) : isOwnerChar c = false := by
  have hname := isNameChar_of_isBlank h
  have hpoint : (c == '.') = false := by
    rw [beq_eq_false_iff_ne]
    rintro rfl
    exact absurd h (by decide)
  rw [isNameChar] at hname
  rw [isOwnerChar, hname, hpoint]
  rfl


/-- A character that means nothing to the scan is taken: inside brackets every one is, and outside
those of an owner. -/
theorem ownerBackwards_of_isOwnerChar {depth : Nat} {c : Char} (hquote : isQuote c = false)
    (hcloser : ¬ (c = ')' ∨ c = ']')) (hopener : ¬ (c = '(' ∨ c = '['))
    (htaken : 0 < depth ∨ isOwnerChar c) (cs : Text) :
    ownerBackwards depth (c :: cs) = c :: ownerBackwards depth cs := by
  rw [ownerBackwards]
  simp [hquote, hcloser, hopener, htaken]

/-- A closing bracket leads into its group, as the scan goes backwards. -/
theorem ownerBackwards_closer (b : ChainBracket) (depth : Nat) (cs : Text) :
    ownerBackwards depth (b.closer :: cs) = b.closer :: ownerBackwards (depth + 1) cs := by
  rw [ownerBackwards]
  cases b <;> simp [ChainBracket.closer, isQuote]

theorem ownerBackwards_opener (b : ChainBracket) (depth : Nat) (cs : Text) :
    ownerBackwards (depth + 1) (b.opener :: cs) = b.opener :: ownerBackwards depth cs := by
  rw [ownerBackwards]
  cases b <;> simp [ChainBracket.opener, isQuote]

/-- A quote is taken back to the quote before it, with all that stands between them. Backslashes are
not looked at. -/
theorem ownerBackwards_literal (depth : Nat) {body : Text} (h : '"' ∉ body) (cs : Text) :
    ownerBackwards depth ('"' :: (body ++ '"' :: cs)) =
      '"' :: (body ++ '"' :: ownerBackwards depth cs) := by
  have hinner : (body ++ '"' :: cs).takeWhile (· != '"') = body := by
    rw [List.takeWhile_append_of_pos, List.takeWhile_cons_of_neg (by simp), List.append_nil]
    intro c hc
    simpa using fun heq : c = '"' => h (heq ▸ hc)
  rw [ownerBackwards, hinner]
  simp [isQuote]

/-! ## 3. Back over a chain -/

/-- If no quote is escaped there is none inside the literal. -/
theorem IsLiteralBody.not_mem_quote {body : Text} (h : IsLiteralBody (· != '"') body) :
    '"' ∉ body := by
  induction h with
  | nil => simp
  | plain hquote _ _ ih => simp [ih, Ne.symm hquote]
  | @escaped c cs hc _ ih =>
    have hne : c ≠ '"' := by simpa using hc
    simp [ih, Ne.symm hne]

/-- **Inside brackets the scan takes everything**, and comes out at the depth at which it went in.
The induction is on how the text is built, and its literals are taken as a whole. -/
theorem IsNested.ownerBackwards {t : Text} (h : IsNested (· != '"') t) (depth : Nat) (cs : Text) :
    ownerBackwards (depth + 1) (t.reverse ++ cs) =
      t.reverse ++ MacroScript.ownerBackwards (depth + 1) cs := by
  induction h generalizing depth cs with
  | nil => rfl
  | @plain c t hc _ _ ih =>
    simp only [isFreeChar, Bool.and_eq_true, Bool.not_eq_true', List.contains_eq_mem,
      decide_eq_false_iff_not, List.mem_cons, List.not_mem_nil, or_false, not_or] at hc
    obtain ⟨hquote, hnot⟩ := hc
    -- at a positive depth every character is taken, whether or not it can belong to an owner
    rw [List.reverse_cons, List.append_assoc, List.singleton_append, ih,
      ownerBackwards_of_isOwnerChar hquote (by tauto) (by tauto) (.inl (by omega)),
      List.append_assoc, List.singleton_append]
  | @literal body t hbody _ ih =>
    have hmem : '"' ∉ body.reverse := by simpa using hbody.not_mem_quote
    have hreverse : ('"' :: (body ++ '"' :: t)).reverse =
        t.reverse ++ '"' :: (body.reverse ++ ['"']) := by simp
    rw [hreverse, List.append_assoc, List.cons_append, List.append_assoc, List.singleton_append,
      ih, ownerBackwards_literal _ hmem]
    simp
  | @group b inner t _ _ ihinner ih =>
    have hreverse : (b.opener :: (inner ++ b.closer :: t)).reverse =
        t.reverse ++ b.closer :: (inner.reverse ++ [b.opener]) := by simp
    -- read backwards the closer comes first, so the inside is read one level deeper
    rw [hreverse, List.append_assoc, List.cons_append, List.append_assoc, List.singleton_append,
      ih, ownerBackwards_closer, ihinner, ownerBackwards_opener]
    simp

/-- A group is taken from its closing bracket back to its opening one. -/
theorem ownerBackwards_bracket (b : ChainBracket) {inner : Text}
    (h : IsNested (· != '"') inner) (cs : Text) :
    ownerBackwards 0 ((b.opener :: (inner ++ [b.closer])).reverse ++ cs) =
      (b.opener :: (inner ++ [b.closer])).reverse ++ ownerBackwards 0 cs := by
  have hreverse : (b.opener :: (inner ++ [b.closer])).reverse =
      b.closer :: (inner.reverse ++ [b.opener]) := by simp
  rw [hreverse, List.cons_append, List.append_assoc, List.singleton_append, ownerBackwards_closer,
    h.ownerBackwards, ownerBackwards_opener]
  simp

theorem ownerBackwards_atoms {n : Text} (h : ∀ c ∈ n, isAtomChar c) (cs : Text) :
    ownerBackwards 0 (n.reverse ++ cs) = n.reverse ++ ownerBackwards 0 cs := by
  induction n generalizing cs with
  | nil => rfl
  | cons c n ih =>
    have hatom := h c List.mem_cons_self
    have howner := isOwnerChar_of_isAtomChar hatom
    obtain ⟨hquote, -, -, hcloser, hopener⟩ := isAtomChar_facts hatom
    rw [List.reverse_cons, List.append_assoc, List.singleton_append,
      ih (fun d hd => h d (List.mem_cons_of_mem _ hd)),
      ownerBackwards_of_isOwnerChar hquote hcloser hopener (.inr howner), List.append_assoc,
      List.singleton_append]

/-- **The scan takes a chain back to its first character**, if no literal holds an escaped quote.
Link by link, from the last one on. -/
theorem IsChain.ownerBackwards {t : Text} (h : IsChain (· != '"') t) (cs : Text) :
    ownerBackwards 0 (t.reverse ++ cs) = t.reverse ++ MacroScript.ownerBackwards 0 cs := by
  induction h generalizing cs with
  | name hn _ => exact ownerBackwards_atoms (isAtomChar_of_isAsciiName hn) cs
  | number hn => exact ownerBackwards_atoms (isAtomChar_of_isAsciiNumber hn) cs
  | @literal body hbody =>
    have hmem : '"' ∉ body.reverse := by simpa using hbody.not_mem_quote
    have hliteral := ownerBackwards_literal 0 hmem cs
    simpa using hliteral
  | list hinner => exact ownerBackwards_bracket .square hinner cs
  | @member u n _ hn ih =>
    have hpoint : ∀ c ∈ '.' :: n, isAtomChar c := by
      intro c hc
      rcases List.mem_cons.mp hc with rfl | hc
      · rfl
      · exact isAtomChar_of_isAsciiName hn c hc
    rw [List.reverse_append, List.append_assoc, ownerBackwards_atoms hpoint, ih,
      List.append_assoc]
  | @bracket u b inner _ hinner ih =>
    rw [List.reverse_append, List.append_assoc, ownerBackwards_bracket b hinner, ih,
      List.append_assoc]

/-- White space stops the scan, so the indentation is not taken. -/
theorem ownerBackwards_of_isAllBlank {indent : Text} (h : indent.isAllBlank) :
    ownerBackwards 0 indent.reverse = [] := by
  cases hreverse : indent.reverse with
  | nil => rw [ownerBackwards]
  | cons c cs =>
    have hmem : c ∈ indent := List.mem_reverse.mp (by rw [hreverse]; exact List.mem_cons_self)
    have hblank : isBlank c := List.all_eq_true.mp h c hmem
    have howner := isOwnerChar_of_isBlank hblank
    have hbracket : c ≠ ')' ∧ c ≠ ']' ∧ c ≠ '(' ∧ c ≠ '[' := by
      refine ⟨?_, ?_, ?_, ?_⟩
      all_goals
        rintro rfl
        exact absurd hblank (by decide)
    rw [ownerBackwards]
    simp [isQuote_of_isBlank hblank, hbracket, howner]

/-- **The owner of a member is the chain before it**, whatever the indentation is. -/
theorem owner_chain {indent t : Text} (hindent : indent.isAllBlank) (h : IsChain (· != '"') t) :
    Text.owner (indent ++ t) = t := by
  rw [Text.owner, List.reverse_append, h.ownerBackwards, ownerBackwards_of_isAllBlank hindent,
    List.append_nil, List.reverse_reverse]
  have hstart : Text.trimStart t = t := by
    obtain ⟨c, cs, rfl, hblank, -⟩ := h.exists_head
    rw [Text.trimStart, List.dropWhile_cons_of_neg (by simp [hblank])]
  have hend : Text.trimEnd t = t := by
    obtain ⟨cs, c, rfl, hblank⟩ := h.exists_last
    exact List.rdropWhile_concat_neg _ cs c (by simp [hblank])
  rw [Text.trim, hstart, hend]

/-! ## 4. Completion after a chain -/

/-- The text before a position, cut out of its line by the column. -/
theorem before?_of_line {text : Text} {p : Position} {before rest : Text}
    (hline : text.line? p.line.toNat = some (before ++ rest))
    (hcolumn : p.character.toNat = Text.utf16Length before) : text.before? p = some before := by
  rw [Text.before?, hline, Option.map_some, Text.offsetOf, hcolumn,
    Text.takeUnits_utf16Length_append, Text.takeBytes_byteSize_append]

/-- After a chain and its point the members of the owner are offered, whether or not the owner is
the chain. -/
theorem complete_eq_memberCandidates {escapes : Char → Bool} {indent t : Text}
    (hindent : indent.isAllBlank) (h : IsChain escapes t) {text : Text} {p : Position} {rest : Text}
    (hline : text.line? p.line.toNat = some (indent ++ t ++ ['.'] ++ rest))
    (hcolumn : p.character.toNat = Text.utf16Length (indent ++ t ++ ['.']))
    (table : Symbol.Table) :
    complete text p table =
      memberCandidates ((table.namesOn p.line.toNat).infer (Text.owner (indent ++ t))) := by
  have hword : Text.dropEndWhile isNameChar (indent ++ t ++ ['.']) = indent ++ t ++ ['.'] :=
    List.rdropWhile_concat_neg _ _ '.' (by decide)
  simp only [complete, before?_of_line hline hcolumn, offersAfter_chain hindent h, if_true,
    candidatesAfter, hword, List.getLast?_concat, List.dropLast_concat]

/-- **Completion and inference agree on the owner.** After a chain and its point, on any line, the
members of the owner that is read there are offered. If no literal of the chain holds an escaped
quote this owner is the chain: the members of its tag are offered, and those of all tags if nothing
is known about it. -/
theorem complete_after_chain {indent t : Text} (hindent : indent.isAllBlank)
    (h : IsChain (fun _ => true) t) {text : Text} {p : Position} {rest : Text}
    (hline : text.line? p.line.toNat = some (indent ++ t ++ ['.'] ++ rest))
    (hcolumn : p.character.toNat = Text.utf16Length (indent ++ t ++ ['.']))
    (table : Symbol.Table) :
    complete text p table =
        memberCandidates ((table.namesOn p.line.toNat).infer (Text.owner (indent ++ t))) ∧
      (IsChain (· != '"') t →
        ((table.namesOn p.line.toNat).infer t = .any → complete text p table = allMembers) ∧
        ∀ tag, tag ≠ .any → (table.namesOn p.line.toNat).infer t = tag →
          complete text p table = (Catalogue.members tag).map (.ofMember tag)) := by
  have hcomplete := complete_eq_memberCandidates hindent h hline hcolumn table
  refine ⟨hcomplete, fun hplain => ?_⟩
  rw [owner_chain hindent hplain] at hcomplete
  refine ⟨fun hany => ?_, fun tag hknown htag => ?_⟩
  · rw [hcomplete, hany, memberCandidates, if_pos rfl]
  · rw [hcomplete, htag, memberCandidates, if_neg hknown]

/-- The call that makes a region from a string literal. Its tag does not depend on what the literal
holds. -/
def regionCall (body : Text) : Text :=
  "Region".toList ++ '(' :: ('"' :: (body ++ ['"']) ++ [')'])

theorem isChain_regionCall {escapes : Char → Bool} {body : Text}
    (hbody : IsLiteralBody escapes body) : IsChain escapes (regionCall body) :=
  .bracket .round (.name (by decide) (by decide)) (.literal hbody .nil)

/-- After such a call the members of a region are offered. -/
theorem complete_after_regionCall :
    IsChain (· != '"') (regionCall "a".toList) ∧
      (({} : Symbol.Table).namesOn 1).infer (regionCall "a".toList) = .regionValue ∧
      complete "x\n  Region(\"a\").f".toList ⟨1, 14⟩ {} =
        (Catalogue.members .regionValue).map (.ofMember .regionValue) := by
  have hbody {escapes : Char → Bool} : IsLiteralBody escapes "a".toList :=
    .plain (by decide) (by decide) .nil
  have hplain : IsChain (· != '"') (regionCall "a".toList) := isChain_regionCall hbody
  have htag : (({} : Symbol.Table).namesOn 1).infer (regionCall "a".toList) = .regionValue := by
    decide +kernel
  have hline : Text.line? "x\n  Region(\"a\").f".toList (1 : UInt32).toNat =
      some ("  ".toList ++ regionCall "a".toList ++ ['.'] ++ ['f']) := by
    decide
  have hindent : Text.isAllBlank "  ".toList := by decide
  have hagree := complete_after_chain hindent (isChain_regionCall hbody) (p := ⟨1, 14⟩) hline
    (by decide) {}
  exact ⟨hplain, htag, (hagree.2 hplain).2 .regionValue (by decide) htag⟩

/-- **An escaped quote hides the owner**: the tag of the call is known, and still the members of all
tags are offered after it. -/
theorem complete_after_escaped_quote :
    IsChain (fun _ => true) (regionCall "a\\\"b".toList) ∧
      (({} : Symbol.Table).namesOn 0).infer (regionCall "a\\\"b".toList) = .regionValue ∧
      complete "Region(\"a\\\"b\").".toList ⟨0, 15⟩ {} = allMembers ∧
      allMembers ≠ (Catalogue.members .regionValue).map (.ofMember .regionValue) := by
  have hbody : IsLiteralBody (fun _ => true) "a\\\"b".toList :=
    .plain (by decide) (by decide) (.escaped rfl (.plain (by decide) (by decide) .nil))
  have hline : Text.line? "Region(\"a\\\"b\").".toList (0 : UInt32).toNat =
      some ([] ++ regionCall "a\\\"b".toList ++ ['.'] ++ []) := by
    decide
  have howner : (({} : Symbol.Table).namesOn 0).infer
      (Text.owner ([] ++ regionCall "a\\\"b".toList)) = .any := by
    decide +kernel
  have hindent : Text.isAllBlank [] := rfl
  refine ⟨isChain_regionCall hbody, by decide +kernel, ?_, by decide +kernel⟩
  rw [complete_eq_memberCandidates hindent (isChain_regionCall hbody) hline (by decide)]
  exact congrArg memberCandidates howner

end MacroScript
