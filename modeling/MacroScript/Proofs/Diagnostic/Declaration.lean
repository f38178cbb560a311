import MacroScript.Proofs.Diagnostic.Placement
import MacroScript.Proofs.Token.Ascii

/-!
# Where the findings about declarations are placed

A `var` statement is cut at its assignment and at its first semicolon, both of which are boundaries,
and its name and value are the trimmed parts in between (`VarStatement.Placed`). The one finding
whose end need not stand next to a character other than a space is that about a bad character in a
name: if it is a space, **it follows a letter, a digit or an underscore, so it was not blanked**.
-/
namespace MacroScript

open Text

/-! ## 1. Names -/

/-- A name of the language: it starts with an ASCII letter, or with an underscore if that is
allowed, and goes on with ASCII letters, digits and underscores. -/
def Text.isNameOf (underscoreStart : Bool) : Text → Bool
  | [] => false
  | c :: cs => (c.isAlpha || (underscoreStart && c == '_')) && cs.all isAsciiNameChar

theorem isAsciiNameChar_of_isNameOf {underscoreStart : Bool} {name : Text}
    (h : name.isNameOf underscoreStart) : ∀ c ∈ name, isAsciiNameChar c := by
  cases name with
  | nil => simp
  | cons d ds =>
    simp only [Text.isNameOf, Bool.and_eq_true, Bool.or_eq_true, beq_iff_eq, List.all_eq_true] at h
    intro c hc
    rcases List.mem_cons.mp hc with rfl | hc
    · rcases h.1 with halpha | ⟨-, rfl⟩
      · exact isAsciiNameChar_of_isAlpha halpha
      · rfl
    · exact h.2 c hc

/-- The first character that keeps a text from being a name: what stands before it is a name or
nothing, and with the character it is none. This says what the search is for without saying how it
goes. -/
structure FirstOffending (underscoreStart : Bool) (name front : Text) (x : Char) : Prop where
  isPrefix : front ++ [x] <+: name
  before : front = [] ∨ front.isNameOf underscoreStart
  offends : (front ++ [x]).isNameOf underscoreStart = false

/-- **What is found in a name is its first offending character**: the first one, if no name starts
so, and else the one that ends the run of good characters. -/
theorem firstOffending_of_badNameChar? {underscoreStart : Bool} {name : Text} {n : Nat} {c : Char}
    (h : badNameChar? underscoreStart name = some (n, c)) :
    ∃ front, FirstOffending underscoreStart name front c ∧ byteSize front = n := by
  unfold badNameChar? at h
  split at h
  · simp at h
  · next first cs =>
    split at h
    · next hfirst =>
      obtain ⟨rfl, rfl⟩ : 0 = n ∧ first = c := by simpa using h
      rw [Bool.not_eq_true'] at hfirst
      refine ⟨[], ⟨⟨cs, rfl⟩, .inl rfl, ?_⟩, rfl⟩
      rw [List.nil_append, Text.isNameOf, hfirst]
      rfl
    · next hfirst =>
      dsimp only at h
      rw [drop_length_takeWhile] at h
      split at h
      · simp at h
      · next bad back hdrop =>
        obtain ⟨rfl, rfl⟩ := Prod.mk.inj (Option.some.inj h)
        -- the character stands right after the longest run of characters that are allowed
        have hgood : (cs.takeWhile isAsciiNameChar).all isAsciiNameChar :=
          List.all_eq_true.mpr fun x => List.mem_takeWhile_imp
        have hbad : isAsciiNameChar bad = false := by
          have hhead := List.head?_dropWhile_not isAsciiNameChar cs
          rw [show cs.dropWhile isAsciiNameChar = bad :: back from hdrop] at hhead
          simpa using hhead
        have hsplit : cs.takeWhile isAsciiNameChar ++ bad :: back = cs := by
          rw [← show cs.dropWhile isAsciiNameChar = bad :: back from hdrop]
          exact List.takeWhile_append_dropWhile
        rw [Bool.not_eq_true', Bool.not_eq_false] at hfirst
        refine ⟨first :: cs.takeWhile isAsciiNameChar, ⟨⟨back, ?_⟩, .inr ?_, ?_⟩, rfl⟩
        · rw [List.append_assoc, List.singleton_append, List.cons_append, hsplit]
        · rw [Text.isNameOf, hfirst, hgood]
          rfl
        · rw [List.cons_append, Text.isNameOf, List.all_append, List.all_cons, hbad]
          simp

/-- Something is found in a text exactly if it is not empty and no name. Nothing is found where
there is nothing. -/
theorem isSome_badNameChar? (underscoreStart : Bool) (name : Text) :
    (badNameChar? underscoreStart name).isSome ↔
      name ≠ [] ∧ name.isNameOf underscoreStart = false := by
  cases name with
  | nil => simp [badNameChar?]
  | cons c cs =>
    cases hfirst : c.isAlpha || (underscoreStart && c == '_') with
    | false => simp [badNameChar?, Text.isNameOf, hfirst]
    | true =>
      have hall : cs.dropWhile isAsciiNameChar = [] ↔ cs.all isAsciiNameChar := by
        rw [List.dropWhile_eq_nil_iff, List.all_eq_true]
      simp only [badNameChar?, hfirst, drop_length_takeWhile, Text.isNameOf, Bool.true_and]
      cases hdrop : cs.dropWhile isAsciiNameChar with
      | nil => simp [hall.mp hdrop]
      | cons bad back =>
        have hnot : cs.all isAsciiNameChar = false := by
          rw [← Bool.not_eq_true, ← hall, hdrop]
          simp
        simp [hnot]

/-- A text is empty or a name and nothing is found in it, or else its first offending character is.
-/
theorem badNameChar?_cases (underscoreStart : Bool) (name : Text) :
    badNameChar? underscoreStart name = none ∧ (name = [] ∨ name.isNameOf underscoreStart) ∨
      ∃ front x, badNameChar? underscoreStart name = some (byteSize front, x) ∧
        FirstOffending underscoreStart name front x ∧ name ≠ [] ∧
        name.isNameOf underscoreStart = false := by
  have hsome := isSome_badNameChar? underscoreStart name
  cases hfound : badNameChar? underscoreStart name with
  | none =>
    rw [hfound] at hsome
    refine .inl ⟨rfl, ?_⟩
    by_contra hnot
    rw [not_or, Bool.not_eq_true] at hnot
    simpa using hsome.mpr hnot
  | some found =>
    obtain ⟨n, x⟩ := found
    rw [hfound] at hsome
    obtain ⟨front, hoffends, rfl⟩ := firstOffending_of_badNameChar? hfound
    exact .inr ⟨front, x, rfl, hoffends, hsome.mp rfl⟩

/-- What keeps a name from being one comes first in it, or right after a letter, a digit or an
underscore. This is what puts its ends in sight, even if it is a space. -/
theorem exists_of_badNameChar? {underscoreStart : Bool} {name : Text} {n : Nat} {c : Char}
    (h : badNameChar? underscoreStart name = some (n, c)) :
    ∃ front back, name = front ++ c :: back ∧ byteSize front = n ∧
      (front = [] ∨ ∃ init x, front = init ++ [x] ∧ x ≠ ' ' ∧ x ≠ '"') := by
  obtain ⟨front, hoffends, hsize⟩ := firstOffending_of_badNameChar? h
  obtain ⟨back, hback⟩ := hoffends.isPrefix
  refine ⟨front, back, by simpa using hback.symm, hsize, ?_⟩
  rcases hoffends.before with hnil | hname
  · exact .inl hnil
  · rcases List.eq_nil_or_concat front with hnil | ⟨init, x, rfl⟩
    · exact .inl hnil
    · have hx := isAsciiNameChar_of_isNameOf hname x (by simp)
      refine .inr ⟨init, x, by simp, ?_, ?_⟩ <;> rintro rfl <;> exact absurd hx (by decide)

/-- A finding about such a character is placed. -/
theorem placed_badNameChar {code name : Text} {n k : Nat} {c : Char} {underscoreStart : Bool}
    (hname : StandsAt code n name) (htrim : name.isTrimmed)
    (hbad : badNameChar? underscoreStart name = some (k, c)) (issue : Issue) :
    Finding.Placed code ⟨n + k, n + k + c.utf8Size, issue⟩ := by
  obtain ⟨front, back, rfl, rfl, hfront⟩ := exists_of_badNameChar? hbad
  have hc : StandsAt code (n + byteSize front) [c] := hname.right.of_isPrefix ⟨back, rfl⟩
  refine ⟨by simpa using c.utf8Size_pos, ?_, ?_⟩
  · -- the character comes first, or stands next to a good one
    rcases hfront with rfl | ⟨init, x, rfl, hx, -⟩
    · exact inSight_start hname (isSolid_of_isTrimmed htrim)
    · have hlast := InSight.after hname.left.right hx
      simpa [Nat.add_assoc] using hlast
  · by_cases hspace : c = ' '
    · -- a space is not the first, so what stands before it is no quote and it was not blanked
      subst hspace
      rcases hfront with rfl | ⟨init, x, rfl, hx, hquote⟩
      · obtain ⟨d, ds, heq, hd⟩ := exists_head_of_isTrimmed htrim
        obtain ⟨rfl, -⟩ := List.cons.inj heq
        exact absurd hd (by decide)
      · rw [List.append_assoc] at hname
        have hpair := hname.right.of_isPrefix (s := [x, ' ']) ⟨back, rfl⟩
        have hlast := InSight.afterSpace hpair hx hquote
        simpa [Nat.add_assoc] using hlast
    · exact .after hc hspace

/-! ## 2. Statements -/

theorem between_self (n : Nat) (t : Text) : between n n t = [] := by
  rw [between, Nat.sub_self]
  exact takeBytes_byteSize_append [] _

/-- A piece of a text is empty or a trimmed part at the offset. An empty piece need not be anywhere.
-/
def IsPiece (t : Text) (n : Nat) (piece : Text) : Prop :=
  piece = [] ∨ piece.isTrimmed ∧ StandsAt t n piece

/-- The trimmed part between two boundaries is such a piece, and does not start before the first of
them. -/
theorem spanBetween_cases {start stop : Nat} {t : Text} (hstart : isBoundary start t)
    (hstop : isBoundary stop t) (hle : start ≤ stop) :
    start ≤ (spanBetween start stop t).1 ∧
      IsPiece t (spanBetween start stop t).1
        (between (spanBetween start stop t).1 (spanBetween start stop t).2 t) := by
  have hregion := standsAt_between hstart hstop hle
  unfold spanBetween
  simp only
  refine ⟨Nat.le_add_right _ _, ?_⟩
  cases hblank : isAllBlank (between start stop t) with
  | true =>
    rw [coreSpan_of_isAllBlank hblank]
    exact .inl (between_self _ _)
  | false =>
    obtain ⟨core, htrim, hcore, -, -, hlast⟩ := exists_core_of_standsAt hregion hblank
    have hcut : between (start + (coreSpan (between start stop t)).1)
        (start + (coreSpan (between start stop t)).2) t = core := by
      obtain ⟨front, back, heq, hfront⟩ := hcore
      rw [hlast, ← Nat.add_assoc, ← hfront, heq, List.append_assoc]
      exact between_append front core back
    rw [hcut]
    exact .inr ⟨htrim, hcore⟩

/-- The pieces of a `var` statement are in their places. An assignment stands in front of the value,
so that a range from the one to the other is not empty. -/
structure VarStatement.Placed (t : Text) (statement : VarStatement) : Prop where
  name : IsPiece t statement.nameStart (between statement.nameStart statement.nameStop t)
  value : IsPiece t statement.valueStart (between statement.valueStart statement.valueStop t)
  assignment : ∀ n, statement.assignment = some n → StandsAt t n ['='] ∧ n < statement.valueStart
  stop : statement.stop = (coreSpan t).2

/-- The trimmed part of some bytes, cut out of the text. What stands before and behind is left open.
-/
theorem between_spanBetween {t blank core back : Text} (front rest : Text) {start stop : Nat}
    (ht : t = front ++ (blank ++ core ++ back ++ rest)) (hstart : start = byteSize front)
    (hstop : stop = start + byteSize (blank ++ core ++ back)) (hblank : isAllBlank blank)
    (hcore : core.isTrimmed) (hback : isAllBlank back) :
    between (spanBetween start stop t).1 (spanBetween start stop t).2 t = core := by
  have hspan : spanBetween start stop t =
      (start + byteSize blank, start + (byteSize blank + byteSize core)) := by
    rw [spanBetween, hstop, hstart, ht, between_append,
      coreSpan_core hblank hcore hback]
  have hcut := between_append (front ++ blank) core (back ++ rest)
  rw [byteSize_append, Nat.add_assoc] at hcut
  rw [hspan, hstart, ht]
  simpa only [List.append_assoc] using hcut

/-- A statement with an assignment, cut at it and at its end. -/
theorem VarStatement.ofText_eq {t : Text} {assign : Token} {stop : Nat}
    (hassign : (Token.scan t).find? Token.assigns = some assign)
    (hstop : (((Token.scan t).find? fun token => token.kind = .semicolon).map Token.offset).getD
      (byteSize t) = stop) :
    VarStatement.ofText t =
      { nameStart := (spanBetween 3 (max 3 assign.offset) t).1
        nameStop := (spanBetween 3 (max 3 assign.offset) t).2
        assignment := some assign.offset
        valueStart := (spanBetween assign.valueOffset (max assign.valueOffset stop) t).1
        valueStop := (spanBetween assign.valueOffset (max assign.valueOffset stop) t).2
        stop := (coreSpan t).2 } := by
  subst hstop
  have hkeyword : byteSize "var".toList = 3 := by decide
  cases hsemicolon : (Token.scan t).find? fun token => token.kind = .semicolon <;>
    simp only [ofText, hassign, hsemicolon, hkeyword, Option.map_some, Option.map_none,
      Option.getD_some, Option.getD_none]

/-- A `var` statement that ends at `stop`, cut at its assignment: its name from `var` up to
`nameStop`, its value from `valueFrom` on. -/
def VarStatement.cut (t : Text) (stop : Nat) (assignment : Option Nat) (nameStop valueFrom : Nat) :
    VarStatement :=
  let keyword := byteSize "var".toList
  let name := spanBetween keyword (max keyword nameStop) t
  let value := spanBetween valueFrom (max valueFrom stop) t
  { nameStart := name.1, nameStop := name.2, assignment
    valueStart := value.1, valueStop := value.2, stop := (coreSpan t).2 }

/-- A `var` statement is cut at boundaries: at an equals sign or nowhere, and at a semicolon or the
end of the text. -/
theorem VarStatement.exists_cut (t : Text) :
    ∃ stop, isBoundary stop t ∧
      ((VarStatement.ofText t = VarStatement.cut t stop none stop stop) ∨
        ∃ n, StandsAt t n ['='] ∧
          VarStatement.ofText t = VarStatement.cut t stop (some n) n (n + 1)) := by
  have hassigned {assign : Token} (h : (Token.scan t).find? Token.assigns = some assign) :
      StandsAt t assign.offset ['='] :=
    Token.standsAt_equals (List.mem_of_find?_eq_some h) (List.find?_some h)
  unfold VarStatement.ofText
  cases hsemicolon : (Token.scan t).find? fun token => token.kind = .semicolon with
  | none =>
    refine ⟨byteSize t, isBoundary_byteSize t, ?_⟩
    cases hassign : (Token.scan t).find? Token.assigns with
    | none => exact .inl (by simp only [hsemicolon, hassign]; rfl)
    | some assign =>
      exact .inr ⟨assign.offset, hassigned hassign, by simp only [hsemicolon, hassign]; rfl⟩
  | some semicolon =>
    have hstands := Token.standsAt_of_mem_scan (List.mem_of_find?_eq_some hsemicolon)
    refine ⟨semicolon.offset, hstands.isBoundary_start, ?_⟩
    cases hassign : (Token.scan t).find? Token.assigns with
    | none => exact .inl (by simp only [hsemicolon, hassign]; rfl)
    | some assign =>
      exact .inr ⟨assign.offset, hassigned hassign, by simp only [hsemicolon, hassign]; rfl⟩

/-- **The pieces of a `var` statement are placed**, in each of the two ways to cut it. -/
theorem VarStatement.placed_ofText {t : Text} (h : "var".toList <+: t) :
    (VarStatement.ofText t).Placed t := by
  have hkeyword : isBoundary (byteSize "var".toList) t := by
    have hstop := ((standsAt_self t).of_isPrefix h).isBoundary_stop
    rwa [Nat.zero_add] at hstop
  -- the end of a region never comes before its start
  have hregion {m n : Nat} (hm : isBoundary m t) (hn : isBoundary n t) :=
    spanBetween_cases hm (by
      rcases Nat.le_total m n with hle | hle
      · rwa [Nat.max_eq_right hle]
      · rwa [Nat.max_eq_left hle] : isBoundary (max m n) t) (Nat.le_max_left m n)
  obtain ⟨stop, hstop, hcut | ⟨n, hn, hcut⟩⟩ := VarStatement.exists_cut t
  · rw [hcut]
    exact ⟨(hregion hkeyword hstop).2, (hregion hstop hstop).2, by simp [VarStatement.cut], rfl⟩
  · obtain ⟨hle, hpiece⟩ := hregion hn.isBoundary_stop hstop
    rw [hcut]
    refine ⟨(hregion hkeyword hn.isBoundary_start).2, hpiece, ?_, rfl⟩
    intro m hm
    obtain rfl : n = m := by simpa [VarStatement.cut] using hm
    exact ⟨hn, hle⟩

section VarStatement

variable {code t : Text} {base : Nat} (h : StandsAt code base t) (hvar : "var".toList <+: t)

include h hvar

theorem allPlaced_variableName :
    AllPlaced code (variableNameFindings t base (VarStatement.ofText t)) := by
  unfold variableNameFindings
  split
  · next n c hbad =>
    rcases (VarStatement.placed_ofText hvar).name with hnil | ⟨htrim, hstands⟩
    · rw [hnil] at hbad
      simp [badNameChar?] at hbad
    · exact allPlaced_singleton (placed_badNameChar (h.trans hstands) htrim hbad _)
  · exact allPlaced_nil _

/-- The statement ends with a character other than white space. -/
theorem inSight_varStop : InSight code (base + (VarStatement.ofText t).stop) := by
  have hblank : isAllBlank t = false := by
    obtain ⟨more, rfl⟩ := hvar
    rfl
  rw [(VarStatement.placed_ofText hvar).stop]
  exact (placed_core h hblank .missingValue).stop

/-- A finding about the whole statement is placed. -/
theorem placed_varStatement (issue : Issue) :
    Finding.Placed code ⟨base, base + (VarStatement.ofText t).stop, issue⟩ := by
  refine ⟨?_, inSight_start (h.of_isPrefix hvar) (by decide), inSight_varStop h hvar⟩
  have hle := stop_le_coreSpan ((standsAt_self t).of_isPrefix (s := ['v'])
    (List.IsPrefix.trans (by decide) hvar)) (by decide)
  have := 'v'.utf8Size_pos
  simp only [(VarStatement.placed_ofText hvar).stop]
  omega

/-- A finding from the value to the end of the statement is placed. -/
theorem placed_varValue {value : Text} (htrim : value.isTrimmed)
    (hstands : StandsAt t (VarStatement.ofText t).valueStart value) (issue : Issue) :
    Finding.Placed code
      ⟨base + (VarStatement.ofText t).valueStart, base + (VarStatement.ofText t).stop, issue⟩ := by
  refine ⟨?_, inSight_start (h.trans hstands) (isSolid_of_isTrimmed htrim), inSight_varStop h hvar⟩
  obtain ⟨c, cs, hcons, hc⟩ := exists_head_of_isTrimmed htrim
  have hle := stop_le_coreSpan (hstands.of_isPrefix (hcons ▸ ⟨cs, rfl⟩)) hc
  have := c.utf8Size_pos
  simp only [(VarStatement.placed_ofText hvar).stop]
  omega

/-- The value is tried for one flaw after the other, and at most one is reported. Most are reported
over the whole statement or from the value on; only `undefined` is reported from the assignment to
the end of the word. -/
theorem allPlaced_value (view : RuleView) {n : Nat}
    (hn : (VarStatement.ofText t).assignment = some n) :
    AllPlaced code (valueFindings view t base (VarStatement.ofText t) n) := by
  have hplaced := VarStatement.placed_ofText hvar
  obtain ⟨hassign, hlt⟩ := hplaced.assignment n hn
  have hwhole := placed_varStatement h hvar
  unfold valueFindings
  simp only
  rcases hplaced.value with hnil | ⟨htrim, hstands⟩
  · rw [hnil]
    exact allPlaced_singleton (hwhole _)
  · have hvalue := placed_varValue h hvar htrim hstands
    generalize between (VarStatement.ofText t).valueStart (VarStatement.ofText t).valueStop t =
      value at *
    split
    · exact allPlaced_singleton (hwhole _)
    · split
      · exact allPlaced_singleton (hvalue _)
      · split
        · exact allPlaced_singleton (hvalue _)
        · split
          · next hundefined =>
            -- from the assignment to the end of the word
            have hword := h.trans (hstands.of_isPrefix (isPrefix_of_opensWithWord hundefined))
            refine allPlaced_singleton ⟨?_, ?_, inSight_stop hword (by decide)⟩
            · simp only
              omega
            · exact .before (h.trans hassign) (by decide)
          · split
            · exact allPlaced_singleton (hwhole _)
            · split
              · exact allPlaced_singleton (hwhole _)
              · exact allPlaced_nil _

end VarStatement

/-- **The findings about a `var` statement are placed**, wherever in a line it stands. The first
clause of a loop is read with the same rule. -/
theorem allPlaced_varStatement (view : RuleView) {code t : Text} {base : Nat}
    (h : StandsAt code base t) (hvar : "var".toList <+: t) :
    AllPlaced code (varStatementFindings view t base) := by
  unfold varStatementFindings
  refine allPlaced_append (allPlaced_variableName h hvar) ?_
  split
  · next n hn => exact allPlaced_value h hvar view hn
  · exact allPlaced_nil _

/-! ## 3. Keywords -/

theorem allPlaced_loneVar (code : Text) : AllPlaced code (loneVarFindings code) := by
  unfold loneVarFindings
  split
  · next word hfound =>
    have hstands := standsAt_of_mem_wholeWords (List.mem_of_find?_eq_some hfound)
    have hle := hstands.stop_le
    have hpos : 0 < byteSize "var".toList := byteSize_pos_of_isSolid (by decide)
    exact allPlaced_singleton ⟨by simp only; omega, inSight_start hstands (by decide), .stop⟩
  · exact allPlaced_nil _

theorem allPlaced_keyword {keyword : Text} (hkeyword : keyword.isSolid) (issue : Issue)
    (code : Text) : AllPlaced code (keywordFindings keyword issue code) := by
  unfold keywordFindings
  split
  · next word hfound =>
    exact allPlaced_singleton (placed_of_standsAt
      (standsAt_of_mem_wholeWords (List.mem_of_find?_eq_some hfound)) hkeyword issue)
  · exact allPlaced_nil _

/-! ## 4. Copies -/

/-- What starts a plain name also continues a word, so the two tests of a copy agree on its first
character. -/
theorem isWordChar_of_startsName {c : Char} (h : (c.isAlpha || c == '_') = true) :
    isWordChar c := by
  apply isWordChar_of_isAsciiNameChar
  rw [Bool.or_eq_true] at h
  rcases h with hletter | hunderscore
  · exact isAsciiNameChar_of_isAlpha hletter
  · rw [isAsciiNameChar, hunderscore, Bool.or_true]

/-- A plain name is solid, and the start of its text. So it stands in the line wherever it stands in
the code. -/
theorem plainName?_eq_some {t name rest : Text} (h : plainName? t = some (name, rest)) :
    t = name ++ rest ∧ name.isSolid := by
  unfold plainName? at h
  split at h
  · next hstarts =>
    obtain ⟨rfl, rfl⟩ := Prod.mk.inj (Option.some.inj h)
    refine ⟨(List.prefix_iff_eq_append.mp (List.takeWhile_prefix _)).symm, ?_⟩
    obtain ⟨c, hc, hword⟩ := (Option.any_eq_true _ _).mp hstarts
    obtain ⟨cs, rfl⟩ := List.head?_eq_some_iff.mp hc
    refine isSolid_of_forall_ne ?_ fun d hd => ?_
    · rw [List.takeWhile_cons_of_pos (isWordChar_of_startsName hword)]
      simp
    · rintro rfl
      have hspace := List.mem_takeWhile_imp hd
      revert hspace
      decide
  · simp at h

/-- The value of a copy is a solid part at its offset. -/
theorem standsAt_of_plainAt? {declares : Bool} {offset : Nat} {whole t : Text} {copy : Copy}
    (ht : t <:+ whole) (h : Copy.plainAt? declares offset whole t = some copy) :
    ∃ k, copy.valueOffset = offset + k ∧ StandsAt whole k copy.value ∧ copy.value.isSolid := by
  unfold Copy.plainAt? at h
  simp only [Option.bind_eq_bind, Option.bind_eq_some_iff, Option.pure_def, Option.some.injEq] at h
  obtain ⟨⟨target, rest⟩, htarget, rest', hassign, ⟨value, rest''⟩, hvalue, tail, -, rfl⟩ := h
  obtain ⟨rfl, -⟩ := plainName?_eq_some htarget
  obtain ⟨hsplit, hsolid⟩ := plainName?_eq_some hvalue
  have hafter : rest' <:+ trimStart rest := ⟨['='], (eq_append_of_dropWord? hassign).symm⟩
  -- each step of the reading leaves an end of the text
  have hend : trimStart rest' <:+ whole :=
    (List.dropWhile_suffix _).trans (hafter.trans ((List.dropWhile_suffix _).trans
      ((List.suffix_append _ _).trans ht)))
  obtain ⟨front, rfl⟩ := hend
  refine ⟨byteSize front, by simp, ?_, hsolid⟩
  rw [hsplit]
  exact ⟨front, rest'', by simp, rfl⟩

/-- The same of a copy that may be a declaration. -/
theorem standsAt_of_at? {offset : Nat} {t : Text} {copy : Copy}
    (h : Copy.at? offset t = some copy) :
    ∃ k, copy.valueOffset = offset + k ∧ StandsAt t k copy.value ∧ copy.value.isSolid := by
  unfold Copy.at? at h
  rcases Option.or_eq_some_iff.mp h with hdeclared | ⟨-, hplain⟩
  · split at hdeclared
    · next rest hdrop =>
      split at hdeclared
      · have hrest : rest <:+ t := ⟨"var".toList, (eq_append_of_dropWord? hdrop).symm⟩
        exact standsAt_of_plainAt? ((List.dropWhile_suffix _).trans hrest) hdeclared
      · simp at hdeclared
    · simp at hdeclared
  · exact standsAt_of_plainAt? (List.suffix_refl t) hplain

/-- **The value of a copy is in its place.** The search moves its offset along with the text, so
what is found in the rest is found in the whole. -/
theorem standsAt_of_mem_allFrom {before t : Text} {offset covered : Nat} {copy : Copy}
    (h : copy ∈ Copy.allFrom before offset covered t) :
    ∃ k, copy.valueOffset = offset + k ∧ StandsAt t k copy.value ∧ copy.value.isSolid := by
  induction t generalizing before offset covered with
  | nil => simp [Copy.allFrom] at h
  | cons c cs ih =>
    have hlater {covered : Nat}
        (h : copy ∈ Copy.allFrom (c :: before) (offset + c.utf8Size) covered cs) :
        ∃ k, copy.valueOffset = offset + k ∧ StandsAt (c :: cs) k copy.value ∧
          copy.value.isSolid := by
      obtain ⟨k, hoffset, hk, hsolid⟩ := ih h
      exact ⟨c.utf8Size + k, by omega, hk.cons c, hsolid⟩
    rw [Copy.allFrom] at h
    split at h
    · next found hfound =>
      rcases List.mem_cons.mp h with rfl | h
      · split at hfound
        · exact standsAt_of_at? hfound
        · simp at hfound
      · exact hlater h
    · exact hlater h

theorem allPlaced_selfCopy (view : RuleView) : AllPlaced view.code (selfCopyFindings view) := by
  unfold selfCopyFindings
  split
  · next copy hfound =>
    obtain ⟨k, hoffset, hk, hsolid⟩ :=
      standsAt_of_mem_allFrom (List.mem_of_find?_eq_some hfound)
    rw [hoffset, Nat.zero_add]
    exact allPlaced_singleton (placed_of_standsAt hk hsolid _)
  · exact allPlaced_nil _

/-- **The findings about the declarations of a line are placed.** The statement itself is read from
its first token on, and the keywords and copies are looked for in the whole line. -/
theorem allPlaced_declaration (view : RuleView) :
    AllPlaced view.code (declarationFindings view) := by
  unfold declarationFindings
  refine allPlaced_append (allPlaced_append (allPlaced_append (allPlaced_append
    (allPlaced_loneVar _) (allPlaced_keyword (by decide) _ _))
    (allPlaced_keyword (by decide) _ _)) ?_) (allPlaced_selfCopy view)
  split
  · next first hfirst =>
    split
    · next hvar =>
      have hmem : first ∈ Token.scan view.code := List.mem_of_head? hfirst
      have hstands := Token.standsAt_of_mem_scan hmem
      refine allPlaced_varStatement view (standsAt_dropBytes hstands.isBoundary_start) ?_
      rw [Token.isWord, Bool.and_eq_true, decide_eq_true_eq, decide_eq_true_eq] at hvar
      rw [← hvar.2]
      obtain ⟨front, back, heq, hfront⟩ := hstands
      rw [heq, ← hfront, List.append_assoc, dropBytes_byteSize_append]
      exact List.prefix_append _ _
    · exact allPlaced_nil _
  · exact allPlaced_nil _

end MacroScript
