import MacroScript.Diagnostic.Copy
import MacroScript.Proofs.Program.Piece

/-!
# Copies in a line of pieces

A copy is `a = b;`, one plain name assigned to another at the end of its statement. In a line that
is given in pieces **a copy can only be a word, an assignment and another word with the end of the
statement after it** (`exists_copied_of_mem_all`), so the copies of a line can be read off its
pieces.
-/
namespace MacroScript

/-! ## 1. Spaces at the start -/

/-- The pieces without the spaces at their start. What it does to pieces, trimming does to their
text. -/
def dropSpaces : List Piece → List Piece
  | .space :: ps => dropSpaces ps
  | ps => ps

theorem exists_append_dropSpaces (ps : List Piece) : ∃ spaces, ps = spaces ++ dropSpaces ps := by
  fun_induction dropSpaces ps with
  | case1 ps ih =>
    obtain ⟨spaces, hps⟩ := ih
    exact ⟨.space :: spaces, congrArg (Piece.space :: ·) hps⟩
  | case2 ps => exact ⟨[], rfl⟩

/-- No space is left at the start. -/
theorem dropSpaces_ne_space (ps rest : List Piece) : dropSpaces ps ≠ .space :: rest := by
  fun_induction dropSpaces ps with
  | case1 ps ih => exact ih
  | case2 ps h => exact h rest

theorem trimStart_textOf (ps : List Piece) :
    Text.trimStart (textOf ps) = textOf (dropSpaces ps) := by
  fun_induction dropSpaces ps with
  | case1 ps ih => exact ih
  | case2 ps hps =>
    cases ps with
    | nil => rfl
    | cons p ps =>
      obtain ⟨c, cs, htext, hblank, -⟩ := exists_head_of_ne_space (p := p) (by
        rintro rfl
        exact hps ps rfl)
      rw [textOf_cons, htext, List.cons_append, Text.trimStart,
        List.dropWhile_cons_of_neg (by simp [hblank])]

/-! ## 2. One copy -/

/-- The word that is assigned to the one before these pieces, if a copy starts there. It says in
pieces what the search says in characters. -/
def copied? (ps : List Piece) : Option Word :=
  match dropSpaces ps with
  | .sign .assign :: value =>
    match dropSpaces value with
    | .name v :: tail =>
      match dropSpaces tail with
      | [] => some v
      | .mark .semicolon :: _ => some v
      | _ => none
    | _ => none
  | _ => none

/-- What starts like a word starts with one. -/
theorem exists_name_of_startsWord {ps : List Piece} (h : (textOf ps).head?.any startsWord) :
    ∃ w back, ps = .name w :: back := by
  cases ps with
  | nil => simp at h
  | cons p back =>
    by_cases hname : ∃ w, p = .name w
    · obtain ⟨w, rfl⟩ := hname
      exact ⟨w, back, rfl⟩
    · obtain ⟨c, cs, htext⟩ : ∃ c cs, p.text = c :: cs := by
        by_cases hspace : p = .space
        · exact ⟨' ', [], by rw [hspace]; rfl⟩
        · obtain ⟨c, cs, htext, -⟩ := exists_head_of_ne_space hspace
          exact ⟨c, cs, htext⟩
      have hnot : startsWord c = false :=
        startsWord_of_mem_text (fun w hw => hname ⟨w, hw⟩) (by rw [htext]; exact List.mem_cons_self)
      rw [textOf_cons, htext] at h
      have hc : startsWord c := h
      rw [hc] at hnot
      contradiction

theorem plainName?_word {w : Word} {back : List Piece} (h : Separated (.name w :: back)) :
    plainName? (w.text ++ textOf back) = some (w.text, textOf back) := by
  have hstarts : (w.text ++ textOf back).head?.any fun c => c.isAlpha || c == '_' := by
    obtain ⟨c, cs, htext, hc, -⟩ := w.exists_cons
    simp [htext, hc]
  have hback := endsWord_of_startsApart (startsApart_of_separated h rfl)
  simp only [plainName?, if_pos hstarts, w.takeWhile_append hback, List.drop_left]

/-- A plain name is a word at the start of the pieces, and all of it. -/
theorem plainName?_textOf {ps : List Piece} (hps : Separated ps) {name rest : Text}
    (h : plainName? (textOf ps) = some (name, rest)) :
    ∃ w back, ps = .name w :: back ∧ name = w.text ∧ rest = textOf back := by
  have hstarts : (textOf ps).head?.any startsWord := by
    unfold plainName? at h
    split at h
    · assumption
    · simp at h
  obtain ⟨w, back, rfl⟩ := exists_name_of_startsWord hstarts
  rw [textOf_cons, show (Piece.name w).text = w.text from rfl, plainName?_word hps,
    Option.some.injEq, Prod.mk.injEq] at h
  exact ⟨w, back, rfl, h.1.symm, h.2.symm⟩

/-- The first piece starts with the character that the text starts with, and this tells its kind.
The pieces are told apart by it. -/
theorem exists_piece_of_head {ps : List Piece} (hspace : ∀ rest, ps ≠ .space :: rest) {c : Char}
    {cs : Text} (h : textOf ps = c :: cs) :
    ∃ p more, ps = p :: more ∧ p.kind? = some (Token.kindOf c) ∧ p.text.head? = some c := by
  cases ps with
  | nil => simp at h
  | cons p more =>
    obtain ⟨d, ds, htext, -, hkind⟩ :=
      exists_head_of_ne_space (p := p) fun hp => hspace more (by rw [hp])
    rw [textOf_cons, htext] at h
    obtain ⟨rfl, -⟩ := List.cons.inj h
    exact ⟨p, more, rfl, hkind, by rw [htext]; rfl⟩

/-- What follows a single `=` at the start of the pieces. A doubled one leaves a sign, with which no
name starts. -/
theorem dropWord?_assign {ps : List Piece} (hspace : ∀ rest, ps ≠ .space :: rest) {rest : Text}
    (h : Text.dropWord? ['='] (textOf ps) = some rest) :
    (∃ more, ps = .sign .assign :: more ∧ rest = textOf more) ∨ rest.head? = some '=' := by
  have htext : textOf ps = '=' :: rest := Text.eq_append_of_dropWord? h
  obtain ⟨p, more, rfl, hkind, hhead⟩ := exists_piece_of_head hspace htext
  have hoperator : p.kind? = some .operator := hkind
  cases p with
  | sign s =>
    rw [textOf_cons] at htext
    cases s with
    | assign => exact .inl ⟨more, rfl, (List.cons.inj htext).2.symm⟩
    | plus => simp [Piece.text, Sign.text] at hhead
    | order o =>
      cases o with
      | equal =>
        have hrest : '=' :: textOf more = rest := (List.cons.inj htext).2
        exact .inr (by rw [← hrest]; rfl)
      | notEqual | atMost | atLeast | less | greater =>
        simp [Piece.text, Sign.text, Order.text] at hhead
  | mark m => cases m <;> simp [Piece.kind?, Mark.kind] at hoperator
  | space | name | number | literal => simp [Piece.kind?] at hoperator

/-- The end of a statement is the end of the pieces or a semicolon among them. -/
theorem statementTail?_textOf {ps : List Piece} {rest : Text}
    (h : statementTail? (textOf ps) = some rest) :
    dropSpaces ps = [] ∨ ∃ more, dropSpaces ps = .mark .semicolon :: more := by
  rw [statementTail?, trimStart_textOf] at h
  cases htext : textOf (dropSpaces ps) with
  | nil =>
    left
    cases hps : dropSpaces ps with
    | nil => rfl
    | cons p more =>
      -- a piece that is left would have text
      obtain ⟨c, cs, hp, -⟩ := exists_head_of_ne_space (p := p) fun hp =>
        dropSpaces_ne_space ps more (by rw [hps, hp])
      rw [hps, textOf_cons, hp] at htext
      simp at htext
  | cons c cs =>
    right
    rw [htext] at h
    obtain rfl : c = ';' := by
      by_contra hc
      simp [hc] at h
    obtain ⟨p, more, hps, hkind, -⟩ := exists_piece_of_head (dropSpaces_ne_space ps) htext
    have hsemicolon : p.kind? = some .semicolon := hkind
    cases p with
    | mark m =>
      cases m with
      | semicolon => exact ⟨more, hps⟩
      | opener | closer | comma | colon => simp [Piece.kind?, Mark.kind] at hsemicolon
    | space | name | number | sign | literal => simp [Piece.kind?] at hsemicolon

/-- **A copy at a word** is that word, an assignment and another word. Each step of the search is
answered by the piece that stands there. -/
theorem copied?_of_plainAt? {declares : Bool} {offset : Nat} {whole : Text} {ps : List Piece}
    (hps : Separated ps) {copy : Copy}
    (h : Copy.plainAt? declares offset whole (textOf ps) = some copy) :
    ∃ w back v, ps = .name w :: back ∧ copied? back = some v ∧ copy.target = w.text ∧
      copy.value = v.text := by
  simp only [Copy.plainAt?, Option.bind_eq_bind, Option.bind_eq_some_iff, Option.pure_def,
    Option.some.injEq] at h
  obtain ⟨⟨target, rest⟩, htarget, rest', hassign, ⟨value, rest''⟩, hvalue, tail, htail, rfl⟩ := h
  obtain ⟨w, back, rfl, rfl, rfl⟩ := plainName?_textOf hps htarget
  rw [trimStart_textOf] at hassign
  rcases dropWord?_assign (dropSpaces_ne_space back) hassign with ⟨more, hmore, rfl⟩ | hdoubled
  · obtain ⟨spaces, hback⟩ := exists_append_dropSpaces back
    obtain ⟨spaces', hmore'⟩ := exists_append_dropSpaces more
    have hseparated : Separated (dropSpaces more) := by
      rw [hback, hmore, hmore'] at hps
      exact hps.tail.of_append.tail.of_append
    rw [trimStart_textOf] at hvalue
    obtain ⟨v, tail', hv, rfl, rfl⟩ := plainName?_textOf hseparated hvalue
    refine ⟨w, back, v, rfl, ?_, rfl, rfl⟩
    rcases statementTail?_textOf htail with hend | ⟨after, hend⟩ <;>
      simp [copied?, hmore, hv, hend]
  · -- no name starts with the second half of a doubled sign
    obtain ⟨cs, rfl⟩ := List.head?_eq_some_iff.mp hdoubled
    have hnone : plainName? (Text.trimStart ('=' :: cs)) = none := by
      rw [Text.trimStart, List.dropWhile_cons_of_neg (by decide)]
      rfl
    rw [hnone] at hvalue
    simp at hvalue

/-! ## 3. The copies of a line -/

/-- A copy is found at a place where a word can start. The search may pass over others that overlap
it, but this does not matter here. -/
theorem exists_split_of_mem_allFrom {before t : Text} {offset covered : Nat} {copy : Copy}
    (h : copy ∈ Copy.allFrom before offset covered t) :
    ∃ u v offset', t = u ++ v ∧ Text.endsWord (u.reverse ++ before) ∧
      Copy.at? offset' v = some copy := by
  induction t generalizing before offset covered with
  | nil => simp [Copy.allFrom] at h
  | cons c cs ih =>
    -- whether or not a copy starts here, the scan goes on behind the character
    have hlater {covered : Nat}
        (h : copy ∈ Copy.allFrom (c :: before) (offset + c.utf8Size) covered cs) :
        ∃ u v offset', c :: cs = u ++ v ∧ Text.endsWord (u.reverse ++ before) ∧
          Copy.at? offset' v = some copy := by
      obtain ⟨u, v, offset', rfl, hends, hv⟩ := ih h
      exact ⟨c :: u, v, offset', rfl, by simpa using hends, hv⟩
    rw [Copy.allFrom] at h
    split at h
    · next found hfound =>
      rcases List.mem_cons.mp h with rfl | h
      · split at hfound
        · next hhere =>
          rw [Bool.and_eq_true] at hhere
          exact ⟨[], c :: cs, offset, rfl, hhere.2, hfound⟩
        · simp at hfound
      · exact hlater h
    · exact hlater h

theorem endsWord_of_isBlank {t : Text} (h : t.head?.any isBlank) : Text.endsWord t := by
  cases t with
  | nil => rfl
  | cons c cs =>
    have hc : isBlank c := h
    simp [Text.endsWord, isWordChar_of_isBlank hc]

/-- A copy starts with its word, or with `var` before it. White space ends the keyword, so that it
is a piece of its own. -/
theorem copied?_of_at? {offset : Nat} {w : Word} {back : List Piece}
    (hps : Separated (.name w :: back)) {copy : Copy}
    (h : Copy.at? offset (w.text ++ textOf back) = some copy) :
    ∃ front w' back' v, .name w :: back = front ++ .name w' :: back' ∧ copied? back' = some v ∧
      copy.target = w'.text ∧ copy.value = v.text := by
  rw [Copy.at?, Option.or_eq_some_iff] at h
  rcases h with hdeclared | ⟨-, hplain⟩
  · cases hword : Text.dropWord? "var".toList (w.text ++ textOf back) with
    | none => simp only [hword, reduceCtorEq] at hdeclared
    | some rest =>
      simp only [hword] at hdeclared
      split at hdeclared
      · next hblank =>
        -- white space ends the word, so it is `var`
        have hsplit := Text.eq_append_of_dropWord? hword
        have hback := endsWord_of_startsApart (startsApart_of_separated hps rfl)
        have hvar : w.text = "var".toList := by
          have hrun := w.takeWhile_append hback
          rw [hsplit, Word.takeWhile_append ⟨"var".toList, by decide⟩
            (endsWord_of_isBlank hblank)] at hrun
          exact hrun.symm
        rw [hvar] at hsplit
        obtain rfl := List.append_cancel_left hsplit
        obtain ⟨spaces, hspaces⟩ := exists_append_dropSpaces back
        rw [trimStart_textOf] at hdeclared
        have hseparated : Separated (dropSpaces back) := by
          rw [hspaces] at hps
          exact hps.tail.of_append
        obtain ⟨w', back', v, hdrop, hcopy⟩ := copied?_of_plainAt? hseparated hdeclared
        refine ⟨.name w :: spaces, w', back', v, ?_, hcopy⟩
        rw [hdrop] at hspaces
        rw [hspaces, List.cons_append]
      · simp at hdeclared
  · obtain ⟨w', back', v, hsame, hcopy⟩ := copied?_of_plainAt? hps hplain
    exact ⟨[], w', back', v, hsame, hcopy⟩

/-- Either way it starts like a word. -/
theorem startsWord_of_at? {offset : Nat} {t : Text} {copy : Copy}
    (h : Copy.at? offset t = some copy) : t.head?.any startsWord := by
  rw [Copy.at?, Option.or_eq_some_iff] at h
  rcases h with hdeclared | ⟨-, hplain⟩
  · cases hword : Text.dropWord? "var".toList t with
    | none => simp only [hword, reduceCtorEq] at hdeclared
    | some rest =>
      rw [Text.eq_append_of_dropWord? hword]
      rfl
  · simp only [Copy.plainAt?, Option.bind_eq_bind, Option.bind_eq_some_iff] at hplain
    obtain ⟨⟨target, rest⟩, htarget, -⟩ := hplain
    unfold plainName? at htarget
    split at htarget
    · assumption
    · simp at htarget

/-- **The copies of a line are read off its pieces.** A copy starts where a word can start, which is
at a word among the pieces. -/
theorem exists_copied_of_mem_all {indent : Text} (hindent : ∀ c ∈ indent, startsWord c = false)
    {ps : List Piece} (hps : Separated ps) {copy : Copy}
    (h : copy ∈ Copy.all (indent ++ textOf ps)) :
    ∃ front w back v, ps = front ++ .name w :: back ∧ copied? back = some v ∧
      copy.target = w.text ∧ copy.value = v.text := by
  obtain ⟨u, v, offset, hsplit, hends, hat⟩ := exists_split_of_mem_allFrom h
  rw [List.append_nil] at hends
  obtain ⟨front, w, back, rfl, rfl⟩ :=
    exists_name_of_indented hindent hsplit hends (startsWord_of_at? hat)
  obtain ⟨front', w', back', v, hsame, hcopy⟩ := copied?_of_at? hps.of_append hat
  refine ⟨front ++ front', w', back', v, ?_, hcopy⟩
  rw [hsame, List.append_assoc]

end MacroScript
