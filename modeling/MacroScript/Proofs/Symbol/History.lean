import MacroScript.Proofs.Line.Code
import MacroScript.Proofs.Symbol.Growth

/-!
# The tag of a symbol and the document so far

A symbol is given a tag when it is declared, when it is declared again and when it is assigned to.
In a document that ends with a line, the tag on that line is **the last one that was given**
(`getLast?_tagsGiven`): each line gives a symbol at most one further tag, so the lines that are
recorded with it tell the order in which its tags came.

With more lines this can be lost. A symbol has room for the tag of one declaration only, and a
re-declaration on a later line writes over it. What is seen on the earlier line is then the tag of
the latest assignment up to it, or that of the later declaration (`tagOn_eq_cut_iff`).
-/
namespace MacroScript

/-! ## 1. Which record decides -/

namespace Symbol

/-- The tag on the line is that of the declaration: every assignment up to the line comes before the
latest re-declaration, or there is none. -/
def declarationDecides (s : Symbol) (line : Nat) : Bool :=
  match s.latestAssignment line with
  | none => true
  | some r => s.redeclaredLine.any fun again => again ≤ line && r.line < again

/-- The tag that the symbol shows on the line if its declaration does not decide: that of the latest
assignment up to the line, or its own if there is none. -/
def assignedTag (s : Symbol) (line : Nat) : Tag :=
  ((s.latestAssignment line).map Reassignment.tag).getD s.tag

/-- The tag on a line in terms of which record decides. The comparisons of the definition are kept
in `declarationDecides`. -/
theorem tagOn_eq (s : Symbol) (line : Nat) :
    s.tagOn line = if s.declarationDecides line then s.tag else s.assignedTag line := by
  unfold tagOn declarationDecides assignedTag
  cases s.latestAssignment line with
  | none => rfl
  | some r => cases s.redeclaredLine <;> rfl

/-- Assignments and re-declaration of the symbol are on such lines. -/
structure RecordedOn (p : Nat → Prop) (s : Symbol) : Prop where
  assigned : ∀ r ∈ s.reassignments, p r.line
  redeclared : ∀ again ∈ s.redeclaredLine, p again

/-- Recorded on some lines is recorded on any that include them. -/
theorem RecordedOn.mono {p q : Nat → Prop} {s : Symbol} (h : s.RecordedOn p)
    (hpq : ∀ n, p n → q n) : s.RecordedOn q :=
  ⟨fun r hr => hpq _ (h.assigned r hr), fun again hagain => hpq _ (h.redeclared again hagain)⟩

/-- The tag of the record that came last, told from the lines of the records. There is no line to
ask for: it is the tag at the end of the document. -/
def latestTag (s : Symbol) : Tag :=
  match s.reassignments.getLast? with
  | none => s.tag
  | some r => if s.redeclaredLine.any (r.line < ·) then s.tag else r.tag

/-- If no assignment is on a later line, the latest one up to the line is the last one. -/
theorem latestAssignment_eq_getLast? {s : Symbol} {line : Nat}
    (h : ∀ r ∈ s.reassignments, r.line ≤ line) :
    s.latestAssignment line = s.reassignments.getLast? := by
  unfold latestAssignment
  rw [List.getLast?_eq_head?_reverse]
  cases hr : s.reassignments.reverse with
  | nil => rfl
  | cons r rs =>
    have hle : r.line ≤ line := h r (List.mem_reverse.mp (by rw [hr]; exact List.mem_cons_self))
    rw [List.find?_cons_of_pos (by simpa using hle), List.head?_cons]

/-- If nothing is recorded on a later line, the tag on the line is that of the record that came
last. -/
theorem tagOn_eq_latestTag {s : Symbol} {line : Nat} (h : s.RecordedOn (· ≤ line)) :
    s.tagOn line = s.latestTag := by
  unfold tagOn latestTag
  rw [latestAssignment_eq_getLast? h.assigned]
  cases s.reassignments.getLast? with
  | none => rfl
  | some r =>
    cases hagain : s.redeclaredLine with
    | none => rfl
    | some again =>
      have hle : again ≤ line := h.redeclared again hagain
      simp [hle]

end Symbol

namespace Collector

/-! ## 2. The tags that a symbol is given -/

/-- The tag that an action gives to the symbol at place `i`. -/
def tagGiven? (i : Nat) (c : Collector) : Action → Option Tag
  | .insert _ _ tag _ _ => if c.table.symbols.length = i then some tag else none
  | .retag id tag _ => if id = i then some tag else none
  | .assign id entry => if id = i then some entry.tag else none
  | _ => none

/-- The tags that actions give to the symbol at place `i`, one after the other. -/
def tagsGivenFrom (i : Nat) (c : Collector) : List Action → List Tag
  | [] => []
  | a :: as => (tagGiven? i c a).toList ++ tagsGivenFrom i (c.perform a) as

/-- The tags that the symbol at place `i` is given by its declaration, its re-declarations and its
assignments, in the order of the lines. This is the history that the table does not keep. -/
def tagsGiven (i : Nat) (lines : List Line) : List Tag :=
  tagsGivenFrom i {} (actions lines)

/-- The tags given by two runs are those of the first and then those of the second, from where the
first ends. -/
theorem tagsGivenFrom_append (i : Nat) (c : Collector) (as bs : List Action) :
    tagsGivenFrom i c (as ++ bs) =
      tagsGivenFrom i c as ++ tagsGivenFrom i (c.performAll as) bs := by
  induction as generalizing c with
  | nil => rfl
  | cons a as ih =>
    rw [List.cons_append, tagsGivenFrom, tagsGivenFrom, ih, List.append_assoc, performAll_cons]

/-- The line that an action records with a symbol. -/
def Action.recordedOn? : Action → Option Nat
  | .retag _ _ line => some line
  | .assign _ entry => some entry.line
  | _ => none

/-- What an action records is on its line, and the records that were there stay on theirs or are
written over. -/
theorem recordedOn_change {a : Action} {frames : List Frame} {i : Nat} {s : Symbol}
    {p : Nat → Prop} (h : s.RecordedOn p) (hline : ∀ n, a.recordedOn? = some n → p n) :
    (a.change frames i s).RecordedOn p := by
  cases a with
  | closeFrame line =>
    simp only [Action.change]
    split <;> exact ⟨h.assigned, h.redeclared⟩
  | retag id tag line =>
    simp only [Action.change]
    split
    · refine ⟨h.assigned, fun again hagain => ?_⟩
      obtain rfl : line = again := by simpa using hagain
      exact hline line rfl
    · exact h
  | assign id entry =>
    simp only [Action.change]
    split
    · refine ⟨fun r hr => ?_, h.redeclared⟩
      rcases List.mem_append.mp hr with hr | hr
      · exact h.assigned r hr
      · rw [List.mem_singleton.mp hr]
        exact hline entry.line rfl
    · exact h
  | _ => exact h

/-- **An action that gives a tag gives the latest one**, if everything recorded before is on earlier
lines; any other action leaves the latest tag as it is. The hypothesis is needed because the order
of records is told from their lines only. -/
theorem latestTag_change {c : Collector} {a : Action} {i : Nat} {s : Symbol}
    (hs : c.table.symbols[i]? = some s)
    (hbefore : ∀ n, a.recordedOn? = some n → s.RecordedOn (· < n)) :
    (a.change c.frames i s).latestTag = (tagGiven? i c a).getD s.latestTag := by
  cases a with
  | closeFrame line =>
    simp only [Action.change]
    split <;> rfl
  | insert name value tag origin line =>
    have hlt : i < c.table.symbols.length := (List.getElem?_eq_some_iff.mp hs).1
    simp [Action.change, tagGiven?, (Nat.ne_of_gt hlt)]
  | retag id tag line =>
    by_cases hid : id = i
    · simp only [Action.change, tagGiven?, hid, if_true, Option.getD_some, Symbol.latestTag]
      cases hlast : s.reassignments.getLast? with
      | none => rfl
      | some r =>
        -- the assignments so far are on earlier lines than the re-declaration
        have hlt := (hbefore line rfl).assigned r (List.mem_of_getLast? hlast)
        simp [hlt]
    · simp [Action.change, tagGiven?, hid]
  | assign id entry =>
    by_cases hid : id = i
    · -- a re-declaration is on an earlier line too, so it does not hide the assignment
      have hnot : (s.redeclaredLine.any (entry.line < ·)) = false := by
        rw [Option.any_eq_false]
        intro again hagain
        have hlt := (hbefore entry.line rfl).redeclared again hagain
        simpa using Nat.le_of_lt hlt
      simp [Action.change, tagGiven?, hid, Symbol.latestTag, hnot]
    · simp [Action.change, tagGiven?, hid]
  | _ => rfl

/-- **The latest tag is the last one that was given**, after any actions that record on later and
later lines. The induction takes actions off the end, and carries along on which lines the symbol
has its records. -/
theorem getLast?_tagsGivenFrom {as : List Action}
    (hlines : (as.filterMap Action.recordedOn?).Pairwise (· < ·)) {i : Nat} {s : Symbol}
    (hs : (performAll {} as).table.symbols[i]? = some s) :
    (tagsGivenFrom i {} as).getLast? = some s.latestTag ∧
      s.RecordedOn (· ∈ as.filterMap Action.recordedOn?) := by
  induction as using List.reverseRecOn generalizing s with
  | nil => simp at hs
  | append_singleton as a ih =>
    rw [List.filterMap_append, List.pairwise_append] at hlines
    obtain ⟨hfront, -, hlast⟩ := hlines
    have hnow {n : Nat} (hn : a.recordedOn? = some n) :
        n ∈ [a].filterMap Action.recordedOn? := by
      simp [hn]
    rw [performAll_append, performAll_cons, performAll_nil] at hs
    rw [tagsGivenFrom_append, List.filterMap_append]
    -- a symbol is there before the last action, which can only change it, or is put in by it
    rcases Nat.lt_or_ge i (performAll {} as).table.symbols.length with hlt | hge
    · have hold := List.getElem?_eq_getElem hlt
      obtain ⟨hgiven, hrecorded⟩ := ih hfront hold
      rw [perform_symbol _ a hold, Option.some.injEq] at hs
      subst hs
      refine ⟨?_, recordedOn_change (hrecorded.mono fun n hn => List.mem_append_left _ hn)
        fun n hn => List.mem_append_right _ (hnow hn)⟩
      rw [latestTag_change hold fun n hn =>
        hrecorded.mono fun m hm => hlast m hm n (hnow hn)]
      cases htag : tagGiven? i (performAll {} as) a with
      | none => simpa [tagsGivenFrom, htag] using hgiven
      | some tag => simp [tagsGivenFrom, htag]
    · obtain ⟨name, value, tag, origin, line, rfl, hi, rfl⟩ := perform_newSymbol hge hs
      refine ⟨?_, ⟨by simp [newSymbol], by simp [newSymbol]⟩⟩
      simp [tagsGivenFrom, tagGiven?, hi, newSymbol, Symbol.latestTag]

/-! ## 3. One record a line -/

/-- Tokens open and close, and record nothing. -/
theorem recordedOn?_tokenActions (line : Nat) (c : Collector) (t : Token) :
    (tokenActions line c t).filterMap Action.recordedOn? = [] := by
  unfold tokenActions
  split
  · rfl
  · unfold braceAction
    split <;> rfl
  · split <;> rfl
  · rfl

theorem recordedOn?_tokensActions (line : Nat) (c : Collector) (ts : List Token) :
    (tokensActions line c ts).filterMap Action.recordedOn? = [] := by
  induction ts generalizing c with
  | nil => rfl
  | cons t ts ih =>
    rw [tokensActions, List.filterMap_append, recordedOn?_tokenActions, ih, List.append_nil]

/-- A header puts in parameters, and does not record anything with symbols that are there. -/
theorem recordedOn?_headerActions (l : Line) (keyword : Token) (tokens : List Token) :
    (headerActions l keyword tokens).filterMap Action.recordedOn? = [] := by
  have hparameters (names : List Text) :
      (names.map (parameterAction l.index)).filterMap Action.recordedOn? = [] := by
    rw [List.filterMap_eq_nil_iff]
    intro a ha
    obtain ⟨name, -, rfl⟩ := List.mem_map.mp ha
    rfl
  unfold headerActions
  rw [List.filterMap_cons_none rfl]
  split
  · rfl
  · split
    · rfl
    · exact hparameters _

/-- The frames of a line record nothing. -/
theorem recordedOn?_frameActions (c : Collector) (l : Line) (first : Token) (rest : List Token) :
    (c.frameActions l first rest).filterMap Action.recordedOn? = [] := by
  have hfirst : (c.firstActions l first (first :: rest)).filterMap Action.recordedOn? = [] := by
    unfold firstActions
    split
    · exact recordedOn?_headerActions l first _
    · exact recordedOn?_tokenActions l.index c first
  have hexpiry (c' : Collector) :
      (c'.expiryActions l.index).filterMap Action.recordedOn? = [] := by
    unfold expiryActions
    split
    · split <;> rfl
    · rfl
  simp only [frameActions, List.filterMap_append, hfirst, recordedOn?_tokensActions, hexpiry,
    List.append_nil]

/-- **A line records at most once**, and its own number: its statement is at most one action. -/
theorem recordedOn?_lineActions (c : Collector) (l : Line) :
    ((c.lineActions l).filterMap Action.recordedOn?).Sublist [l.index] := by
  unfold lineActions
  cases Token.scan l.code with
  | nil => exact List.nil_sublist _
  | cons first rest =>
    simp only [List.filterMap_append, recordedOn?_frameActions, List.nil_append]
    rcases statementActions_cases (c.performAll (c.frameActions l first rest)) l first
      (first :: rest) with hnil | ⟨a, hone, ha⟩
    · rw [hnil]
      exact List.nil_sublist _
    · rw [hone]
      cases ha with
      | insert => exact List.nil_sublist _
      | retag => exact List.Sublist.refl _
      | assign id entry hline => simp [Action.recordedOn?, hline]

theorem recordedOn?_actionsFrom (c : Collector) (ls : List Line) :
    ((c.actionsFrom ls).filterMap Action.recordedOn?).Sublist (ls.map Line.index) := by
  induction ls generalizing c with
  | nil => exact List.nil_sublist _
  | cons l ls ih =>
    rw [actionsFrom, List.filterMap_append, List.map_cons]
    exact (recordedOn?_lineActions c l).append (ih _)

/-- The lines recorded by the actions of some lines are among them, in their order. -/
theorem recordedOn?_actions (lines : List Line) :
    ((actions lines).filterMap Action.recordedOn?).Sublist (lines.map Line.index) :=
  (recordedOn?_actionsFrom {} _).trans (List.filter_sublist.map _)

/-- **At the end of a document a symbol has the tag that it was given last.** -/
theorem getLast?_tagsGiven {lines : List Line}
    (hlines : (lines.map Line.index).Pairwise (· < ·)) {line : Nat}
    (hend : ∀ l ∈ lines, l.index ≤ line) {i : Nat} {s : Symbol}
    (hs : (readLines lines).table.symbols[i]? = some s) :
    (tagsGiven i lines).getLast? = some (s.tagOn line) ∧ s.RecordedOn (· ≤ line) := by
  have hsub := recordedOn?_actions lines
  rw [← performAll_actions] at hs
  obtain ⟨hlast, hrecorded⟩ := getLast?_tagsGivenFrom (hlines.sublist hsub) hs
  have hbefore : s.RecordedOn (· ≤ line) := by
    refine hrecorded.mono fun n hn => ?_
    obtain ⟨l, hl, rfl⟩ := List.mem_map.mp (hsub.subset hn)
    exact hend l hl
  rw [Symbol.tagOn_eq_latestTag hbefore]
  exact ⟨hlast, hbefore⟩

/-! ## 4. The document cut off after a line -/

/-- A symbol that comes in during some actions is declared on the line that one of them is written
on. -/
theorem WellFormed.declaredLine_of_performAll {c : Collector} (h : c.WellFormed) {as : List Action}
    {isFurther : Nat → Prop} (hlines : ∀ a ∈ as, ∀ n, a.writtenOn? = some n → isFurther n)
    {i : Nat} {s : Symbol} (hfree : c.table.symbols.length ≤ i)
    (hs : (c.performAll as).table.symbols[i]? = some s) : isFurther s.declaredLine := by
  induction as generalizing c with
  | nil =>
    have hlt := (List.getElem?_eq_some_iff.mp hs).1
    rw [performAll_nil] at hlt
    omega
  | cons a as ih =>
    have hrest : ∀ b ∈ as, ∀ n, b.writtenOn? = some n → isFurther n :=
      fun b hb => hlines b (List.mem_cons_of_mem _ hb)
    rcases Nat.lt_or_ge i (c.perform a).table.symbols.length with hnow | hlater
    · have hput := List.getElem?_eq_getElem hnow
      obtain ⟨name, value, tag, origin, line, rfl, -, hnew⟩ := perform_newSymbol hfree hput
      -- from here on the symbol keeps its declaration
      obtain ⟨s', hs', hgrows⟩ := ((h.perform _).growsTo_performAll hrest).symbols i _ hput
      obtain rfl : s' = s := Option.some.inj (hs'.symm.trans hs)
      rw [hgrows.declaredLine, hnew]
      exact hlines _ List.mem_cons_self line rfl
    · exact ih (h.perform a) hrest hlater hs

/-- A symbol of a document that is not declared on the further lines was there before them, and has
grown on them. It keeps its place, so that the two symbols are compared by their index. -/
theorem exists_growsTo_of_readLines_append {isFurther : Nat → Prop} {lines more : List Line}
    (hmore : ∀ l ∈ more, isFurther l.index) {i : Nat} {s : Symbol}
    (hs : (readLines (lines ++ more)).table.symbols[i]? = some s)
    (hdeclared : ¬ isFurther s.declaredLine) :
    ∃ cut, (readLines lines).table.symbols[i]? = some cut ∧ cut.GrowsTo isFurther s := by
  have hwf := wellFormed_readLines lines
  rw [← performAll_actions, actions_append, performAll_append, performAll_actions] at hs
  have hwritten : ∀ a ∈ (readLines lines).actionsFrom (more.filter Line.isCode), ∀ n,
      a.writtenOn? = some n → isFurther n := by
    intro a ha n hn
    obtain ⟨l, hl, rfl⟩ := exists_line_of_mem_actionsFrom ha hn
    exact hmore l (List.mem_filter.mp hl).1
  have hlt : i < (readLines lines).table.symbols.length := by
    by_contra hge
    exact hdeclared (hwf.declaredLine_of_performAll hwritten (by omega) hs)
  have hcut := List.getElem?_eq_getElem hlt
  obtain ⟨s', hs', hgrows⟩ := (hwf.growsTo_performAll hwritten).symbols i _ hcut
  obtain rfl : s' = s := Option.some.inj (hs'.symm.trans hs)
  exact ⟨_, hcut, hgrows⟩

end Collector

namespace Symbol

/-- Assignments on later lines do not change which one is the latest up to a line, since they come
after all others in the list. -/
theorem GrowsTo.latestAssignment_eq {s s' : Symbol} {line : Nat} (h : s.GrowsTo (line < ·) s') :
    s'.latestAssignment line = s.latestAssignment line := by
  obtain ⟨more, hmore, hlater⟩ := h.reassignments
  unfold latestAssignment
  rw [hmore, List.reverse_append, List.find?_append, List.find?_eq_none.mpr, Option.none_or]
  intro r hr
  have hlt := hlater r (List.mem_reverse.mp hr)
  simpa using hlt

/-- **What later lines do to the tag on a line**: nothing, unless the symbol is declared again on
one of them. Then the latest assignment up to the line decides, or else the later declaration. -/
theorem GrowsTo.tagOn_eq {s s' : Symbol} {line : Nat} (h : s.GrowsTo (line < ·) s')
    (hend : s.RecordedOn (· ≤ line)) :
    s'.tagOn line =
      if s'.redeclaredLine.any (line < ·) then s'.assignedTag line else s.tagOn line := by
  rcases h.tag with ⟨htag, hline⟩ | ⟨again, hlater, hline⟩
  · have hany : s'.redeclaredLine.any (line < ·) = false := by
      rw [hline, Option.any_eq_false]
      intro again hagain
      simpa using hend.redeclared again hagain
    rw [hany]
    simp only [tagOn, h.latestAssignment_eq, htag, hline, Bool.false_eq_true, if_false]
  · have hnot : ¬ again ≤ line := by omega
    simp only [hline, Option.any_some, hlater, decide_true, if_true]
    unfold tagOn assignedTag
    cases hlatest : s'.latestAssignment line with
    | none => rfl
    | some r => simp [hline, hnot]

/-- The tags on a line before and after the later lines, compared. They can differ only if the
symbol is declared again later and its declaration had decided. -/
theorem GrowsTo.tagOn_eq_iff {s s' : Symbol} {line : Nat} (h : s.GrowsTo (line < ·) s')
    (hend : s.RecordedOn (· ≤ line)) :
    s'.tagOn line = s.tagOn line ↔
      (∀ again ∈ s'.redeclaredLine, again ≤ line) ∨ s.declarationDecides line = false ∨
        s.tag = s'.assignedTag line := by
  rw [h.tagOn_eq hend]
  by_cases hagain : ∀ again ∈ s'.redeclaredLine, again ≤ line
  · have hany : s'.redeclaredLine.any (line < ·) = false := by
      rw [Option.any_eq_false]
      intro again hsome
      simpa using hagain again hsome
    rw [hany]
    exact iff_of_true rfl (.inl hagain)
  · have hany : s'.redeclaredLine.any (line < ·) = true := by
      push Not at hagain
      obtain ⟨again, hsome, hlt⟩ := hagain
      rw [Option.mem_def.mp hsome]
      simpa using hlt
    rw [if_pos hany, s.tagOn_eq]
    cases hdecides : s.declarationDecides line with
    | true =>
      rw [if_pos rfl, or_iff_right hagain, or_iff_right (by simp)]
      exact eq_comm
    | false =>
      -- with no assignment up to the line the declaration would decide
      have hsame : s'.assignedTag line = s.assignedTag line := by
        unfold declarationDecides at hdecides
        unfold assignedTag
        rw [h.latestAssignment_eq]
        cases hlatest : s.latestAssignment line with
        | none => simp [hlatest] at hdecides
        | some r => rfl
      simp [hsame]

end Symbol

open Collector in
/-- **Where the tag of a symbol is that of the document so far.** From its declaration on, a symbol
is in the table of the document cut off after a line, and its tag on that line is there the last one
that it was given. The whole document shows the same tag iff the symbol is not declared again on a
later line, or an assignment had given it its tag, or the tag that the later declaration leaves to
be seen is by chance the same. -/
theorem Symbol.Table.tagOn_eq_cut_iff (t : Text) {i line : Nat} {s : Symbol}
    (hs : (ofText t).get? i = some s) (hline : s.declaredLine ≤ line) :
    ∃ cut, (ofLines ((Line.ofText t).take (line + 1))).get? i = some cut ∧
      (tagsGiven i ((Line.ofText t).take (line + 1))).getLast? = some (cut.tagOn line) ∧
      (s.tagOn line = cut.tagOn line ↔
        (∀ again ∈ s.redeclaredLine, again ≤ line) ∨ cut.declarationDecides line = false ∨
          cut.tag = s.assignedTag line) := by
  have hlater : ∀ l ∈ (Line.ofText t).drop (line + 1), line < l.index :=
    fun l hl => Line.le_index_of_mem_drop hl
  have hend : ∀ l ∈ (Line.ofText t).take (line + 1), l.index ≤ line :=
    fun l hl => Nat.lt_succ_iff.mp (Line.index_lt_of_mem_take hl)
  have horder : (((Line.ofText t).take (line + 1)).map Line.index).Pairwise (· < ·) :=
    List.pairwise_map.mpr ((Line.number_index 0 0 _).1.sublist (List.take_sublist _ _))
  have hwhole : (readLines ((Line.ofText t).take (line + 1) ++
      (Line.ofText t).drop (line + 1))).table.symbols[i]? = some s := by
    rw [List.take_append_drop]
    exact hs
  obtain ⟨cut, hcut, hgrows⟩ :=
    exists_growsTo_of_readLines_append hlater hwhole (Nat.not_lt.mpr hline)
  obtain ⟨hlast, hrecorded⟩ := getLast?_tagsGiven horder hend hcut
  exact ⟨cut, hcut, hlast, hgrows.tagOn_eq_iff hrecorded⟩

/-- A text in which a symbol is assigned to, and after that declared again. -/
def assignedThenRedeclared : Text :=
  "var x = 1;\nx = \"a\";\nvar x = null;".toList

/-- Its symbol. -/
def assignedThenRedeclaredSymbol : Symbol :=
  { id := 0, name := "x".toList, tag := .null, origin := .variable, declaredLine := 0
    declaredValue := "1".toList, reassignments := [⟨1, "\"a\"".toList, .string⟩]
    redeclaredLine := some 2, scope := .global }

open Collector in
/-- Between the assignment and the later declaration the tag is that of the assignment, with and
without the last line. -/
theorem Symbol.Table.tagOn_of_assignedThenRedeclared :
    (ofText assignedThenRedeclared).get? 0 = some assignedThenRedeclaredSymbol ∧
      assignedThenRedeclaredSymbol.tagOn 1 = .string ∧
      ∃ cut, (ofLines ((Line.ofText assignedThenRedeclared).take 2)).get? 0 = some cut ∧
        (tagsGiven 0 ((Line.ofText assignedThenRedeclared).take 2)).getLast? =
          some (cut.tagOn 1) ∧
        (assignedThenRedeclaredSymbol.tagOn 1 = cut.tagOn 1 ↔
          (∀ again ∈ assignedThenRedeclaredSymbol.redeclaredLine, again ≤ 1) ∨
            cut.declarationDecides 1 = false ∨
            cut.tag = assignedThenRedeclaredSymbol.assignedTag 1) := by
  have hs : (ofText assignedThenRedeclared).get? 0 = some assignedThenRedeclaredSymbol := by
    decide +kernel
  exact ⟨hs, by decide, tagOn_eq_cut_iff assignedThenRedeclared hs (by decide)⟩

/-- A text in which a symbol is declared again, with a use of its first tag in between. -/
def usedThenRedeclared : Text :=
  "var x = 1;\nvar y = x;\nvar x = \"s\";".toList

/-- **A later declaration can change the tag that was seen before it**: on the line between the two
declarations, the document so far gives the first tag and the whole document the second. -/
theorem Symbol.Table.tagOn_ne_cut_of_usedThenRedeclared :
    ((ofLines ((Line.ofText usedThenRedeclared).take 2)).get? 0).map (·.tagOn 1) =
        some .number ∧
      ((ofText usedThenRedeclared).get? 0).map (fun s => (s.declaredLine, s.tagOn 1)) =
        some (0, .string) := by
  decide +kernel

end MacroScript
