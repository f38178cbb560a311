import MacroScript.Proofs.Line.Overlay
import MacroScript.Proofs.Symbol.Step
import MacroScript.Proofs.Symbol.Value

/-!
# Values are written on their lines

The table of a document holds the values that names were declared with and assigned to later. The
reader finds the span of a value in the code of a line and takes its characters from the line as it
was typed; should the span not be one of the line, the value would be lost. **It never is**: each
value is the part of its line over that span, without the white space around it, and a symbol has no
value only if its line writes none (`Symbol.IsWrittenIn`).
-/
namespace MacroScript

open Text

/-! ## 1. Spans of values -/

namespace Line

/-- The span of the value behind an equals sign. -/
def spanAfter (l : Line) (assign : Token) : Nat × Nat :=
  (assign.valueOffset, Collector.valueStop l.code assign.valueOffset)

/-- The span of the items of a loop: from its separator to the last closing bracket of the line. -/
def itemsSpan (l : Line) (separator : Token) : Nat × Nat :=
  (separator.stop,
    match (Token.scan l.code).reverse.find? fun t => t.kind = .closer .round with
    | some closer => closer.offset
    | none => byteSize l.code)

/-- The span of the value that the line writes for what it declares. A parameter has none, a
variable that behind the first equals sign, and a loop variable that behind the token after its
name. -/
def valueSpan? (l : Line) : Origin → Option (Nat × Nat)
  | .parameter => none
  | .variable => ((Token.scan l.code).find? Token.assigns).map l.spanAfter
  | .loopVariable =>
    (Token.scan l.code)[4]?.bind fun t =>
      if t.assigns then some (l.spanAfter t)
      else if t.kind = .colon || t.isWord "in" || t.isWord "of" then some (l.itemsSpan t)
      else none

/-- The span of the value that the line assigns to the name it starts with. -/
def assignedSpan? (l : Line) : Option (Nat × Nat) :=
  ((Token.scan l.code)[1]?.filter Token.assigns).map l.spanAfter

/-- The value is the part of the line over the span, without the white space around it. With no span
there is no value. -/
def Writes (l : Line) (span? : Option (Nat × Nat)) (value : Text) : Prop :=
  match span? with
  | none => value = []
  | some (start, stop) => ∃ part, slice? start stop l.raw = some part ∧ value = trim part

variable {l : Line}

/-- **The value behind an equals sign is read off the line**: both ends of its span are boundaries,
so that the cut succeeds. -/
theorem writes_initializer {assign : Token} (h : assign ∈ Token.scan l.code)
    (hassigns : assign.assigns) :
    l.Writes (some (l.spanAfter assign)) (Collector.initializer l assign.valueOffset) := by
  obtain ⟨hstop, hle⟩ := isBoundary_valueStop h hassigns
  obtain ⟨part, hpart⟩ := exists_slice? (isBoundary_value h hassigns) hstop hle
  exact ⟨part, hpart, by rw [Collector.initializer, hpart, Option.getD_some]⟩

/-- The items of a loop end at a token or with the code, and both are boundaries of the line. -/
theorem isBoundary_itemsSpan (l : Line) (separator : Token) :
    isBoundary (l.itemsSpan separator).2 l.raw := by
  unfold itemsSpan
  cases hcloser : (Token.scan l.code).reverse.find? fun t => t.kind = .closer .round with
  | none => exact InSight.stop.isBoundary
  | some closer =>
    have hmem := List.mem_reverse.mp (List.mem_of_find?_eq_some hcloser)
    exact (isBoundary_token hmem).1

/-- **The items of a loop are read off the line**, if no closing bracket comes before them. The last
bracket of the line is then behind the separator, and the span is not turned round. -/
theorem writes_loopItems {front back : List Token} {separator : Token}
    (htokens : Token.scan l.code = front ++ separator :: back)
    (hfront : ∀ t ∈ front ++ [separator], t.kind ≠ .closer .round) :
    l.Writes (some (l.itemsSpan separator))
      (Collector.loopItems l separator (Token.scan l.code)) := by
  have hmem : separator ∈ Token.scan l.code := by
    rw [htokens]
    simp
  have hle : separator.stop ≤ (l.itemsSpan separator).2 := by
    unfold itemsSpan
    cases hcloser : (Token.scan l.code).reverse.find? fun t => t.kind = .closer .round with
    | none => exact (Token.standsAt_of_mem_scan hmem).stop_le
    | some closer =>
      -- the bracket is one of the tokens behind the separator
      have hcloserMem := List.mem_reverse.mp (List.mem_of_find?_eq_some hcloser)
      have hkind : closer.kind = .closer .round := by simpa using List.find?_some hcloser
      have hpairwise := Token.pairwise_scan l.code
      rw [htokens] at hcloserMem hpairwise
      have hback : closer ∈ back := by
        rcases List.mem_append.mp hcloserMem with hin | hin
        · exact absurd hkind (hfront closer (List.mem_append_left _ hin))
        · rcases List.mem_cons.mp hin with rfl | hin
          · exact absurd hkind (hfront closer (by simp))
          · exact hin
      exact (List.pairwise_cons.mp (List.pairwise_append.mp hpairwise).2.1).1 closer hback
  obtain ⟨part, hpart⟩ :=
    exists_slice? (isBoundary_token hmem).2 (l.isBoundary_itemsSpan separator) hle
  have hitems : Collector.loopItems l separator (Token.scan l.code) =
      trim ((slice? separator.stop (l.itemsSpan separator).2 l.raw).getD []) := rfl
  exact ⟨part, hpart, by rw [hitems, hpart, Option.getD_some]⟩

/-- The value of a loop variable is read off the line, whatever comes behind its name. The tokens up
to there are known from the form of the header, and none of them is a closing bracket. -/
theorem writes_loopValue (c : Collector) {first opener keyword name : Token} {rest : List Token}
    (htokens : Token.scan l.code = first :: opener :: keyword :: name :: rest)
    (hfirst : first.isWord "for") (hopener : opener.kind = .opener .round)
    (hkeyword : keyword.isWord "var") (hname : name.kind = .name) :
    l.Writes (l.valueSpan? .loopVariable) (c.loopValue l (Token.scan l.code) rest.head?).1 := by
  have hnext : (Token.scan l.code)[4]? = rest.head? := by
    rw [htokens]
    cases rest <;> rfl
  rw [valueSpan?, hnext]
  cases rest with
  | nil => rfl
  | cons t back =>
    simp only [List.head?_cons, Option.bind_some, Collector.loopValue]
    split
    · next hassigns =>
      exact writes_initializer (by simp [htokens]) hassigns
    · split
      · next hseparator =>
        have hsplit : Token.scan l.code = [first, opener, keyword, name] ++ t :: back := htokens
        refine writes_loopItems hsplit fun u hu => ?_
        -- none of the five is a closing bracket
        have hkinds : u.kind = .name ∨ u.kind = .opener .round ∨ u.kind = .colon := by
          simp only [List.cons_append, List.nil_append, List.mem_cons, List.not_mem_nil,
            or_false] at hu
          rcases hu with rfl | rfl | rfl | rfl | rfl
          · exact .inl (Token.kind_of_isWord hfirst)
          · exact .inr (.inl hopener)
          · exact .inl (Token.kind_of_isWord hkeyword)
          · exact .inl hname
          · simp only [Bool.or_eq_true, decide_eq_true_eq] at hseparator
            rcases hseparator with (hcolon | hword) | hword
            · exact .inr (.inr hcolon)
            · exact .inl (Token.kind_of_isWord hword)
            · exact .inl (Token.kind_of_isWord hword)
        rcases hkinds with h | h | h <;> rw [h] <;> decide
      · rfl

end Line

namespace Collector

/-! ## 2. What actions write -/

/-- A value that the action puts in or assigns is written on the line. An action that carries no
value has nothing to show. -/
def Action.IsWrittenBy (l : Line) : Action → Prop
  | .insert _ value _ origin line => line = l.index ∧ l.Writes (l.valueSpan? origin) value
  | .assign _ entry =>
    entry.line = l.index ∧ ∃ span, l.assignedSpan? = some span ∧ l.Writes (some span) entry.value
  | _ => True

/-- A declaration is written by its line if its value is; if it only retags, no value is kept. -/
theorem isWrittenBy_declareAction (c : Collector) {l : Line} {origin : Origin} {value : Text}
    (h : l.Writes (l.valueSpan? origin) value) (name : Text) (tag : Tag) :
    (c.declareAction name value tag origin l.index).IsWrittenBy l := by
  unfold declareAction
  split
  · trivial
  · exact ⟨rfl, h⟩

/-- Tokens put in parameters only, and these have no value. -/
theorem TokenStep.isWrittenBy {l : Line} {c : Collector} {a : Action}
    (h : TokenStep l.index c a) : a.IsWrittenBy l := by
  cases h with
  | parameter name frame frames hframes hopened => exact ⟨rfl, rfl⟩
  | _ => trivial

section Statement

variable (c : Collector) {l : Line} {first : Token} {rest : List Token}
  (hscan : Token.scan l.code = first :: rest)

include hscan

/-- The value of a `var` stands behind the first equals sign of its line, and without one it has
none. -/
theorem isWrittenBy_variable :
    ∀ a ∈ c.foundActions l.index (c.declaredVariable? l first (first :: rest)),
      a.IsWrittenBy l := by
  intro a ha
  obtain ⟨d, hd, rfl⟩ := mem_foundActions.mp ha
  rw [← hscan] at hd
  unfold declaredVariable? at hd
  simp only at hd
  split at hd
  · contradiction
  · split at hd
    · next assign hassign =>
      obtain rfl := Option.some.inj hd
      refine isWrittenBy_declareAction c ?_ _ _
      rw [Line.valueSpan?, hassign]
      exact Line.writes_initializer (List.mem_of_find?_eq_some hassign) (List.find?_some hassign)
    · next hnone =>
      obtain rfl := Option.some.inj hd
      refine isWrittenBy_declareAction c ?_ _ _
      rw [Line.valueSpan?, hnone]
      rfl

/-- The value of a loop variable stands behind the token after its name. -/
theorem isWrittenBy_loopVariable (hfirst : first.isWord "for") :
    ∀ a ∈ c.foundActions l.index (c.declaredLoopVariable? l (first :: rest)),
      a.IsWrittenBy l := by
  intro a ha
  obtain ⟨d, hd, rfl⟩ := mem_foundActions.mp ha
  unfold declaredLoopVariable? at hd
  split at hd
  · next first' opener keyword name rest' htokens =>
    obtain ⟨rfl, rfl⟩ := List.cons.inj htokens
    split at hd
    · next hheader =>
      simp only [Bool.and_eq_true, decide_eq_true_eq] at hheader
      obtain ⟨⟨hopener, hkeyword⟩, hname⟩ := hheader
      obtain rfl := Option.some.inj hd
      rw [← hscan]
      exact isWrittenBy_declareAction c
        (Line.writes_loopValue c hscan hfirst hopener hkeyword hname) _ _
    · contradiction
  · contradiction

/-- The value of an assignment stands behind the second token of its line, which is the equals sign.
-/
theorem isWrittenBy_assignActions :
    ∀ a ∈ c.assignActions l (first :: rest), a.IsWrittenBy l := by
  unfold assignActions
  intro a ha
  split at ha
  · next target assign rest' htokens =>
    split at ha
    · next htarget =>
      rw [Bool.and_eq_true] at htarget
      split at ha
      · simp at ha
      · obtain rfl := List.mem_singleton.mp ha
        rw [htokens] at hscan
        refine ⟨rfl, l.spanAfter assign, ?_, ?_⟩
        · rw [Line.assignedSpan?, hscan]
          simp [htarget.2]
        · exact Line.writes_initializer (by simp [hscan]) htarget.2
    · simp at ha
  · simp at ha

theorem isWrittenBy_statementActions :
    ∀ a ∈ c.statementActions l first (first :: rest), a.IsWrittenBy l := by
  unfold statementActions
  split
  · exact isWrittenBy_variable c hscan
  · split
    · next hfor => exact isWrittenBy_loopVariable c hscan hfor
    · exact isWrittenBy_assignActions c hscan

end Statement

/-- **All that a line puts in and assigns is written on it.** This does not depend on the state, so
the steps are of a kind that holds anywhere. -/
theorem isWrittenBy_lineActions (c : Collector) (l : Line) :
    Steps (fun _ a => a.IsWrittenBy l) c (c.lineActions l) := by
  unfold lineActions
  split
  · exact .nil c
  · next first rest hscan =>
    refine Steps.append ?_ (Steps.of_forall (isWrittenBy_statementActions _ hscan))
    rw [frameActions_eq]
    refine Steps.append ?_ ?_
    · exact (steps_nestActions c l first rest).imp fun _ _ => TokenStep.isWrittenBy
    · unfold expiryActions
      split
      · split
        · exact Steps.single trivial
        · exact .nil _
      · exact .nil _

end Collector

/-! ## 3. What a table holds -/

/-- The values of the symbol are written on code lines among these, the declared one on the line of
its declaration and each other on the line of its assignment. -/
structure Symbol.IsWrittenIn (lines : List Line) (s : Symbol) : Prop where
  declared : ∃ l ∈ lines, l.isCode ∧ l.index = s.declaredLine ∧
    l.Writes (l.valueSpan? s.origin) s.declaredValue
  assigned : ∀ r ∈ s.reassignments, ∃ l ∈ lines, l.isCode ∧ l.index = r.line ∧
    ∃ span, l.assignedSpan? = some span ∧ l.Writes (some span) r.value

namespace Collector

/-- All symbols of the table are written in the lines. -/
def IsWrittenIn (lines : List Line) (c : Collector) : Prop :=
  ∀ s ∈ c.table.symbols, s.IsWrittenIn lines

variable {lines : List Line} {l : Line}

/-- An action that is written on a line leaves a symbol written: the declared value is never
changed, and an assignment adds one entry at most. -/
theorem isWrittenIn_change (hmem : l ∈ lines) (hcode : l.isCode) {a : Action}
    (ha : a.IsWrittenBy l) {frames : List Frame} {i : Nat} {s : Symbol} (hs : s.IsWrittenIn lines) :
    (a.change frames i s).IsWrittenIn lines := by
  unfold Action.change
  split
  · split
    · exact ⟨hs.declared, hs.assigned⟩
    · exact hs
  · split
    · exact ⟨hs.declared, hs.assigned⟩
    · exact hs
  · next id entry =>
    split
    · refine ⟨hs.declared, fun r hr => ?_⟩
      rcases List.mem_append.mp hr with hr | hr
      · exact hs.assigned r hr
      · obtain rfl := List.mem_singleton.mp hr
        obtain ⟨hline, hwrites⟩ := ha
        exact ⟨l, hmem, hcode, hline.symm, hwrites⟩
    · exact hs
  · exact hs

/-- An action that is written on a line leaves the table written, whether it changes a symbol or
puts one in. -/
theorem IsWrittenIn.perform {c : Collector} (h : c.IsWrittenIn lines) (hmem : l ∈ lines)
    (hcode : l.isCode) {a : Action} (ha : a.IsWrittenBy l) : (c.perform a).IsWrittenIn lines := by
  intro s hs
  obtain ⟨i, hi⟩ := List.mem_iff_getElem?.mp hs
  rcases Nat.lt_or_ge i c.table.symbols.length with hlt | hge
  · -- the symbol was there before
    have hold := List.getElem?_eq_getElem hlt
    have hnew := perform_symbol c a hold
    rw [hi] at hnew
    obtain rfl := Option.some.inj hnew
    exact isWrittenIn_change hmem hcode ha (h _ (List.mem_of_getElem? hold))
  · obtain ⟨name, value, tag, origin, line, rfl, -, rfl⟩ := perform_newSymbol hge hi
    obtain ⟨hline, hwrites⟩ := ha
    exact ⟨⟨l, hmem, hcode, hline.symm, hwrites⟩, fun r hr => by simp [newSymbol] at hr⟩

/-- Reading a line leaves the table written, by `Steps.keeps` over the actions of the line. -/
theorem IsWrittenIn.readLine {c : Collector} (h : c.IsWrittenIn lines) (hmem : l ∈ lines)
    (hcode : l.isCode) : (c.readLine l).IsWrittenIn lines := by
  rw [← performAll_lineActions]
  exact (isWrittenBy_lineActions c l).keeps (fun _ _ hc ha => hc.perform hmem hcode ha) h

/-- Every value in the table of some lines is written on one of them. -/
theorem isWrittenIn_readLines (lines : List Line) : (readLines lines).IsWrittenIn lines := by
  have hrun (ls : List Line) (hls : ∀ l ∈ ls, l ∈ lines ∧ l.isCode) (c : Collector)
      (hc : c.IsWrittenIn lines) : (ls.foldl Collector.readLine c).IsWrittenIn lines := by
    induction ls generalizing c with
    | nil => exact hc
    | cons l ls ih =>
      obtain ⟨hmem, hcode⟩ := hls l List.mem_cons_self
      exact ih (fun k hk => hls k (List.mem_cons_of_mem _ hk)) _ (hc.readLine hmem hcode)
  refine hrun _ (fun l hl => List.mem_filter.mp hl) {} ?_
  intro s hs
  simp at hs

end Collector

/-- **The code lies over the line, and the values are parts of the line.** The code of a line is no
longer than the line and has the same boundaries and characters, but for spaces between double
quotes; it is its own code and that of what it lies over. The ends of its tokens and of the values
behind its equals signs are boundaries of the line. So each value in the table of a document is the
part of a line over its span in the code, without the white space around it. -/
theorem Symbol.Table.values_under_code (lines : List Line) :
    (∀ l : Line, Overlays l.code l.raw ∧
      (∀ t ∈ Token.scan l.code, isBoundary t.offset l.raw ∧ isBoundary t.stop l.raw) ∧
      ∀ assign ∈ Token.scan l.code, assign.assigns →
        isBoundary (Collector.valueStop l.code assign.valueOffset) l.raw ∧
        ∃ value, slice? assign.valueOffset (Collector.valueStop l.code assign.valueOffset) l.raw =
          some value ∧ Collector.initializer l assign.valueOffset = trim value) ∧
    ∀ s ∈ (ofLines lines).symbols, s.IsWrittenIn lines := by
  refine ⟨fun l => ⟨l.overlays_code, fun t ht => Line.isBoundary_token ht,
    fun assign hmem hassigns => ⟨?_, ?_⟩⟩, Collector.isWrittenIn_readLines lines⟩
  · exact (Line.isBoundary_valueStop hmem hassigns).1
  · exact Line.writes_initializer hmem hassigns

/-- A literal with a letter of two bytes, a semicolon and an escaped quote in it, and a comment with
a quote. -/
def accentedLine : Line :=
  ⟨0, 0, "var s = \"é;\\\"\" + 'ü'; // \"".toList⟩

/-- The line, a loop over items, and an assignment. -/
def accentedLines : List Line :=
  [accentedLine, ⟨1, 29, "for (var k in [\"ß\"]) \x7b".toList⟩, ⟨2, 53, "  s = k; \x7d".toList⟩]

/-- The value stops at the semicolon behind it, and not at the one in the literal. -/
theorem Symbol.Table.values_of_accentedLines :
    Collector.valueStop accentedLine.code 7 = 22 ∧ isBoundary 22 accentedLine.raw ∧
    (∃ value, slice? 7 22 accentedLine.raw = some value ∧
      Collector.initializer accentedLine 7 = trim value) ∧
    (ofLines accentedLines).symbols.map
        (fun s => (s.declaredValue, s.reassignments.map (·.value))) =
      [("\"é;\\\"\" + 'ü'".toList, ["k".toList]), ("[\"ß\"]".toList, [])] ∧
    ∀ s ∈ (ofLines accentedLines).symbols, s.IsWrittenIn accentedLines := by
  have hstop : Collector.valueStop accentedLine.code 7 = 22 := by decide +kernel
  obtain ⟨hlines, hwritten⟩ := values_under_code accentedLines
  obtain ⟨-, -, hvalues⟩ := hlines accentedLine
  have hvalue := hvalues ⟨.operator, ['='], 6⟩ (by decide +kernel) (by decide)
  rw [Token.valueOffset, hstop] at hvalue
  exact ⟨hstop, hvalue.1, hvalue.2, by decide +kernel, hwritten⟩

end MacroScript
