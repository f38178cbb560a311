import MacroScript.Completion.Description
import MacroScript.Completion.Offer
import MacroScript.Proofs.Symbol.Growth
import Mathlib.Data.List.Nodup

/-!
# The names that completion offers

Where no point comes before the cursor, the names seen on the line are offered, each once. The list
goes through the symbols in the order of their declaration and keeps the first one of each name,
while the key comes from a search in the other direction, for the last one. Both walks meet in the
name: **the labels are the names seen on the line, and each key leads to the symbol that was
declared last among those of its name** (`names_seen_are_offered`).
-/
namespace MacroScript

/-! ## 1. Each image once -/

section DistinctBy

variable {α β : Type} [BEq β] {f : α → β}

/-- What is left was there before. -/
theorem mem_of_mem_distinctBy {seen : List β} {as : List α} {a : α}
    (h : a ∈ distinctBy f seen as) : a ∈ as := by
  induction as generalizing seen with
  | nil => simp [distinctBy] at h
  | cons b bs ih =>
    rw [distinctBy] at h
    split at h
    · exact List.mem_cons_of_mem b (ih h)
    · rcases List.mem_cons.mp h with rfl | h
      · exact List.mem_cons_self
      · exact List.mem_cons_of_mem b (ih h)

variable [LawfulBEq β]

/-- The images that are left are those that were not seen. Which of the elements with one image is
left is not said, and need not be. -/
theorem mem_map_distinctBy {seen : List β} {as : List α} {b : β} :
    b ∈ (distinctBy f seen as).map f ↔ b ∉ seen ∧ b ∈ as.map f := by
  induction as generalizing seen with
  | nil => simp [distinctBy]
  | cons a as ih =>
    rw [distinctBy]
    by_cases ha : f a ∈ seen
    · rw [if_pos (List.contains_iff_mem.mpr ha), ih, List.map_cons, List.mem_cons]
      constructor
      · rintro ⟨hnew, hmem⟩
        exact ⟨hnew, .inr hmem⟩
      · rintro ⟨hnew, rfl | hmem⟩
        · exact absurd ha hnew
        · exact ⟨hnew, hmem⟩
    · rw [if_neg (fun h => ha (List.contains_iff_mem.mp h)), List.map_cons, List.mem_cons, ih,
        List.mem_cons, List.map_cons, List.mem_cons, not_or]
      constructor
      · rintro (rfl | ⟨⟨-, hnew⟩, hmem⟩)
        · exact ⟨ha, .inl rfl⟩
        · exact ⟨hnew, .inr hmem⟩
      · rintro ⟨hnew, hfirst | hmem⟩
        · exact .inl hfirst
        · by_cases hfirst : b = f a
          · exact .inl hfirst
          · exact .inr ⟨⟨hfirst, hnew⟩, hmem⟩

/-- **No image is left twice**, since each one that is taken is among those seen from then on. -/
theorem nodup_map_distinctBy (seen : List β) (as : List α) :
    ((distinctBy f seen as).map f).Nodup := by
  induction as generalizing seen with
  | nil => exact List.nodup_nil
  | cons a as ih =>
    rw [distinctBy]
    split
    · exact ih seen
    · rw [List.map_cons, List.nodup_cons]
      refine ⟨?_, ih _⟩
      intro hmem
      exact (mem_map_distinctBy.mp hmem).1 List.mem_cons_self

end DistinctBy

/-! ## 2. Variables among the candidates -/

/-- A candidate for a name carries the id of the symbol that the name means on the line. The
candidate is made from the first symbol of its name, and the key from the last. -/
theorem exists_meaning_of_mem_variableCandidates {table : Symbol.Table} {line : Nat}
    {candidate : Candidate} (h : candidate ∈ variableCandidates table line) :
    ∃ s, table.meaningOn candidate.label.toList line = some s ∧
      candidate.key = .symbol Catalogue.variableKey s.id := by
  obtain ⟨seen, hseen, rfl⟩ := List.mem_map.mp h
  have hseen' := List.mem_filter.mp (mem_of_mem_distinctBy hseen)
  -- a name that is seen on the line has a meaning there, if maybe another symbol than the first one
  have hmeant : (table.meaningOn seen.name line).isSome := by
    rw [Symbol.Table.meaningOn, List.find?_isSome]
    exact ⟨seen, List.mem_reverse.mpr hseen'.1, by simp [hseen'.2]⟩
  obtain ⟨s, hs⟩ := Option.isSome_iff_exists.mp hmeant
  refine ⟨s, ?_, ?_⟩
  · simpa using hs
  · simp only [hs]

/-- The labels are the names left when each is taken once. -/
theorem map_label_variableCandidates (table : Symbol.Table) (line : Nat) :
    (variableCandidates table line).map Candidate.label =
      ((distinctBy Symbol.name [] (table.seenOn line)).map Symbol.name).map String.ofList := by
  rw [variableCandidates, List.map_map, List.map_map]
  rfl

/-- A label stands for a name seen on the line, and every such name has one. -/
theorem mem_label_variableCandidates {table : Symbol.Table} {line : Nat} {label : String} :
    label ∈ (variableCandidates table line).map Candidate.label ↔
      ∃ s ∈ table.symbols, s.scope.contains line ∧ String.ofList s.name = label := by
  rw [map_label_variableCandidates, List.mem_map]
  constructor
  · rintro ⟨name, hname, rfl⟩
    obtain ⟨s, hs, rfl⟩ := List.mem_map.mp (mem_map_distinctBy.mp hname).2
    obtain ⟨hmem, hseen⟩ := List.mem_filter.mp hs
    exact ⟨s, hmem, hseen, rfl⟩
  · rintro ⟨s, hmem, hseen, rfl⟩
    refine ⟨s.name, mem_map_distinctBy.mpr ⟨List.not_mem_nil, ?_⟩, rfl⟩
    exact List.mem_map_of_mem (List.mem_filter.mpr ⟨hmem, hseen⟩)

theorem nodup_label_variableCandidates (table : Symbol.Table) (line : Nat) :
    ((variableCandidates table line).map Candidate.label).Nodup := by
  have hnames := nodup_map_distinctBy (f := Symbol.name) [] (table.seenOn line)
  rw [map_label_variableCandidates]
  refine List.Nodup.map ?_ hnames
  intro name name' h
  exact String.ofList_injective h

/-- Every candidate for a name is a variable. By this they can be told from the other candidates. -/
theorem kind_of_mem_variableCandidates {table : Symbol.Table} {line : Nat} {candidate : Candidate}
    (h : candidate ∈ variableCandidates table line) : candidate.kind = .variable := by
  obtain ⟨s, -, rfl⟩ := List.mem_map.mp h
  rfl

theorem kind_ne_variable_of_mem_members {tag : Tag} {member : String × Candidate.Kind}
    (h : member ∈ Catalogue.members tag) : member.2 ≠ .variable := by
  rw [Catalogue.members, List.mem_append, List.mem_map, List.mem_map] at h
  rcases h with ⟨name, -, rfl⟩ | ⟨name, -, rfl⟩ <;> simp

/-- No member of a value is a variable. -/
theorem kind_ne_variable_of_mem_memberCandidates {tag : Tag} {candidate : Candidate}
    (h : candidate ∈ memberCandidates tag) : candidate.kind ≠ .variable := by
  unfold memberCandidates at h
  split at h
  · obtain ⟨⟨tag', member⟩, hmember, rfl⟩ := List.mem_map.mp h
    obtain ⟨tag'', -, hmember⟩ := List.mem_flatMap.mp (mem_of_mem_distinctBy hmember)
    obtain ⟨member', hmember', heq⟩ := List.mem_map.mp hmember
    obtain ⟨rfl, rfl⟩ := Prod.mk.inj heq
    exact kind_ne_variable_of_mem_members hmember'
  · obtain ⟨member, hmember, rfl⟩ := List.mem_map.mp h
    exact kind_ne_variable_of_mem_members hmember

/-- Among the names offered on a line only the declared ones are variables: functions, classes and
built-in names have other kinds. -/
theorem filter_variable_nameCandidates (table : Symbol.Table) (line : Nat) :
    (nameCandidates table line).filter (fun candidate => candidate.kind = .variable) =
      variableCandidates table line := by
  have hvariables : (variableCandidates table line).filter
      (fun candidate => candidate.kind = .variable) = variableCandidates table line := by
    rw [List.filter_eq_self]
    intro candidate hmem
    exact decide_eq_true (kind_of_mem_variableCandidates hmem)
  have hothers : (functionCandidates table ++ classCandidates table ++ builtInCandidates).filter
      (fun candidate => candidate.kind = .variable) = [] := by
    rw [List.filter_eq_nil_iff]
    intro candidate hmem hkind
    simp only [functionCandidates, classCandidates, builtInCandidates, Candidate.ofCatalogue,
      List.mem_append, List.mem_cons, List.mem_map] at hmem
    rcases hmem with (⟨name, -, rfl⟩ | ⟨name, -, rfl⟩) |
      ((rfl | ⟨name, -, rfl⟩) | ⟨name, -, rfl⟩) | ⟨name, -, rfl⟩
    all_goals simp at hkind
  rw [nameCandidates, List.append_assoc, List.append_assoc, List.filter_append, hvariables,
    ← List.append_assoc, hothers, List.append_nil]

/-- **A variable that is offered stands for the symbol that its label means on the line.** After a
point members are offered, and no member is a variable. -/
theorem exists_meaning_of_mem_complete {t : Text} {p : Position} {table : Symbol.Table}
    {candidate : Candidate} (h : candidate ∈ complete t p table)
    (hkind : candidate.kind = .variable) :
    ∃ s, table.meaningOn candidate.label.toList p.line.toNat = some s ∧
      candidate.key = .symbol Catalogue.variableKey s.id := by
  unfold complete at h
  split at h
  · simp at h
  · split at h
    · unfold candidatesAfter at h
      dsimp only at h
      split at h
      · exact absurd hkind (kind_ne_variable_of_mem_memberCandidates h)
      · apply exists_meaning_of_mem_variableCandidates
        rw [← filter_variable_nameCandidates]
        exact List.mem_filter.mpr ⟨h, decide_eq_true hkind⟩
    · simp at h

/-! ## 3. Symbols by their ids -/

/-- What a name means is one of the symbols, and has that name. -/
theorem Symbol.Table.mem_of_meaningOn {table : Symbol.Table} {name : Text} {line : Nat} {s : Symbol}
    (h : table.meaningOn name line = some s) : s ∈ table.symbols ∧ s.name = name := by
  have hfound := List.find?_some h
  rw [Bool.and_eq_true, beq_iff_eq] at hfound
  exact ⟨List.mem_reverse.mp (List.mem_of_find?_eq_some h), hfound.1⟩

/-- In the table of a document a symbol is found under its id, since ids are handed out in the order
of the table. -/
theorem Symbol.Table.get?_id_of_mem {t : Text} {s : Symbol} (h : s ∈ (ofText t).symbols) :
    (ofText t).get? s.id = some s :=
  (Collector.wellFormed_readLines (Line.ofText t)).getElem?_id h

/-- **The key of an offered variable leads to the symbol that its label means on the line.** The
key holds the id of that symbol, and in the table of a document an id is a place, so what is found
there is the symbol itself, with the name that the label shows. -/
theorem description_of_mem_complete {t analysed : Text} {p : Position} {candidate : Candidate}
    (h : candidate ∈ complete t p (Symbol.Table.ofText analysed))
    (hkind : candidate.kind = .variable) :
    ∃ s, (Symbol.Table.ofText analysed).meaningOn candidate.label.toList p.line.toNat = some s ∧
      s.name = candidate.label.toList ∧
      Description.ofKey candidate.key (Symbol.Table.ofText analysed) = Description.ofSymbol s := by
  obtain ⟨s, hs, hkey⟩ := exists_meaning_of_mem_complete h hkind
  obtain ⟨hmem, hname⟩ := Symbol.Table.mem_of_meaningOn hs
  refine ⟨s, hs, hname, ?_⟩
  simp only [hkey, Description.ofKey, Symbol.Table.get?_id_of_mem hmem]

/-! ## 4. What is offered where no point comes before -/

/-- Without a point before it, the word being typed is completed by names. -/
theorem complete_of_bare {t : Text} {p : Position} {before : Text}
    (hbefore : t.before? p = some before) (hoffers : offersAfter before)
    (hbare : (Text.dropEndWhile isNameChar before).getLast? ≠ some '.') (table : Symbol.Table) :
    complete t p table = nameCandidates table p.line.toNat := by
  simp only [complete, hbefore, hoffers, if_true, candidatesAfter]
  rw [if_neg hbare]

/-- What a name means on the line was declared last among the symbols of that name seen there. The
search starts at the end of the table, and ids grow along it. -/
theorem Symbol.Table.id_le_of_meaningOn {t name : Text} {line : Nat} {s : Symbol}
    (h : (ofText t).meaningOn name line = some s) :
    s.scope.contains line ∧
      ∀ s' ∈ (ofText t).symbols, s'.name = name → s'.scope.contains line → s'.id ≤ s.id := by
  have hfound := List.find?_some h
  rw [Bool.and_eq_true] at hfound
  refine ⟨hfound.2, ?_⟩
  intro s' hs' hname hseen
  apply (Collector.wellFormed_readLines (Line.ofText t)).id_le_of_find? h s' hs'
  rw [Bool.and_eq_true, beq_iff_eq]
  exact ⟨hname, hseen⟩

/-- **Where no point comes before the cursor, exactly the names seen on the line are offered, each
for the symbol declared last.** Whatever text the table is from, and whatever text is completed: the
variables among the candidates come first and no two have the same label; their labels are the names
of the symbols seen on the line; and the key of each is the id of the symbol that was declared last
among those of its name seen there, so that it is described by this symbol. After the variables come
the functions of the table and then its classes, in the order of their registration. -/
theorem names_seen_are_offered (analysed t : Text) (p : Position) (before : Text)
    (hbefore : t.before? p = some before) (hoffers : offersAfter before)
    (hbare : (Text.dropEndWhile isNameChar before).getLast? ≠ some '.') :
    ∃ names functions classes others,
      complete t p (Analysis.ofText analysed).table =
        names ++ functions ++ classes ++ others ∧
      (complete t p (Analysis.ofText analysed).table).filter (·.kind = .variable) = names ∧
      (names.map Candidate.label).Nodup ∧
      (∀ label, label ∈ names.map Candidate.label ↔
        ∃ s ∈ (Analysis.ofText analysed).table.symbols,
          s.scope.contains p.line.toNat ∧ String.ofList s.name = label) ∧
      (∀ candidate ∈ names, ∃ s,
        candidate.key = .symbol Catalogue.variableKey s.id ∧
        (Analysis.ofText analysed).table.get? s.id = some s ∧
        String.ofList s.name = candidate.label ∧ s.scope.contains p.line.toNat ∧
        (∀ s' ∈ (Analysis.ofText analysed).table.symbols, s'.name = s.name →
          s'.scope.contains p.line.toNat → s'.id ≤ s.id) ∧
        Description.ofKey candidate.key (Analysis.ofText analysed).table =
          Description.ofSymbol s) ∧
      functions.map (fun candidate => (candidate.label, candidate.kind)) =
        (Analysis.ofText analysed).table.functions.map
          (fun name => (String.ofList name, .function)) ∧
      classes.map (fun candidate => (candidate.label, candidate.kind)) =
        (Analysis.ofText analysed).table.classes.map
          (fun name => (String.ofList name, .classDefinition)) := by
  have htable : (Analysis.ofText analysed).table = Symbol.Table.ofText analysed := rfl
  rw [complete_of_bare hbefore hoffers hbare, filter_variable_nameCandidates, htable]
  refine ⟨_, _, _, _, rfl, rfl, nodup_label_variableCandidates _ _,
    fun label => mem_label_variableCandidates, ?_, ?_, ?_⟩
  · intro candidate hmem
    -- a label is offered for what the name means on the line, and of the symbols that are seen
    -- there it means the one with the largest id
    obtain ⟨s, hmeant, hkey⟩ := exists_meaning_of_mem_variableCandidates hmem
    obtain ⟨hs, hname⟩ := Symbol.Table.mem_of_meaningOn hmeant
    obtain ⟨hseen, hlargest⟩ := Symbol.Table.id_le_of_meaningOn hmeant
    have hget := Symbol.Table.get?_id_of_mem hs
    refine ⟨s, hkey, hget, ?_, hseen, ?_, ?_⟩
    · rw [hname, String.ofList_toList]
    · intro s' hs' hname' hseen'
      exact hlargest s' hs' (hname'.trans hname) hseen'
    · rw [hkey, Description.ofKey, hget]
  · rw [functionCandidates, List.map_map]
    rfl
  · rw [classCandidates, List.map_map]
    rfl

/-- A variable under a parameter of its name, with a function and a class. -/
def shadowedText : Text :=
  "var n = 1;\nfun f(n, m) \x7b\n\n\x7d\nclass C() \x7b\n\x7d".toList

/-- The same document while a name is being typed in the function. -/
def typedText : Text :=
  "var n = 1;\nfun f(n, m) \x7b\n  n\n\x7d".toList

/-- In the function the name is offered once, for the parameter. -/
theorem parameter_offered_in_function :
    typedText.before? ⟨2, 3⟩ = some "  n".toList ∧ offersAfter "  n".toList ∧
    (Text.dropEndWhile isNameChar "  n".toList).getLast? ≠ some '.' ∧
    ∃ candidate ∈ complete typedText ⟨2, 3⟩ (Analysis.ofText shadowedText).table,
      candidate.label = "n" ∧ candidate.key = .symbol Catalogue.variableKey 1 ∧
      ∃ s, (Analysis.ofText shadowedText).table.get? 1 = some s ∧ s.origin = .parameter ∧
        Description.ofKey candidate.key (Analysis.ofText shadowedText).table =
          Description.ofSymbol s := by
  have hbefore : typedText.before? ⟨2, 3⟩ = some "  n".toList := by decide +kernel
  have hoffers : offersAfter "  n".toList := by decide +kernel
  have hbare : (Text.dropEndWhile isNameChar "  n".toList).getLast? ≠ some '.' := by
    decide +kernel
  obtain ⟨names, functions, classes, others, hcomplete, -, -, hlabels, hkeys, -, -⟩ :=
    names_seen_are_offered shadowedText typedText ⟨2, 3⟩ _ hbefore hoffers hbare
  have hlabel : "n" ∈ names.map Candidate.label := (hlabels "n").mpr (by decide +kernel)
  obtain ⟨candidate, hmem, hcandidate⟩ := List.mem_map.mp hlabel
  obtain ⟨s, hkey, hget, hname, -, hlargest, hdescribed⟩ := hkeys candidate hmem
  have hmember : s ∈ (Analysis.ofText shadowedText).table.symbols := List.mem_of_getElem? hget
  -- the two symbols of the name are known, and both are seen in the function
  have hknown : ∀ s ∈ (Analysis.ofText shadowedText).table.symbols,
      String.ofList s.name = "n" → s.name = ['n'] ∧ s.id ≤ 1 := by
    decide +kernel
  have hparameter : ∃ s' ∈ (Analysis.ofText shadowedText).table.symbols,
      s'.id = 1 ∧ s'.name = ['n'] ∧ s'.scope.contains 2 := by
    decide +kernel
  have horigin : ((Analysis.ofText shadowedText).table.get? 1).map Symbol.origin =
      some .parameter := by
    decide +kernel
  obtain ⟨hn, hle⟩ := hknown s hmember (hname.trans hcandidate)
  obtain ⟨s', hs', hid', hn', hseen'⟩ := hparameter
  have hge := hlargest s' hs' (hn'.trans hn.symm) hseen'
  have hid : s.id = 1 := by omega
  rw [hid] at hget hkey
  rw [hget, Option.map_some, Option.some.injEq] at horigin
  refine ⟨hbefore, hoffers, hbare, candidate, ?_, hcandidate, hkey, s, hget, horigin, hdescribed⟩
  rw [hcomplete]
  simp [hmem]

end MacroScript
