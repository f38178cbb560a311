import MacroScript.Proofs.Symbol.Alias
import MacroScript.Proofs.Symbol.Outermost

/-!
# Open names

A declaration looks for an open symbol of its name first, and is put in only if there is none. A
parameter is put in without looking. So a name can have any number of open symbols, but **all of
them except the first are parameters** (`ParametersFollow`), and the first is the only one that can
be a variable.

The invariant is carried by a restriction on what is put in (`Selective`). Closing a frame only
takes symbols away from the open ones, and no other action changes a name, an origin or a scope.
-/
namespace MacroScript

/-- The open symbols of a name, in the order of their declaration. A symbol is open if its scope is
global or has no end yet. -/
def Symbol.Table.openSymbols (table : Symbol.Table) (name : Text) : List Symbol :=
  table.symbols.filter fun s => s.name == name && s.scope.isOpen

theorem Symbol.Table.mem_openSymbols {table : Symbol.Table} {name : Text} {s : Symbol} :
    s ∈ table.openSymbols name ↔ s ∈ table.symbols ∧ s.name = name ∧ s.scope.isOpen := by
  rw [openSymbols, List.mem_filter, Bool.and_eq_true, beq_iff_eq]

/-- A name without a latest open symbol has no open symbol at all, as the search for it passes over
none. -/
theorem Symbol.Table.latestOpen_eq_none_iff {table : Symbol.Table} {name : Text} :
    table.latestOpen name = none ↔ table.openSymbols name = [] := by
  rw [latestOpen, openSymbols, List.find?_eq_none, List.filter_eq_nil_iff]
  simp only [List.mem_reverse]

/-- What is open after a symbol has grown was open before: scopes are closed and never opened again.
-/
theorem Scope.Becomes.isOpen {scope scope' : Scope} (h : scope.Becomes scope')
    (hopen : scope'.isOpen) : scope.isOpen := by
  cases h with
  | same => exact hopen
  | closed start line => contradiction

namespace Collector

/-! ## 1. What is put in -/

/-- Of two open symbols with one name, the later is a parameter. The places in the list are the
order in which the symbols were put in. -/
def ParametersFollow (c : Collector) : Prop :=
  c.table.symbols.Pairwise fun s s' =>
    s.name = s'.name → s.scope.isOpen → s'.scope.isOpen → s'.origin = .parameter

/-- The action puts in nothing but parameters and names of which no symbol is open. This is what the
check before a declaration comes to. -/
def Selective (c : Collector) (a : Action) : Prop :=
  ∀ name value tag origin line, a = .insert name value tag origin line →
    origin = .parameter ∨ c.table.latestOpen name = none

/-- **Every selective action keeps the order of parameters.** Symbols that were there have at most
been closed since, and one that is put in is a parameter or has no open symbol of its name before
it. -/
theorem ParametersFollow.perform {c : Collector} (hc : c.WellFormed) (h : c.ParametersFollow)
    {a : Action} (ha : c.Selective a) : (c.perform a).ParametersFollow := by
  have hgrowth : c.table.GrowsTo (fun _ => True) (c.perform a).table :=
    hc.growsTo_perform fun _ _ => trivial
  -- what stands at an old place has grown from what stood there
  have hold (i : Nat) (hi : i < c.table.symbols.length)
      (hi' : i < (c.perform a).table.symbols.length) :
      c.table.symbols[i].GrowsTo (fun _ => True) (c.perform a).table.symbols[i] := by
    obtain ⟨s', hs', hgrows⟩ := hgrowth.symbols i _ (List.getElem?_eq_getElem hi)
    rw [List.getElem?_eq_getElem hi', Option.some.injEq] at hs'
    rwa [hs']
  unfold ParametersFollow at h ⊢
  rw [List.pairwise_iff_getElem] at h ⊢
  intro i j hi hj hij hname hopen hopen'
  by_cases hlt : j < c.table.symbols.length
  · have hfirst := hold i (by omega) hi
    have hsecond := hold j hlt hj
    rw [hsecond.origin]
    apply h i j (by omega) hlt hij
    · rw [← hfirst.name, ← hsecond.name]
      exact hname
    · exact hfirst.scope.isOpen hopen
    · exact hsecond.scope.isOpen hopen'
  · -- the later of the two is put in by the action, with the other one open
    obtain ⟨name, value, tag, origin, line, rfl, hplace, hnew⟩ :=
      perform_newSymbol (Nat.le_of_not_lt hlt) (List.getElem?_eq_getElem hj)
    have hfirst := hold i (by omega) hi
    rw [hnew] at hname ⊢
    rcases ha name value tag origin line rfl with hparameter | hnone
    · exact hparameter
    · exfalso
      have hmem : c.table.symbols[i] ∈ c.table.symbols := List.getElem_mem _
      apply Symbol.Table.latestOpen_ne_none hmem (hfirst.scope.isOpen hopen)
      rw [← hfirst.name, hname]
      exact hnone

/-! ## 2. Every line is selective -/

/-- An action that puts nothing in is selective for that reason alone. -/
theorem selective_of_not_isInsert {c : Collector} {a : Action} (h : a.isInsert = false) :
    c.Selective a := by
  rintro name value tag origin line rfl
  contradiction

/-- What a token puts in are the parameters of a header. -/
theorem TokenStep.selective {line : Nat} {c : Collector} {a : Action} (h : TokenStep line c a) :
    c.Selective a := by
  cases h with
  | parameter name frame frames hframes hopened =>
    intro name' value' tag' origin' line' heq
    obtain ⟨-, -, -, rfl, -⟩ := Action.insert.inj heq
    exact .inl rfl
  | _ => exact selective_of_not_isInsert rfl

/-- A `var` or `for` puts its name in only if no symbol of that name is open, and otherwise retags
the latest one. -/
theorem selective_statementActions (c : Collector) (l : Line) (first : Token)
    (tokens : List Token) : Steps Selective c (c.statementActions l first tokens) := by
  rcases statementActions_cases c l first tokens with hnil | ⟨a, hone, -⟩
  · rw [hnil]
    exact .nil c
  · rw [hone]
    apply Steps.single
    intro name value tag origin line hinsert
    have hmem : .insert name value tag origin line ∈ c.statementActions l first tokens := by
      rw [hone, hinsert]
      exact List.mem_singleton_self _
    exact .inr (latestOpen_of_mem_statementActions hmem)

/-- All actions of a line are selective: those of its tokens, the expiry, and its statement. -/
theorem selective_lineActions (c : Collector) (l : Line) : Steps Selective c (c.lineActions l) := by
  unfold lineActions
  split
  · exact .nil c
  · next first rest hscan =>
    refine Steps.append ?_ (selective_statementActions _ l first _)
    rw [frameActions_eq]
    refine Steps.append ?_ ?_
    · exact (steps_nestActions c l first rest).imp fun _ _ => TokenStep.selective
    · unfold expiryActions
      split
      · split
        · exact Steps.single (selective_of_not_isInsert rfl)
        · exact .nil _
      · exact .nil _

/-- So are those of any lines, from any state. -/
theorem selective_actionsFrom (c : Collector) (ls : List Line) :
    Steps Selective c (c.actionsFrom ls) := by
  induction ls generalizing c with
  | nil => exact .nil c
  | cons l ls ih =>
    refine (selective_lineActions c l).append ?_
    rw [performAll_lineActions]
    exact ih _

/-- **At every moment all open symbols of a name but the first are parameters.** The actions up to a
moment are the first part of a run of selective ones. -/
theorem parametersFollow_moment (lines : List Line) (n : Nat) :
    (moment lines n).ParametersFollow := by
  have hsteps : Steps Selective {} ((actions lines).take n) := by
    have hall : Steps Selective {} ((actions lines).take n ++ (actions lines).drop n) := by
      rw [List.take_append_drop]
      exact selective_actionsFrom {} _
    exact hall.of_append
  have hkeeps := hsteps.keeps (P := fun c => c.WellFormed ∧ c.ParametersFollow)
    (fun c a hc ha => ⟨hc.1.perform a, hc.2.perform hc.1 ha⟩) ⟨wellFormed_empty, .nil⟩
  exact hkeeps.2

/-- The order of parameters, told by ids: an open symbol that is no parameter comes before all
others of its name. -/
theorem ParametersFollow.id_le {c : Collector} (hc : c.WellFormed) (h : c.ParametersFollow)
    {name : Text} {s s' : Symbol} (hs : s ∈ c.table.openSymbols name)
    (hs' : s' ∈ c.table.openSymbols name) (horigin : s.origin ≠ .parameter) : s.id ≤ s'.id := by
  obtain ⟨hmem, hname, hopen⟩ := Symbol.Table.mem_openSymbols.mp hs
  obtain ⟨hmem', hname', hopen'⟩ := Symbol.Table.mem_openSymbols.mp hs'
  obtain ⟨hi, hget⟩ := List.getElem?_eq_some_iff.mp (hc.getElem?_id hmem)
  obtain ⟨hi', hget'⟩ := List.getElem?_eq_some_iff.mp (hc.getElem?_id hmem')
  by_contra hlt
  unfold ParametersFollow at h
  rw [List.pairwise_iff_getElem] at h
  have hlater := h s'.id s.id hi' hi (by omega)
  rw [hget, hget'] at hlater
  exact horigin (hlater (hname'.trans hname.symm) hopen' hopen)

/-! ## 3. What a line declares -/

/-- What the line declares, if it starts with `var` or `for`. It is told in the state in which the
statement of the line is read, since the type of a value depends on what can be seen there. -/
def declared? (c : Collector) (l : Line) : Option Declared :=
  match Token.scan l.code with
  | [] => none
  | first :: rest =>
    if first.isWord "var" then c.declaredVariable? l first (first :: rest)
    else if first.isWord "for" then c.declaredLoopVariable? l (first :: rest)
    else none

/-- A line that declares something is read by declaring it. -/
theorem readLine_of_declared {c : Collector} {l : Line} {d : Declared}
    (h : (c.settled l).declared? l = some d) :
    c.readLine l = (c.settled l).declare d.name d.value d.tag d.origin l.index := by
  cases hscan : Token.scan l.code with
  | nil =>
    simp only [declared?, hscan] at h
    contradiction
  | cons first rest =>
    simp only [declared?, hscan] at h
    rw [readLine_eq c hscan, readStatement]
    split at h
    · next hvar =>
      rw [if_pos hvar, h, declareFound]
    · next hvar =>
      split at h
      · next hfor =>
        rw [if_neg hvar, if_pos hfor, h, declareFound]
      · contradiction

/-- An assignment adds no symbol. -/
theorem length_recordAssignment (c : Collector) (l : Line) (tokens : List Token) :
    (c.recordAssignment l tokens).table.symbols.length = c.table.symbols.length := by
  fun_cases recordAssignment c l tokens with
  | case2 => exact List.length_modify _ _ _
  | _ => rfl

/-- A line that declares nothing adds no symbol by its statement. -/
theorem length_readLine_of_declared {c : Collector} {l : Line} (hcode : l.isCode)
    (h : (c.settled l).declared? l = none) :
    (c.readLine l).table.symbols.length = (c.settled l).table.symbols.length := by
  obtain ⟨first, rest, hscan⟩ := Line.exists_scan_of_isCode hcode
  simp only [declared?, hscan] at h
  rw [readLine_eq c hscan, readStatement]
  split at h
  · next hvar =>
    rw [if_pos hvar, h, declareFound]
  · next hvar =>
    rw [if_neg hvar]
    split at h
    · next hfor =>
      rw [if_pos hfor, h, declareFound]
    · next hfor =>
      rw [if_neg hfor, length_recordAssignment]

/-- The state in which the statement of a line is read is a moment of the reading, so that what
holds at every moment holds when a line declares something. -/
theorem exists_moment_eq_settled (before more : List Line) {l : Line} (hcode : l.isCode) :
    ∃ n, moment (before ++ l :: more) n = (readLines before).settled l := by
  obtain ⟨first, rest, hscan⟩ := Line.exists_scan_of_isCode hcode
  have hactions : actions (before ++ l :: more) =
      (actions before ++ (readLines before).frameActions l first rest) ++
        (((readLines before).settled l).statementActions l first (first :: rest) ++
          ((readLines before).readLine l).actionsFrom (more.filter Line.isCode)) := by
    rw [actions_append, List.filter_cons_of_pos hcode, actionsFrom, lineActions, hscan]
    simp only [performAll_frameActions _ hscan, List.append_assoc]
  refine ⟨(actions before ++ (readLines before).frameActions l first rest).length, ?_⟩
  rw [moment, hactions, List.take_left, performAll_append, performAll_actions,
    performAll_frameActions _ hscan]

/-- **A declaration of an open name only retags the latest symbol of that name.** The symbol is in
the place that its id names, so that the change by id is a change of that symbol and no other. -/
theorem WellFormed.declare_of_open {c : Collector} (h : c.WellFormed) {name : Text}
    (hopen : c.table.openSymbols name ≠ []) (value : Text) (tag : Tag) (origin : Origin)
    (line : Nat) :
    ∃ s ∈ c.table.openSymbols name, (∀ s' ∈ c.table.openSymbols name, s'.id ≤ s.id) ∧
      c.declare name value tag origin line =
        { c with
          table :=
            { c.table with
              symbols := c.table.symbols.set s.id
                { s with tag := tag, redeclaredLine := some line } } } := by
  cases hlatest : c.table.latestOpen name with
  | none => exact absurd (Symbol.Table.latestOpen_eq_none_iff.mp hlatest) hopen
  | some s =>
    have hmem : s ∈ c.table.symbols := List.mem_reverse.mp (List.mem_of_find?_eq_some hlatest)
    have hfound := List.find?_some hlatest
    rw [Bool.and_eq_true, beq_iff_eq] at hfound
    refine ⟨s, Symbol.Table.mem_openSymbols.mpr ⟨hmem, hfound⟩, ?_, ?_⟩
    · intro s' hs'
      obtain ⟨hmem', hname', hopen'⟩ := Symbol.Table.mem_openSymbols.mp hs'
      apply h.id_le_of_find? hlatest s' hmem'
      rw [Bool.and_eq_true, beq_iff_eq]
      exact ⟨hname', hopen'⟩
    · simp only [declare, hlatest, Symbol.Table.modifySymbol]
      rw [h.modify_of_find? hlatest]

/-! ## 4. Open names are unique up to parameters -/

/-- **Open names are unique up to parameters, at every moment of every reading.** Of the open
symbols of a name at most one is no parameter, and it has the smallest id of them. What a `var` or
`for` line declares is declared at such a moment. If the name is open there, no symbol is added: the
one with the largest id gets the new tag and the line, and everything else stays. -/
theorem open_names_unique_up_to_parameters (lines : List Line) :
    (∀ (n : Nat) (name : Text), ∀ s ∈ (moment lines n).table.openSymbols name,
      s.origin ≠ .parameter → ∀ s' ∈ (moment lines n).table.openSymbols name,
        s.id ≤ s'.id ∧ (s'.origin ≠ .parameter → s' = s)) ∧
    ∀ (before : List Line) (l : Line) (more : List Line) (c c' : Collector),
      lines = before ++ l :: more → l.isCode → c = (readLines before).settled l →
      c' = readLines (before ++ [l]) →
      (∃ n, moment lines n = c) ∧
      (c.declared? l = none → c'.table.symbols.length = c.table.symbols.length) ∧
      ∀ d, c.declared? l = some d →
        c' = c.declare d.name d.value d.tag d.origin l.index ∧
        (c.table.openSymbols d.name ≠ [] →
          ∃ s ∈ c.table.openSymbols d.name, (∀ s' ∈ c.table.openSymbols d.name, s'.id ≤ s.id) ∧
            c' = { c with
              table := { c.table with
                symbols := c.table.symbols.set s.id
                  { s with tag := d.tag, redeclaredLine := some l.index } } }) := by
  constructor
  · intro n name s hs horigin s' hs'
    have hc := (nested_moment lines n).wellFormed
    have hfollow := parametersFollow_moment lines n
    have hle : s.id ≤ s'.id := hfollow.id_le hc hs hs' horigin
    refine ⟨hle, ?_⟩
    intro horigin'
    -- neither is a parameter, so each comes before the other
    have hge : s'.id ≤ s.id := hfollow.id_le hc hs' hs horigin'
    have hplace := hc.getElem?_id (Symbol.Table.mem_openSymbols.mp hs).1
    have hplace' := hc.getElem?_id (Symbol.Table.mem_openSymbols.mp hs').1
    rw [Nat.le_antisymm hge hle, hplace, Option.some.injEq] at hplace'
    exact hplace'.symm
  · rintro before l more c c' rfl hcode hc rfl
    -- the line declares after the headers without braces are closed, which is a moment of the
    -- reading
    obtain ⟨n, hn⟩ := exists_moment_eq_settled before more hcode
    have hformed : c.WellFormed := by
      rw [hc, ← hn]
      exact (nested_moment (before ++ l :: more) n).wellFormed
    rw [readLines_concat before hcode, hc]
    rw [hc] at hformed
    refine ⟨⟨n, hn⟩, length_readLine_of_declared hcode, ?_⟩
    intro d hd
    have hread := readLine_of_declared hd
    refine ⟨hread, ?_⟩
    intro hopen
    rw [hread]
    exact hformed.declare_of_open hopen d.value d.tag d.origin l.index

/-- A variable under two parameters of its name. -/
def twiceShadowed : List Line :=
  [⟨0, 0, "var x = 1;".toList⟩, ⟨1, 11, "fun f(x, x) \x7b".toList⟩]

/-- A line below them that declares the name again. -/
def redeclaration : Line := ⟨2, 25, "\tvar x = \"a\";".toList⟩

theorem inner_parameter_redeclared :
    (((readLines twiceShadowed).settled redeclaration).table.openSymbols ['x']).map
        (fun s => (s.id, s.origin)) = [(0, .variable), (1, .parameter), (2, .parameter)] ∧
    ((readLines twiceShadowed).settled redeclaration).declared? redeclaration =
      some ⟨['x'], "\"a\"".toList, .string, .variable⟩ ∧
    ∃ s : Symbol, s.id = 2 ∧
      readLines (twiceShadowed ++ [redeclaration]) =
        { (readLines twiceShadowed).settled redeclaration with
          table := { ((readLines twiceShadowed).settled redeclaration).table with
            symbols := ((readLines twiceShadowed).settled redeclaration).table.symbols.set s.id
              { s with tag := .string, redeclaredLine := some 2 } } } := by
  have hopen : (((readLines twiceShadowed).settled redeclaration).table.openSymbols ['x']).map
      (fun s => (s.id, s.origin)) = [(0, .variable), (1, .parameter), (2, .parameter)] := by
    decide +kernel
  have hdeclared : ((readLines twiceShadowed).settled redeclaration).declared? redeclaration =
      some ⟨['x'], "\"a\"".toList, .string, .variable⟩ := by
    decide +kernel
  obtain ⟨-, -, hdeclares⟩ := (open_names_unique_up_to_parameters
    (twiceShadowed ++ [redeclaration])).2 twiceShadowed redeclaration [] _ _ rfl
    (by decide +kernel) rfl rfl
  obtain ⟨s, hs, hlargest, hread⟩ := (hdeclares _ hdeclared).2 (by decide +kernel)
  refine ⟨hopen, hdeclared, s, ?_, hread⟩
  -- the ids of the open symbols are known, and none of them is larger
  have hids : ∀ s ∈ ((readLines twiceShadowed).settled redeclaration).table.openSymbols ['x'],
      s.id ≤ 2 := by
    decide +kernel
  have htwo : ∃ s ∈ ((readLines twiceShadowed).settled redeclaration).table.openSymbols ['x'],
      s.id = 2 := by
    decide +kernel
  obtain ⟨s', hs', hid⟩ := htwo
  have hle := hlargest s' hs'
  have hge := hids s hs
  omega

end Collector

end MacroScript
