import MacroScript.Symbol.Collector
import Mathlib.Data.List.Basic

/-!
# The reader's actions

Reading a line changes the collector step by step: frames are opened and closed, a header takes its
brace, symbols are put in, retagged and assigned to. Here every line is taken apart into these
*actions*, in the order in which the reader comes to them, so that a statement can be made about the
state **after each of them** and not only at the end of a line.

What an action can do is said once, by `perform_symbol` for the symbols that are there and by
`perform_newSymbol` for the one that an action may add. The actions of a line, performed, are the
reading of the line (`performAll_lineActions`), so a fact about them is one about the reader.
-/
namespace MacroScript

namespace Collector

/-! ## 1. Actions -/

/-- One change that the reader makes. These are all: whatever a line does to the frames and the
table is a list of such changes. -/
inductive Action where
  /-- Open a frame on the line. -/
  | openFrame (kind : Frame.Kind) (line : Nat) (awaitsBrace : Bool)
  /-- Close the innermost frame on the line. -/
  | closeFrame (line : Nat)
  /-- Give the innermost frame the brace that it waits for. -/
  | takeBrace
  /-- Register the name of a header. -/
  | register (kind : Frame.Kind) (name : Text)
  /-- Put in a new symbol. -/
  | insert (name value : Text) (tag : Tag) (origin : Origin) (line : Nat)
  /-- Give a symbol the tag of its re-declaration on the line. -/
  | retag (id : Nat) (tag : Tag) (line : Nat)
  /-- Add an assignment to a symbol. -/
  | assign (id : Nat) (entry : Reassignment)
deriving DecidableEq, Repr

/-- The collector after an action. Each case is what the reader's own function does at that point,
so that no action is more than a name for it. -/
def perform (c : Collector) : Action → Collector
  | .openFrame kind line awaits => c.openFrame kind line awaits
  | .closeFrame line => c.closeFrame line
  | .takeBrace =>
    match c.frames with
    | [] => c
    | frame :: frames => { c with frames := { frame with awaitsBrace := false } :: frames }
  | .register kind name => c.registerHeader kind name
  | .insert name value tag origin line => c.insert name value tag origin line
  | .retag id tag line =>
    { c with
      table := c.table.modifySymbol id fun s => { s with tag := tag, redeclaredLine := some line } }
  | .assign id entry =>
    { c with
      table := c.table.modifySymbol id fun s =>
        { s with reassignments := s.reassignments ++ [entry] } }

/-- The collector after actions, one after the other. -/
def performAll (c : Collector) (actions : List Action) : Collector :=
  actions.foldl perform c

@[simp] theorem performAll_nil (c : Collector) : c.performAll [] = c := rfl

@[simp] theorem performAll_cons (c : Collector) (a : Action) (as : List Action) :
    c.performAll (a :: as) = (c.perform a).performAll as := rfl

@[simp] theorem performAll_append (c : Collector) (as bs : List Action) :
    c.performAll (as ++ bs) = (c.performAll as).performAll bs :=
  List.foldl_append

/-! ## 2. What an action does to the symbols -/

/-- Ending the scopes of some ids ends that of each symbol whose place is among them, and leaves the
others as they are. -/
theorem endScopes_getElem? (line : Nat) (ids : List Nat) (table : Symbol.Table) (i : Nat) :
    (endScopes line ids table).symbols[i]? =
      table.symbols[i]?.map fun s =>
        if i ∈ ids then { s with scope := s.scope.closeAt line } else s := by
  induction ids generalizing table with
  | nil => simp [endScopes]
  | cons id ids ih =>
    have hstep : endScopes line (id :: ids) table =
        endScopes line ids
          (table.modifySymbol id fun s => { s with scope := s.scope.closeAt line }) := rfl
    rw [hstep, ih, Symbol.Table.modifySymbol, List.getElem?_modify, Option.map_eq_map,
      Option.map_map]
    congr 1
    funext s
    -- closing twice on one line is closing once, so it does not matter if `i` comes again
    have htwice : (s.scope.closeAt line).closeAt line = s.scope.closeAt line := by
      cases s.scope <;> rfl
    by_cases hid : id = i
    · by_cases hmem : i ∈ ids <;> simp [hid, hmem, htwice]
    · by_cases hmem : i ∈ ids <;> simp [hid, hmem, Ne.symm hid]

/-- Ending scopes leaves the rest of the table alone: the functions and classes are not touched. -/
theorem endScopes_eq (line : Nat) (ids : List Nat) (table : Symbol.Table) :
    endScopes line ids table = { table with symbols := (endScopes line ids table).symbols } := by
  induction ids generalizing table with
  | nil => rfl
  | cons id ids ih => exact ih _

@[simp] theorem length_endScopes (line : Nat) (ids : List Nat) (table : Symbol.Table) :
    (endScopes line ids table).symbols.length = table.symbols.length := by
  induction ids generalizing table with
  | nil => rfl
  | cons id ids ih => exact (ih _).trans (List.length_modify _ _ _)

/-- The symbol that is put in next. It is seen everywhere if no frame is open, and otherwise from
its line on until its frame is closed. -/
def newSymbol (c : Collector) (name value : Text) (tag : Tag) (origin : Origin) (line : Nat) :
    Symbol :=
  { id := c.table.symbols.length, name, tag, origin, declaredLine := line, declaredValue := value
    reassignments := [], redeclaredLine := none
    scope := if c.frames.isEmpty then .global else .block line none }

/-- Putting in a symbol adds it at the end of the list, so that its id is its place. -/
theorem insert_table (c : Collector) (name value : Text) (tag : Tag) (origin : Origin)
    (line : Nat) :
    (c.insert name value tag origin line).table =
      { c.table with
        symbols := c.table.symbols ++ [c.newSymbol name value tag origin line] } := by
  unfold insert newSymbol
  cases hframes : c.frames <;> simp

/-- What an action does to the symbol at a place, with these frames open. Only three kinds of action
change a symbol that is there: closing ends its scope, and a declaration or an assignment may be
about it. -/
def Action.change (frames : List Frame) (i : Nat) (s : Symbol) : Action → Symbol
  | .closeFrame line =>
    if frames.head?.any (·.pending.contains i) then { s with scope := s.scope.closeAt line } else s
  | .retag id tag line =>
    if id = i then { s with tag := tag, redeclaredLine := some line } else s
  | .assign id entry =>
    if id = i then { s with reassignments := s.reassignments ++ [entry] } else s
  | _ => s

/-- **What an action does to a symbol that is there.** All later facts about how a symbol changes
are read off `Action.change` by this; the definition of `perform` is not opened again for it. -/
theorem perform_symbol (c : Collector) (a : Action) {i : Nat} {s : Symbol}
    (h : c.table.symbols[i]? = some s) :
    (c.perform a).table.symbols[i]? = some (a.change c.frames i s) := by
  cases a with
  | openFrame kind line awaits => exact h
  | closeFrame line =>
    cases hframes : c.frames with
    | nil => simp [perform, closeFrame, Action.change, hframes, h]
    | cons frame frames =>
      simp only [perform, closeFrame, hframes, endScopes_getElem?, h, Option.map_some,
        Action.change, List.head?_cons, Option.any_some, List.contains_iff_mem]
  | takeBrace =>
    rw [perform]
    split <;> exact h
  | register kind name =>
    simp only [perform, registerHeader]
    split
    · exact h
    · split <;> exact h
  | insert name value tag origin line =>
    -- a new symbol comes after all that are there
    have hlt : i < c.table.symbols.length := (List.getElem?_eq_some_iff.mp h).1
    rw [perform, insert_table, List.getElem?_append_left hlt]
    exact h
  | retag id tag line =>
    rw [perform, Symbol.Table.modifySymbol, List.getElem?_modify, h]
    by_cases hid : id = i <;> simp [Action.change, hid]
  | assign id entry =>
    rw [perform, Symbol.Table.modifySymbol, List.getElem?_modify, h]
    by_cases hid : id = i <;> simp [Action.change, hid]

/-- Only putting in a symbol makes the list of symbols longer, and no action makes it shorter. -/
theorem length_perform (c : Collector) (a : Action) :
    (c.perform a).table.symbols.length =
      c.table.symbols.length + match a with
        | .insert .. => 1
        | _ => 0 := by
  cases a with
  | closeFrame line => cases hframes : c.frames <;> simp [perform, closeFrame, hframes]
  | takeBrace => cases hframes : c.frames <;> simp [perform, hframes]
  | register kind name =>
    simp only [perform, registerHeader]
    split
    · rfl
    · split <;> rfl
  | insert name value tag origin line => simp [perform, insert_table]
  | retag id tag line => simp [perform, Symbol.Table.modifySymbol]
  | assign id entry => simp [perform, Symbol.Table.modifySymbol]
  | openFrame kind line awaits => rfl

/-- **What an action adds**: a symbol at a place that was free comes from putting it in. -/
theorem perform_newSymbol {c : Collector} {a : Action} {i : Nat} {s : Symbol}
    (hfree : c.table.symbols.length ≤ i)
    (h : (c.perform a).table.symbols[i]? = some s) :
    ∃ name value tag origin line, a = .insert name value tag origin line ∧
      i = c.table.symbols.length ∧ s = c.newSymbol name value tag origin line := by
  have hlt : i < (c.perform a).table.symbols.length := (List.getElem?_eq_some_iff.mp h).1
  rw [length_perform] at hlt
  cases a with
  | insert name value tag origin line =>
    have hi : i = c.table.symbols.length := by simp only at hlt; omega
    refine ⟨name, value, tag, origin, line, rfl, hi, ?_⟩
    rw [perform, insert_table, hi, List.getElem?_concat_length] at h
    exact (Option.some.inj h).symm
  | _ => simp only at hlt; omega

/-! ## 3. The actions of a line

Each definition says which actions the reader's function of the same name performs, and the lemma
after it that performing them is that function. -/

/-- The action of an opening brace: the innermost frame takes it if it waits for one, and otherwise
it opens a block. -/
def braceAction (c : Collector) (line : Nat) : Action :=
  if c.frames.head?.any (·.awaitsBrace) then .takeBrace else .openFrame .block line false

theorem perform_braceAction (c : Collector) (line : Nat) :
    c.perform (c.braceAction line) = c.readBrace line := by
  unfold braceAction readBrace
  cases hframes : c.frames with
  | nil => rfl
  | cons frame frames => by_cases hw : frame.awaitsBrace <;> simp [perform, hframes, hw]

/-- The actions of a token that is no header at the start of its line. -/
def tokenActions (line : Nat) (c : Collector) (t : Token) : List Action :=
  match t.kind with
  | .closer .curly => [.closeFrame line]
  | .opener .curly => [c.braceAction line]
  | .name => if t.isWord "do" then [.openFrame .doBlock line true] else []
  | _ => []

theorem performAll_tokenActions (line : Nat) (c : Collector) (t : Token) :
    c.performAll (tokenActions line c t) = readToken line c t := by
  have hbrace := perform_braceAction c line
  fun_cases readToken line c t <;> simp_all [tokenActions, perform]

/-- The actions of the tokens after the first of a line. -/
def tokensActions (line : Nat) (c : Collector) : List Token → List Action
  | [] => []
  | t :: ts => tokenActions line c t ++ tokensActions line (readToken line c t) ts

/-- The tokens after the first are read from left to right, each in the state that the ones before
it leave. -/
theorem performAll_tokensActions (line : Nat) (c : Collector) (ts : List Token) :
    c.performAll (tokensActions line c ts) = ts.foldl (readToken line) c := by
  induction ts generalizing c with
  | nil => rfl
  | cons t ts ih =>
    rw [tokensActions, performAll_append, performAll_tokenActions, ih, List.foldl_cons]

/-- The action that puts in a parameter. It has no value, and nothing is known of its type. -/
def parameterAction (line : Nat) (name : Text) : Action :=
  .insert name [] .any .parameter line

theorem performAll_parameterActions (c : Collector) (line : Nat) (names : List Text) :
    c.performAll (names.map (parameterAction line)) =
      names.foldl (fun c name => c.insert name [] .any .parameter line) c := by
  rw [performAll, List.foldl_map]
  rfl

/-- The actions of a `fun` or `class` header: its frame, its name and its parameters. A header
without a round bracket has its frame only. -/
def headerActions (l : Line) (keyword : Token) (tokens : List Token) : List Action :=
  let kind : Frame.Kind := if keyword.isWord "fun" then .functionBody else .classBody
  .openFrame kind l.index true ::
    match tokens.findIdx? fun t => t.kind = .opener .round with
    | none => []
    | some i =>
      match tokens[i]? with
      | none => []
      | some opener =>
        let stop := match (Token.partner? tokens i).bind (tokens[·]?) with
          | some closer => closer.offset
          | none => Text.byteSize l.code
        .register kind (Text.trim (Text.between keyword.stop opener.offset l.code)) ::
          (parameterNames (Text.between opener.stop stop l.code)).map (parameterAction l.index)

theorem performAll_headerActions (c : Collector) (l : Line) (keyword : Token)
    (tokens : List Token) :
    c.performAll (headerActions l keyword tokens) = c.readHeader l keyword tokens := by
  unfold headerActions readHeader
  simp only [performAll_cons, perform]
  cases hopener : tokens.findIdx? fun t => t.kind = .opener .round with
  | none => rfl
  | some i =>
    cases htoken : tokens[i]? with
    | none => simp only [htoken, performAll_nil]
    | some opener =>
      simp only [htoken]
      exact performAll_parameterActions _ _ _

/-- The actions of the first token of a line. -/
def firstActions (c : Collector) (l : Line) (first : Token) (tokens : List Token) : List Action :=
  if first.isWord "fun" || first.isWord "class" then headerActions l first tokens
  else tokenActions l.index c first

theorem performAll_firstActions (c : Collector) (l : Line) (first : Token) (tokens : List Token) :
    c.performAll (c.firstActions l first tokens) = c.readFirst l first tokens := by
  unfold firstActions readFirst
  split
  · exact performAll_headerActions c l first tokens
  · exact performAll_tokenActions l.index c first

/-- The action at the end of a line, if a header of an earlier line still waits for its brace. It is
closed on its own line, not on the one that was just read. -/
def expiryActions (c : Collector) (line : Nat) : List Action :=
  match c.frames with
  | frame :: _ =>
    if frame.awaitsBrace && frame.openedAt != line then [.closeFrame frame.openedAt] else []
  | [] => []

theorem performAll_expiryActions (c : Collector) (line : Nat) :
    c.performAll (c.expiryActions line) = c.expireHeader line := by
  unfold expiryActions expireHeader
  cases hframes : c.frames with
  | nil => rfl
  | cons frame frames =>
    simp only
    split <;> rfl

/-- The action of a declaration: a name that is still open only gets a new tag. -/
def declareAction (c : Collector) (name value : Text) (tag : Tag) (origin : Origin) (line : Nat) :
    Action :=
  match c.table.latestOpen name with
  | some s => .retag s.id tag line
  | none => .insert name value tag origin line

theorem perform_declareAction (c : Collector) (name value : Text) (tag : Tag) (origin : Origin)
    (line : Nat) :
    c.perform (c.declareAction name value tag origin line) =
      c.declare name value tag origin line := by
  unfold declareAction declare
  cases c.table.latestOpen name <;> rfl

/-- The action of what was found in a statement, if anything was. -/
def foundActions (c : Collector) (line : Nat) (found : Option Declared) : List Action :=
  found.toList.map fun d => c.declareAction d.name d.value d.tag d.origin line

theorem mem_foundActions {c : Collector} {line : Nat} {found : Option Declared} {a : Action} :
    a ∈ c.foundActions line found ↔
      ∃ d, found = some d ∧ a = c.declareAction d.name d.value d.tag d.origin line := by
  simp [foundActions, eq_comm]

theorem performAll_foundActions (c : Collector) (line : Nat) (found : Option Declared) :
    c.performAll (c.foundActions line found) = c.declareFound line found := by
  cases found with
  | none => rfl
  | some d => exact perform_declareAction c _ _ _ _ _

/-- The action of an assignment to a name that can be seen on the line. An assignment to any other
name does nothing. -/
def assignActions (c : Collector) (l : Line) (tokens : List Token) : List Action :=
  match tokens with
  | target :: assign :: _ =>
    if target.kind = .name && assign.assigns then
      match c.table.meaningOn target.text l.index with
      | none => []
      | some s =>
        let value := initializer l assign.valueOffset
        [.assign s.id ⟨l.index, value, c.inferOn value l.index⟩]
    else []
  | _ => []

theorem performAll_assignActions (c : Collector) (l : Line) (tokens : List Token) :
    c.performAll (c.assignActions l tokens) = c.recordAssignment l tokens := by
  unfold assignActions recordAssignment
  match tokens with
  | target :: assign :: rest =>
    simp only
    split
    · cases c.table.meaningOn target.text l.index <;> rfl
    · rfl
  | [] | [_] => rfl

/-- The action of what a line declares or assigns. The keyword decides which of the three it is
tried as. -/
def statementActions (c : Collector) (l : Line) (first : Token) (tokens : List Token) :
    List Action :=
  if first.isWord "var" then c.foundActions l.index (c.declaredVariable? l first tokens)
  else if first.isWord "for" then c.foundActions l.index (c.declaredLoopVariable? l tokens)
  else c.assignActions l tokens

theorem performAll_statementActions (c : Collector) (l : Line) (first : Token)
    (tokens : List Token) :
    c.performAll (c.statementActions l first tokens) = c.readStatement l first tokens := by
  unfold statementActions readStatement
  split
  · exact performAll_foundActions c l.index _
  · split
    · exact performAll_foundActions c l.index _
    · exact performAll_assignActions c l tokens

/-- What the statement of a line can do: put in what its `var` or `for` declares, give a name that
is still open a new tag, or record an assignment. All three bear the line's own number. -/
inductive IsStatementAction (l : Line) (first : Token) : Action → Prop
  | insert (name value : Text) (tag : Tag) (origin : Origin)
      (hword : origin = .variable ∧ first.isWord "var" ∨
        origin = .loopVariable ∧ first.isWord "for") :
      IsStatementAction l first (.insert name value tag origin l.index)
  | retag (id : Nat) (tag : Tag) : IsStatementAction l first (.retag id tag l.index)
  | assign (id : Nat) (entry : Reassignment) (hline : entry.line = l.index) :
      IsStatementAction l first (.assign id entry)

/-- A declaration is one of these, whether its name is new or still open. -/
theorem isStatementAction_declareAction (c : Collector) {l : Line} {first : Token} {origin : Origin}
    (hword : origin = .variable ∧ first.isWord "var" ∨ origin = .loopVariable ∧ first.isWord "for")
    (name value : Text) (tag : Tag) :
    IsStatementAction l first (c.declareAction name value tag origin l.index) := by
  unfold declareAction
  split
  · exact .retag _ _
  · exact .insert _ _ _ _ hword

/-- What a `var` declares is a variable, with a value or without. -/
theorem origin_of_declaredVariable? {c : Collector} {l : Line} {keyword : Token}
    {tokens : List Token} {d : Declared} (h : c.declaredVariable? l keyword tokens = some d) :
    d.origin = .variable := by
  unfold declaredVariable? at h
  simp only at h
  split at h
  · contradiction
  · split at h <;> rw [← Option.some.inj h]

/-- What a `for` declares is a loop variable. -/
theorem origin_of_declaredLoopVariable? {c : Collector} {l : Line} {tokens : List Token}
    {d : Declared} (h : c.declaredLoopVariable? l tokens = some d) : d.origin = .loopVariable := by
  unfold declaredLoopVariable? at h
  split at h
  · split at h
    · rw [← Option.some.inj h]
    · contradiction
  · contradiction

/-- What was found in a statement is one action, if the keyword of the statement is that of what was
found. -/
theorem foundActions_cases (c : Collector) {l : Line} {first : Token} {found : Option Declared}
    (h : ∀ d, found = some d → d.origin = .variable ∧ first.isWord "var" ∨
      d.origin = .loopVariable ∧ first.isWord "for") :
    c.foundActions l.index found = [] ∨
      ∃ a, c.foundActions l.index found = [a] ∧ IsStatementAction l first a := by
  cases found with
  | none => exact .inl rfl
  | some d => exact .inr ⟨_, rfl, isStatementAction_declareAction c (h d rfl) _ _ _⟩

/-- **The statement of a line is at most one action.** So what holds of one action after the frames
are settled holds of the whole statement. -/
theorem statementActions_cases (c : Collector) (l : Line) (first : Token) (tokens : List Token) :
    c.statementActions l first tokens = [] ∨
      ∃ a, c.statementActions l first tokens = [a] ∧ IsStatementAction l first a := by
  unfold statementActions
  split
  · next hvar =>
    exact foundActions_cases c fun d hd => .inl ⟨origin_of_declaredVariable? hd, hvar⟩
  · split
    · next hfor =>
      exact foundActions_cases c fun d hd => .inr ⟨origin_of_declaredLoopVariable? hd, hfor⟩
    · unfold assignActions
      split
      · split
        · split
          · exact .inl rfl
          · exact .inr ⟨_, rfl, .assign _ _ rfl⟩
        · exact .inl rfl
      · exact .inl rfl

/-- The actions by which the frames of a line are settled, before its statement is read: its first
token, the tokens after it, and the expiry. -/
def frameActions (c : Collector) (l : Line) (first : Token) (rest : List Token) : List Action :=
  let opened := c.firstActions l first (first :: rest)
  let nested := tokensActions l.index (c.performAll opened) rest
  opened ++ nested ++ ((c.performAll opened).performAll nested).expiryActions l.index

/-- The actions of a line: the frames are settled first, and the statement is read in the state that
this leaves. -/
def lineActions (c : Collector) (l : Line) : List Action :=
  match Token.scan l.code with
  | [] => []
  | first :: rest =>
    let settled := c.frameActions l first rest
    settled ++ (c.performAll settled).statementActions l first (first :: rest)

/-- **The actions of a line, performed, are the reading of the line.** The lemmas above say this of
its parts. -/
theorem performAll_lineActions (c : Collector) (l : Line) :
    c.performAll (c.lineActions l) = c.readLine l := by
  unfold lineActions readLine
  cases Token.scan l.code with
  | nil => rfl
  | cons first rest =>
    simp only [frameActions, performAll_append, performAll_firstActions, performAll_tokensActions,
      performAll_expiryActions, performAll_statementActions]

/-! ## 4. The actions of a document -/

/-- The actions of code lines, read one after the other. -/
def actionsFrom (c : Collector) : List Line → List Action
  | [] => []
  | l :: ls => c.lineActions l ++ actionsFrom (c.readLine l) ls

/-- The actions of a list of lines, of which those without code do nothing. -/
def actions (lines : List Line) : List Action :=
  actionsFrom {} (lines.filter Line.isCode)

/-- The actions of code lines, performed, are the reading of them from any state. -/
theorem performAll_actionsFrom (c : Collector) (ls : List Line) :
    c.performAll (c.actionsFrom ls) = ls.foldl readLine c := by
  induction ls generalizing c with
  | nil => rfl
  | cons l ls ih =>
    rw [actionsFrom, performAll_append, performAll_lineActions, ih, List.foldl_cons]

/-- **The actions of the lines, performed, are the reading of the lines.** -/
theorem performAll_actions (lines : List Line) :
    performAll {} (actions lines) = readLines lines :=
  performAll_actionsFrom {} _

/-- Lines that come later act in the state that the earlier ones leave. -/
theorem actionsFrom_append (c : Collector) (ls more : List Line) :
    c.actionsFrom (ls ++ more) = c.actionsFrom ls ++ (ls.foldl readLine c).actionsFrom more := by
  induction ls generalizing c with
  | nil => rfl
  | cons l ls ih => rw [List.cons_append, actionsFrom, actionsFrom, ih, List.append_assoc]; rfl

/-- Further lines come with further actions: what was done for the first lines is not undone by more
of them. -/
theorem actions_append (lines more : List Line) :
    actions (lines ++ more) =
      actions lines ++ (readLines lines).actionsFrom (more.filter Line.isCode) := by
  rw [actions, List.filter_append, actionsFrom_append]
  rfl

end Collector

end MacroScript
