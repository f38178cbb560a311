import MacroScript.Diagnostic.Issue
import MacroScript.Proofs.Symbol.Action

/-!
# Registered headers

Of the actions that a line consists of, only one adds to the functions and classes of the table: the
registration of a header's name. Neither the tokens of a line nor its statement perform it, so **a
header line adds its own name, unless that is empty, and adds it to the names of its own kind**
(`headersOf_readLine`).
-/
namespace MacroScript

open Text

/-- The keyword that a header starts with. -/
def HeaderKind.keyword : HeaderKind → String
  | function => "fun"
  | classDefinition => "class"

/-- The names of a kind that are registered. The table has a list for each of the two kinds. -/
def Symbol.Table.headersOf (table : Symbol.Table) : HeaderKind → List Text
  | .function => table.functions
  | .classDefinition => table.classes

namespace Collector

/-- The name that an action adds to those of a kind of header. Only one action adds any, and an
empty name is left out. -/
def Action.registered? (header : HeaderKind) : Action → Option Text
  | .register kind name =>
    if name.isEmpty then none
    else if kind = .classBody ↔ header = .classDefinition then some name
    else none
  | _ => none

/-- **One action adds its name and no other.** The names that are there stay, in their order. -/
theorem headersOf_perform (c : Collector) (a : Action) (header : HeaderKind) :
    (c.perform a).table.headersOf header =
      c.table.headersOf header ++ (a.registered? header).toList := by
  cases a with
  | closeFrame line =>
    cases hframes : c.frames with
    | nil => cases header <;> simp [perform, closeFrame, hframes, Action.registered?]
    | cons frame frames =>
      simp only [perform, closeFrame, hframes]
      rw [endScopes_eq]
      cases header <;> simp [Action.registered?, Symbol.Table.headersOf]
  | takeBrace =>
    simp only [perform, Action.registered?]
    split <;> simp
  | register kind name =>
    simp only [perform, registerHeader, Action.registered?]
    cases name.isEmpty <;> cases kind <;> cases header <;> simp [Symbol.Table.headersOf]
  | insert name value tag origin line =>
    rw [perform, insert_table]
    cases header <;> simp [Action.registered?, Symbol.Table.headersOf]
  | _ => cases header <;>
      simp [perform, openFrame, Symbol.Table.modifySymbol, Action.registered?,
        Symbol.Table.headersOf]

/-- So a run of actions adds the names of the actions, one after the other. -/
theorem headersOf_performAll (c : Collector) (as : List Action) (header : HeaderKind) :
    (c.performAll as).table.headersOf header =
      c.table.headersOf header ++ as.filterMap (Action.registered? header) := by
  induction as generalizing c with
  | nil => simp
  | cons a as ih =>
    rw [performAll_cons, ih, headersOf_perform, List.append_assoc]
    cases ha : a.registered? header <;> simp [ha]

section Registered

variable (header : HeaderKind)

/-- The braces of a line open and close blocks, and nothing more. -/
theorem registered_tokensActions (line : Nat) (c : Collector) (ts : List Token) :
    (tokensActions line c ts).filterMap (Action.registered? header) = [] := by
  induction ts generalizing c with
  | nil => rfl
  | cons t ts ih =>
    rw [tokensActions, List.filterMap_append, ih, List.append_nil]
    unfold tokenActions
    split
    · rfl
    · unfold braceAction
      split <;> rfl
    · split <;> rfl
    · rfl

theorem registered_expiryActions (c : Collector) (line : Nat) :
    (c.expiryActions line).filterMap (Action.registered? header) = [] := by
  unfold expiryActions
  split
  · split <;> rfl
  · rfl

/-- A statement declares variables and no headers. -/
theorem registered_statementActions (c : Collector) (l : Line) (first : Token)
    (tokens : List Token) :
    (c.statementActions l first tokens).filterMap (Action.registered? header) = [] := by
  rcases statementActions_cases c l first tokens with hnil | ⟨a, hone, ha⟩
  · rw [hnil]
    rfl
  · rw [hone]
    cases ha <;> rfl

/-- A header registers its name and nothing else: its parameters are declared as variables. -/
theorem registered_headerActions {l : Line} {keyword opener : Token} {tokens : List Token} {i : Nat}
    (hindex : tokens.findIdx? (fun t => t.kind = .opener .round) = some i)
    (hopener : tokens[i]? = some opener) :
    (headerActions l keyword tokens).filterMap (Action.registered? header) =
      (Action.registered? header (.register
        (if keyword.isWord "fun" then .functionBody else .classBody)
        (trim (between keyword.stop opener.offset l.code)))).toList := by
  have hparameters (names : List Text) :
      (names.map (parameterAction l.index)).filterMap (Action.registered? header) = [] := by
    rw [List.filterMap_eq_nil_iff]
    intro a ha
    obtain ⟨name, -, rfl⟩ := List.mem_map.mp ha
    rfl
  simp only [headerActions, hindex, hopener]
  rw [List.filterMap_cons_none rfl, List.filterMap_cons, hparameters]
  split <;> simp_all

/-- **A header line adds its name to those of its kind, and adds no other.** The line is its
actions, and all but one of them add nothing. -/
theorem headersOf_readLine (c : Collector) {l : Line} {first opener : Token} {rest : List Token}
    {i : Nat} (hscan : Token.scan l.code = first :: rest)
    (hword : first.isWord "fun" || first.isWord "class")
    (hindex : (first :: rest).findIdx? (fun t => t.kind = .opener .round) = some i)
    (hopener : (first :: rest)[i]? = some opener) :
    (c.readLine l).table.headersOf header =
      c.table.headersOf header ++ (Action.registered? header (.register
        (if first.isWord "fun" then .functionBody else .classBody)
        (trim (between first.stop opener.offset l.code)))).toList := by
  have hfirst : c.firstActions l first (first :: rest) = headerActions l first (first :: rest) := by
    rw [firstActions, if_pos hword]
  rw [← performAll_lineActions, headersOf_performAll]
  simp only [lineActions, hscan, frameActions, hfirst, List.filterMap_append,
    registered_statementActions, registered_expiryActions, registered_tokensActions,
    registered_headerActions header hindex hopener, List.append_nil]

end Registered

end Collector

end MacroScript
