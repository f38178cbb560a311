import MacroScript.Tag

/-!
# Symbols

A symbol is a name that a document declares: a variable, a parameter or a loop variable. It carries
the lines on which it can be seen and the history of what was assigned to it, so that its tag can be
asked for at any line.
-/
namespace MacroScript

/-- The lines on which a symbol can be seen. -/
inductive Scope where
  /-- Declared outside every block: seen on every line. -/
  | global
  /-- Declared inside a block: seen from line `start` to line `stop`, which is unknown as long as
  the block is open. -/
  | block (start : Nat) (stop : Option Nat)
deriving DecidableEq, Repr

namespace Scope

/-- The symbol can be seen on the line. -/
def contains (line : Nat) : Scope → Bool
  | global => true
  | block start stop => start ≤ line && stop.all (line ≤ ·)

/-- The end of the scope has not been reached. -/
def isOpen : Scope → Bool
  | global => true
  | block _ stop => stop.isNone

/-- The scope after its block was closed on the line. -/
def closeAt (line : Nat) : Scope → Scope
  | global => global
  | block start _ => block start (some line)

end Scope

/-- How a symbol came to be. -/
inductive Origin where
  | variable
  | parameter
  | loopVariable
deriving DecidableEq, Repr

/-- A later assignment to a symbol: its line, the text of the value and the value's tag. -/
structure Reassignment where
  line : Nat
  value : Text
  tag : Tag
deriving DecidableEq, Repr

/-- A declared name. `tag` belongs to the declaration or to the latest re-declaration, which then
stands on `redeclaredLine`. -/
structure Symbol where
  id : Nat
  name : Text
  tag : Tag
  origin : Origin
  declaredLine : Nat
  declaredValue : Text
  reassignments : List Reassignment
  redeclaredLine : Option Nat
  scope : Scope
deriving DecidableEq, Repr

namespace Symbol

/-- The latest reassignment on or before the line. -/
def latestAssignment (s : Symbol) (line : Nat) : Option Reassignment :=
  s.reassignments.reverse.find? fun r => r.line ≤ line

/-- The tag on a line. The latest reassignment up to the line decides, unless the symbol was
declared again after it and no later than the line; with no reassignment yet it is the tag of the
declaration. -/
def tagOn (s : Symbol) (line : Nat) : Tag :=
  match s.latestAssignment line, s.redeclaredLine with
  | some r, some redeclared => if redeclared ≤ line && r.line < redeclared then s.tag else r.tag
  | some r, none => r.tag
  | none, _ => s.tag

end Symbol

end MacroScript
