import MacroScript.Inference
import MacroScript.Symbol.Basic

/-!
# The symbol table

What one document declares: its symbols in the order of their declaration, its functions and
classes, and the lines on which a `do` block was closed. A symbol's `id` is its place in the list.
-/
namespace MacroScript

/-! ## Search by halving -/

/-- The place at which halving the window of `size` items from `base` ends. The item looked for can
only be there if the list is in ascending order. -/
def halvingPlace (items : List Nat) (item base size : Nat) : Nat :=
  if size ≤ 1 then base
  else
    let middle := base + size / 2
    halvingPlace items item (if item < items.getD middle 0 then base else middle) (size - size / 2)
termination_by size
decreasing_by omega

/-- Search by halving. It answers for lists in ascending order. -/
def halvingContains (items : List Nat) (item : Nat) : Bool :=
  items[halvingPlace items item 0 items.length]? == some item

/-! ## The table -/

/-- What a document declares. -/
structure Symbol.Table where
  symbols : List Symbol := []
  functions : List Text := []
  classes : List Text := []
  doBlockEnds : List Nat := []
deriving DecidableEq, Repr

namespace Symbol.Table

/-- The symbol with the given id. -/
def get? (table : Table) (id : Nat) : Option Symbol :=
  table.symbols[id]?

/-- The symbols seen on the line, in the order of their declaration. -/
def seenOn (table : Table) (line : Nat) : List Symbol :=
  table.symbols.filter fun s => s.scope.contains line

/-- The symbol that the name means on the line: of those seen there, the one declared last. -/
def meaningOn (table : Table) (name : Text) (line : Nat) : Option Symbol :=
  table.symbols.reverse.find? fun s => s.name == name && s.scope.contains line

/-- The open symbol of that name that was declared last. -/
def latestOpen (table : Table) (name : Text) : Option Symbol :=
  table.symbols.reverse.find? fun s => s.name == name && s.scope.isOpen

/-- The name was declared on or before the line, whatever its scope, or it is a function or class.
-/
def declaresBy (table : Table) (name : Text) (line : Nat) : Bool :=
  (table.symbols.any fun s => s.name == name && s.declaredLine ≤ line) ||
    table.functions.contains name || table.classes.contains name

/-- A `do` block is closed on the line. -/
def endsDoBlockOn (table : Table) (line : Nat) : Bool :=
  halvingContains table.doBlockEnds line

/-- The tags of the names seen on the line. -/
def namesOn (table : Table) (line : Nat) : Names :=
  fun name => (table.meaningOn name line).map fun s => s.tagOn line

/-- Change the symbol with the given id. -/
def modifySymbol (table : Table) (id : Nat) (change : Symbol → Symbol) : Table :=
  { table with symbols := table.symbols.modify id change }

end Symbol.Table

end MacroScript
