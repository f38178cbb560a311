import MacroScript.Text.Word

/-!
# Copies

A copy is an assignment of one plain name to another that ends its statement: `a = b;`, with or
without `var` before it. The copies of a line are read from left to right, each starting after the
one before it has ended.
-/
namespace MacroScript

/-- A copy found in a line: whether `var` stands before it, the two names, the byte offset of the
name on the right, and how many characters the whole of it takes. -/
structure Copy where
  declares : Bool
  target : Text
  value : Text
  valueOffset : Nat
  length : Nat
deriving DecidableEq, Repr

/-- The plain name at the start of a text, and what follows it. -/
def plainName? (t : Text) : Option (Text × Text) :=
  if t.head?.any fun c => c.isAlpha || c == '_' then
    let name := t.takeWhile isWordChar
    some (name, t.drop name.length)
  else none

/-- The rest of a text after the end of a statement at its start: a semicolon, or nothing at all. -/
def statementTail? (t : Text) : Option Text :=
  match Text.trimStart t with
  | [] => some []
  | c :: cs => if c = ';' then some cs else none

namespace Copy

/-- The copy at the start of `t`, which is the end of a text that starts at byte `offset` and is
`whole`. -/
def plainAt? (declares : Bool) (offset : Nat) (whole t : Text) : Option Copy := do
  let (target, rest) ← plainName? t
  let rest ← Text.dropWord? ['='] (Text.trimStart rest)
  let fromValue := Text.trimStart rest
  let (value, rest) ← plainName? fromValue
  let rest ← statementTail? rest
  return { declares, target, value
           valueOffset := offset + (Text.byteSize whole - Text.byteSize fromValue)
           length := whole.length - rest.length }

/-- The copy at the start of a text whose first byte is `offset`. It is read with a leading `var` if
that is possible, and otherwise without. -/
def at? (offset : Nat) (t : Text) : Option Copy :=
  let declared := match Text.dropWord? "var".toList t with
    | some rest =>
      if rest.head?.any isBlank then plainAt? true offset t (Text.trimStart rest) else none
    | none => none
  declared.or (plainAt? false offset t t)

/-- The copies in the rest of a text, with `before` to its left. Characters of a copy already read
are passed over by counting down `covered`. -/
def allFrom (before : Text) (offset covered : Nat) : Text → List Copy
  | [] => []
  | c :: cs =>
    let found := if covered = 0 && Text.endsWord before then at? offset (c :: cs) else none
    match found with
    | some copy => copy :: allFrom (c :: before) (offset + c.utf8Size) (copy.length - 1) cs
    | none => allFrom (c :: before) (offset + c.utf8Size) (covered - 1) cs

/-- The copies in a text, from left to right. -/
def all (t : Text) : List Copy :=
  allFrom [] 0 0 t

end Copy

end MacroScript
