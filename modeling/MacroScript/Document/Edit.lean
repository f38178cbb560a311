import MacroScript.Position

/-!
# Edits

An editor tells what changed in a document by ranges of positions. Its lines end at every line break
of Unicode: the line feed, the carriage return, both together as one, the vertical tab, the form
feed, the next line character and the line and paragraph separators. A document that ends in a break
has a further empty line. A column past the end of its line counts as the end, a column inside a
character as the character's start, and a line past the last one as the end of the document.
-/
namespace MacroScript

/-! ## Lines of an editor -/

/-- A character that breaks lines. -/
def isLineBreak (c : Char) : Bool :=
  (0x0A ≤ c.toNat && c.toNat ≤ 0x0D) || c.toNat = 0x85 || c.toNat = 0x2028 || c.toNat = 0x2029

/-- The line ends after `c`, with `rest` to follow: a carriage return does not end it if a line feed
comes next. -/
def endsLine (c : Char) (rest : Text) : Bool :=
  isLineBreak c && !(c = '\r' && rest.head? = some '\n')

/-- The lines of a document, each with its line break. -/
def Text.editLines : Text → List Text
  | [] => [[]]
  | c :: cs =>
    if endsLine c cs then [c] :: editLines cs else (editLines cs).modifyHead (List.cons c)

/-- There is always a line. -/
theorem Text.editLines_ne_nil (t : Text) : t.editLines ≠ [] := by
  induction t with
  | nil => simp [editLines]
  | cons c cs ih =>
    rw [editLines]
    split
    · simp
    · exact mt List.modifyHead_eq_nil_iff.mp ih

/-- The lines, one after the other, are the document. -/
@[simp] theorem Text.flatten_editLines (t : Text) : t.editLines.flatten = t := by
  induction t with
  | nil => rfl
  | cons c cs ih =>
    rw [editLines]
    split
    · simp [ih]
    · obtain ⟨line, lines, hlines⟩ := List.exists_cons_of_ne_nil (editLines_ne_nil cs)
      rw [hlines] at ih ⊢
      simpa using ih

/-- How many characters of a line stand before the column. The line break is not among them. -/
def charsBefore : Nat → Text → Nat
  | _, [] => 0
  | units, c :: cs =>
    if c = '\n' || c = '\r' || units < utf16Size c then 0
    else charsBefore (units - utf16Size c) cs + 1

/-- The index of the character at a position. -/
def Text.indexOf (t : Text) (p : Position) : Nat :=
  match t.editLines.drop p.line.toNat with
  | [] => t.length
  | line :: _ =>
    (t.editLines.take p.line.toNat).flatten.length + charsBefore p.character.toNat line

/-! ## Changes -/

/-- A change of a document: new text for a range, or for all of it. -/
structure Change where
  range : Option Range
  text : Text
deriving DecidableEq, Repr

/-- The text with the characters from index `start` up to index `stop` replaced. -/
def Text.splice (t : Text) (start stop : Nat) (replacement : Text) : Text :=
  t.take start ++ replacement ++ t.drop stop

/-- The text after a change. The two ends of a range may come in either order. -/
def Change.applyTo (change : Change) (t : Text) : Text :=
  match change.range with
  | none => change.text
  | some range =>
    let a := t.indexOf range.start
    let b := t.indexOf range.stop
    t.splice (min a b) (max a b) change.text

end MacroScript
