import MacroScript.Text.Character

/-!
# Text

A text is the list of its characters. Offsets into a text count the bytes of its UTF-8 form, because
that is the measure in which two views of one line stay aligned: a view may replace a character by
several others as long as the bytes agree. An offset that falls inside a character is rounded down
to the character's start, so cutting is total; `slice?` is the cut that refuses such an offset.
-/
namespace MacroScript

/-- A piece of text, character by character. -/
abbrev Text := List Char

namespace Text

/-! ## Measure and cuts -/

/-- The number of bytes of the text in UTF-8. -/
def byteSize : Text → Nat
  | [] => 0
  | c :: cs => c.utf8Size + byteSize cs

/-- The longest part from the start that takes at most `n` bytes. -/
def takeBytes : Nat → Text → Text
  | _, [] => []
  | n, c :: cs => if c.utf8Size ≤ n then c :: takeBytes (n - c.utf8Size) cs else []

/-- What is left after `takeBytes n`. -/
def dropBytes : Nat → Text → Text
  | _, [] => []
  | n, c :: cs => if c.utf8Size ≤ n then dropBytes (n - c.utf8Size) cs else c :: cs

/-- The text from byte `start` up to byte `stop`. -/
def between (start stop : Nat) (t : Text) : Text :=
  takeBytes (stop - start) (dropBytes start t)

/-- The offset `n` falls between two characters, or on an end of the text. -/
def isBoundary (n : Nat) (t : Text) : Bool :=
  byteSize (takeBytes n t) == n

/-- The text from byte `start` up to byte `stop`, if these are boundaries in this order. -/
def slice? (start stop : Nat) (t : Text) : Option Text :=
  if start ≤ stop && isBoundary start t && isBoundary stop t then some (between start stop t)
  else none

/-! ## Ends -/

/-- The text without the longest end whose characters satisfy `p`. -/
def dropEndWhile (p : Char → Bool) (t : Text) : Text :=
  (t.reverse.dropWhile p).reverse

/-- The text without white space at its start. -/
def trimStart (t : Text) : Text :=
  t.dropWhile isBlank

/-- The text without white space at its end. -/
def trimEnd (t : Text) : Text :=
  dropEndWhile isBlank t

/-- The text without white space at both ends. -/
def trim (t : Text) : Text :=
  trimEnd (trimStart t)

/-- The text holds white space only. -/
def isAllBlank (t : Text) : Bool :=
  t.all isBlank

/-- The byte span of the trimmed part. A text of white space only gives an empty span at its end. -/
def coreSpan (t : Text) : Nat × Nat :=
  let start := byteSize t - byteSize (trimStart t)
  (start, max start (byteSize (trimEnd t)))

/-- What follows `word` at the start of the text. -/
def dropWord? (word t : Text) : Option Text :=
  if word.isPrefixOf t then some (t.drop word.length) else none

/-! ## Occurrences -/

/-- The byte offsets at which `needle` occurs, from left to right and without overlap. Characters of
an occurrence already found are passed over by counting down `covered`. -/
def occurrencesFrom (needle : Text) (offset covered : Nat) : Text → List Nat
  | [] => []
  | c :: cs =>
    if covered = 0 && needle.isPrefixOf (c :: cs) then
      offset :: occurrencesFrom needle (offset + c.utf8Size) (needle.length - 1) cs
    else
      occurrencesFrom needle (offset + c.utf8Size) (covered - 1) cs

/-- The byte offsets of the occurrences of `needle`, from left to right and without overlap. -/
def occurrences (needle t : Text) : List Nat :=
  occurrencesFrom needle 0 0 t

end Text

end MacroScript
