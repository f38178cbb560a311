import MacroScript.Position
import MacroScript.Text.Quoting

/-!
# Lines

A document is read line by line. Every line has two forms: `raw` as it was typed, and `code`, in
which the interior of each double-quoted string is blank and a trailing `//` comment is gone. A
blanked character leaves as many spaces as it had bytes, so **a byte offset into `code` is the same
place in `raw`**, and whatever is found in the code can be reported in the line.
-/
namespace MacroScript

/-! ## The code of a line -/

/-- The code of the rest of a line, from a place where the scan stands as `quoting` says. -/
def codeFrom : Quoting → Text → Text
  | _, [] => []
  | .outside, c :: cs =>
    if c = '/' && cs.head? = some '/' then []
    else c :: codeFrom (Quoting.outside.next isDoubleQuote c) cs
  | .inside q e, c :: cs =>
    match (Quoting.inside q e).next isDoubleQuote c with
    | .outside => c :: codeFrom .outside cs
    | .inside q' e' => List.replicate c.utf8Size ' ' ++ codeFrom (.inside q' e') cs

/-- The line with string interiors blanked and a trailing comment removed. -/
def codeOf (raw : Text) : Text :=
  codeFrom .outside raw

/-! ## Lines of a document -/

/-- One physical line: its number, the byte offset in the document at which it starts, and its
characters without the line break. -/
structure Line where
  index : Nat
  offset : Nat
  raw : Text
deriving DecidableEq, Repr

namespace Line

/-- The code of the line. -/
def code (l : Line) : Text :=
  codeOf l.raw

/-- The line holds nothing but a comment. -/
def isComment (l : Line) : Bool :=
  ['/', '/'].isPrefixOf (Text.trimStart l.raw)

/-- The line has no code. -/
def isEmpty (l : Line) : Bool :=
  Text.isAllBlank l.code

/-- The line takes part in the analysis. -/
def isCode (l : Line) : Bool :=
  !l.isComment && !l.isEmpty

/-- The byte offset of the first character of code that is no white space. -/
def indent (l : Line) : Nat :=
  Text.byteSize l.code - Text.byteSize (Text.trimStart l.code)

/-- The editor range of a byte span of the line. -/
def range (l : Line) (start stop : Nat) : Range :=
  { start := ⟨l.index.toUInt32, Text.columnOf l.raw start⟩
    stop := ⟨l.index.toUInt32, Text.columnOf l.raw stop⟩ }

end Line

/-- The text without one carriage return at its end. -/
def Text.dropReturn (t : Text) : Text :=
  if t.getLast? = some '\r' then t.dropLast else t

/-- Number the pieces between the line feeds of a document. The last piece is a line only if it is
not empty, so a final line feed does not start a further line. -/
def Line.number (index offset : Nat) : List Text → List Line
  | [] => []
  | [piece] => if piece.isEmpty then [] else [⟨index, offset, Text.dropReturn piece⟩]
  | piece :: next :: pieces =>
    ⟨index, offset, Text.dropReturn piece⟩ ::
      number (index + 1) (offset + Text.byteSize piece + 1) (next :: pieces)

/-- The lines of a document. They end at line feeds, and a carriage return before a line feed
belongs to the line break. -/
def Line.ofText (t : Text) : List Line :=
  Line.number 0 0 (List.splitOn '\n' t)

/-! ## Lines by their numbers -/

/-- The line of a text by its number. Lines end at line feeds, and a text that ends in one has a
further empty line. -/
def Text.line? (t : Text) (line : Nat) : Option Text :=
  ((List.splitOn '\n' t)[line]?).map Text.dropReturn

/-- The part of the line before the position. -/
def Text.before? (t : Text) (p : Position) : Option Text :=
  (t.line? p.line.toNat).map fun line => Text.takeBytes (Text.offsetOf line p.character) line

end MacroScript
