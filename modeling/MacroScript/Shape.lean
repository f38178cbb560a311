import MacroScript.Tag
import MacroScript.Text.Numeral
import MacroScript.Text.Quoting

/-!
# Shapes

The tag of an expression is read off its shape. A shape is a sequence of pieces, and a text has the
shape if it can be cut into one stretch for each piece. Every piece lists what can be left of a text
after it, so that a text with several calls is tried at each of its closing brackets.

The rows of `Shape.table` are tried in order and the first that fits decides. The order matters
where one shape includes another: a chain of calls stands before the single call that it starts
with.
-/
namespace MacroScript

/-- A piece of a shape. -/
inductive Shape.Piece where
  /-- These characters. -/
  | word (characters : String)
  /-- One of these words. -/
  | oneOf (words : List String)
  /-- Any amount of white space. -/
  | blanks
  /-- An argument list: brackets with anything on one line between them. -/
  | call
  /-- An argument list, or nothing. -/
  | optionalCall
  /-- A minus sign, or nothing. -/
  | optionalMinus
  /-- One quote of any kind. -/
  | quote
  /-- One decimal digit. -/
  | decimal
  /-- All the rest. -/
  | rest
deriving DecidableEq, Repr

namespace Shape

/-- The texts left after some of the white space at the start. -/
def afterBlanks : Text → List Text
  | [] => [[]]
  | c :: cs => (c :: cs) :: if isBlank c then afterBlanks cs else []

/-- The texts left after a closing bracket with no line break before it. -/
def afterClose : Text → List Text
  | [] => []
  | c :: cs =>
    if c = '\n' then []
    else if c = ')' then cs :: afterClose cs
    else afterClose cs

/-- The texts left after an argument list. -/
def afterCall : Text → List Text
  | [] => []
  | c :: cs => if c = '(' then afterClose cs else []

/-- What is left after one character of a class. -/
def afterOne (p : Char → Bool) : Text → List Text
  | [] => []
  | c :: cs => if p c then [cs] else []

/-- The texts that can be left after the piece. -/
def Piece.after (piece : Piece) (t : Text) : List Text :=
  match piece with
  | word w => (Text.dropWord? w.toList t).toList
  | oneOf ws => ws.filterMap fun w => Text.dropWord? w.toList t
  | blanks => afterBlanks t
  | call => afterCall t
  | optionalCall => t :: afterCall t
  | optionalMinus => t :: afterOne (· == '-') t
  | quote => afterOne isQuote t
  | decimal => afterOne isDecimal t
  | rest => [[]]

/-- The whole text can be cut into stretches for the pieces. -/
def fits : List Piece → Text → Bool
  | [], t => t.isEmpty
  | piece :: pieces, t => (piece.after t).any (fits pieces)

/-! ## The table -/

/-- The bare name of a built-in object. -/
def bare (name : String) : List Piece :=
  [.word name]

/-- A call of `name` with any arguments. -/
def callOf (name : String) : List Piece :=
  [.word name, .blanks, .call]

/-- A call of one of `names`, after a point. -/
def thenCall (names : List String) : List Piece :=
  [.word ".", .oneOf names, .blanks, .call]

end Shape

/-- A shape and the tag of the expressions that have it. -/
structure Shape where
  pieces : List Shape.Piece
  tag : Tag
deriving DecidableEq, Repr

/-- The expression text has the shape. -/
def Shape.accepts (shape : Shape) (t : Text) : Bool :=
  Shape.fits shape.pieces t

open Shape in
/-- The shapes in the order in which they are tried. -/
def Shape.table : List Shape :=
  [⟨[.quote, .rest], .string⟩,
   ⟨[.word "[", .rest], .array⟩,
   ⟨[.optionalMinus, .decimal, .rest], .number⟩,
   ⟨[.oneOf ["true", "false"]], .boolean⟩,
   ⟨bare "null", .null⟩,
   ⟨bare "Sys", .sys⟩,
   ⟨[.word "Map", .blanks, .optionalCall], .map⟩,
   ⟨bare "Math", .math⟩,
   ⟨bare "Point", .point⟩,
   ⟨callOf "Point", .pointValue⟩,
   ⟨callOf "SwipePoint", .swipePointValue⟩,
   ⟨bare "MultiSwipe", .multiSwipe⟩,
   ⟨[.word "MultiSwipe", .blanks, .optionalCall] ++ thenCall ["builder"], .multiSwipeBuilder⟩,
   ⟨bare "Touch", .touch⟩,
   ⟨callOf "Region" ++ thenCall ["findText", "findMultiText", "findAllText", "findAnyText"],
     .regionTextMatch⟩,
   ⟨callOf "Region" ++ thenCall ["find", "findMulti", "findAll", "findAny"], .regionMatch⟩,
   ⟨callOf "Region", .regionValue⟩,
   ⟨bare "Region", .region⟩,
   ⟨bare "Template", .template⟩,
   ⟨.word "Template" :: thenCall ["image", "text", "color", "setDefaultScale"], .templateBuilder⟩,
   ⟨.word "Setting" :: thenCall ["builder"] ++ thenCall ["build"], .settingDialog⟩,
   ⟨.word "Setting" :: thenCall ["builder"], .settingBuilder⟩,
   ⟨bare "Setting", .setting⟩,
   ⟨callOf "OnScreenText", .onScreenTextValue⟩,
   ⟨bare "OnScreenText", .onScreenText⟩,
   ⟨callOf "DateTime", .dateTimeValue⟩,
   ⟨bare "DateTime", .dateTime⟩,
   ⟨callOf "TimeSpan", .timeSpanValue⟩,
   ⟨bare "TimeSpan", .timeSpan⟩,
   ⟨callOf "Stopwatch", .stopwatchValue⟩,
   ⟨callOf "Clipboard", .clipboardValue⟩,
   ⟨callOf "Overlay", .overlayValue⟩,
   ⟨bare "File", .file⟩,
   ⟨bare "Cache", .cache⟩,
   ⟨bare "Env", .env⟩,
   ⟨callOf "Version", .versionValue⟩]

end MacroScript
