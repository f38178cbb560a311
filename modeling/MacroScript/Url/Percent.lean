import MacroScript.Text.Basic
import MacroScript.Text.Character

/-!
# Percent encoding

A URL is written in a part of ASCII. Any other character, and any character that would be taken for
a delimiter where it stands, is written as the bytes of its UTF-8 form, each as `%` and two digits.
Which characters these are depends on the part of the URL. A `%` is never written as an escape, so
what was encoded before stays as it is.
-/
namespace MacroScript

namespace Url

/-! ## Encoding -/

/-- A byte as it is written. -/
def percentByte (byte : UInt8) : Text :=
  ['%', upperHexDigit (byte.toNat / 16), upperHexDigit (byte.toNat % 16)]

/-- The text with the characters of a class encoded. -/
def percentEncode (encodes : Char → Bool) (t : Text) : Text :=
  t.flatMap fun c => if encodes c then (String.utf8EncodeChar c).flatMap percentByte else [c]

/-- Encoded everywhere: control characters, and all that is not ASCII. -/
def isUnprintable (c : Char) : Bool :=
  c.toNat < 0x20 || 0x7E < c.toNat

/-- Encoded in a fragment. -/
def isEncodedInFragment (c : Char) : Bool :=
  isUnprintable c || [' ', '"', '<', '>', '`'].contains c

/-- Encoded in a query. The single quote is encoded for the schemes of the web only. -/
def isEncodedInQuery (onWeb : Bool) (c : Char) : Bool :=
  isUnprintable c || [' ', '"', '#', '<', '>'].contains c || (onWeb && c == '\'')

/-- Encoded in a segment of a path. -/
def isEncodedInPath (c : Char) : Bool :=
  isEncodedInFragment c || ['#', '?', '{', '}'].contains c

/-- Encoded in the name and the password of a user. -/
def isEncodedInUser (c : Char) : Bool :=
  isEncodedInPath c || ['/', ':', ';', '=', '@', '[', '\\', ']', '^', '|'].contains c

/-! ## Decoding -/

/-- The bytes that a text stands for. A `%` without two digits after it stands for itself. -/
def percentBytes : Text → List UInt8
  | '%' :: a :: b :: rest =>
    match hexValue? a, hexValue? b with
    | some high, some low => (high * 16 + low).toUInt8 :: percentBytes rest
    | _, _ => 0x25 :: percentBytes (a :: b :: rest)
  | c :: rest => String.utf8EncodeChar c ++ percentBytes rest
  | [] => []

/-- The text that an encoded text stands for, if its bytes are UTF-8. -/
def percentDecode? (t : Text) : Option Text :=
  (String.fromUTF8? ⟨(percentBytes t).toArray⟩).map String.toList

end Url

end MacroScript
