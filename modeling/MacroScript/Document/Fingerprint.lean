import MacroScript.Text.Basic

/-!
# Fingerprints

A document is recognised by a 64-bit fingerprint of its text: the XXH64 hash, with seed zero, of its
UTF-8 bytes and a closing byte `0xFF` that no text contains. The hash reads four words of eight
bytes at a time, then the rest by words, half words and bytes, and mixes the bits of the result.
-/
namespace MacroScript

namespace Fingerprint

/-! ## Words -/

/-- The first multiplier. -/
def prime1 : UInt64 := 0x9E3779B185EBCA87
/-- The second multiplier. -/
def prime2 : UInt64 := 0xC2B2AE3D27D4EB4F
/-- The third multiplier. -/
def prime3 : UInt64 := 0x165667B19E3779F9
/-- The fourth multiplier. -/
def prime4 : UInt64 := 0x85EBCA77C2B2AE63
/-- The fifth multiplier. -/
def prime5 : UInt64 := 0x27D4EB2F165667C5

/-- Rotate to the left by `n` bits, for `n` between 1 and 63. -/
def rotate (word n : UInt64) : UInt64 :=
  (word <<< n) ||| (word >>> (64 - n))

/-- The number whose bytes these are, the lowest first. -/
def littleEndian (bytes : List UInt8) : UInt64 :=
  bytes.foldr (fun byte word => (word <<< 8) ||| byte.toUInt64) 0

/-- Take a word into a lane. -/
def round (lane word : UInt64) : UInt64 :=
  rotate (lane + word * prime2) 31 * prime1

/-! ## Stripes -/

/-- The four lanes that the long part of the input goes through. -/
structure Lanes where
  a : UInt64
  b : UInt64
  c : UInt64
  d : UInt64
deriving DecidableEq, Repr

namespace Lanes

/-- The lanes before any input. -/
def start : Lanes :=
  ⟨prime1 + prime2, prime2, 0, 0 - prime1⟩

/-- Take a stripe of 32 bytes into the lanes. -/
def absorb (lanes : Lanes) (stripe : List UInt8) : Lanes :=
  { a := round lanes.a (littleEndian (stripe.take 8))
    b := round lanes.b (littleEndian ((stripe.drop 8).take 8))
    c := round lanes.c (littleEndian ((stripe.drop 16).take 8))
    d := round lanes.d (littleEndian ((stripe.drop 24).take 8)) }

/-- Take `count` stripes into the lanes; also what is left of the input. -/
def absorbAll : Nat → Lanes → List UInt8 → Lanes × List UInt8
  | 0, lanes, bytes => (lanes, bytes)
  | count + 1, lanes, bytes => absorbAll count (lanes.absorb (bytes.take 32)) (bytes.drop 32)

/-- Put a lane into the hash. -/
def merge (hash lane : UInt64) : UInt64 :=
  (hash ^^^ round 0 lane) * prime1 + prime4

/-- The lanes as one word. -/
def join (lanes : Lanes) : UInt64 :=
  let hash := rotate lanes.a 1 + rotate lanes.b 7 + rotate lanes.c 12 + rotate lanes.d 18
  merge (merge (merge (merge hash lanes.a) lanes.b) lanes.c) lanes.d

end Lanes

/-! ## The rest of the input -/

/-- Take the last bytes one by one into the hash. -/
def absorbBytes (hash : UInt64) (bytes : List UInt8) : UInt64 :=
  bytes.foldl (fun hash byte => rotate (hash ^^^ byte.toUInt64 * prime5) 11 * prime1) hash

/-- Take a half word into the hash if there are four bytes, then the bytes after it. -/
def absorbHalf (hash : UInt64) (bytes : List UInt8) : UInt64 :=
  if bytes.length < 4 then absorbBytes hash bytes
  else
    let hash := rotate (hash ^^^ littleEndian (bytes.take 4) * prime1) 23 * prime2 + prime3
    absorbBytes hash (bytes.drop 4)

/-- Take `count` words into the hash, then the bytes after them. -/
def absorbWords : Nat → UInt64 → List UInt8 → UInt64
  | 0, hash, bytes => absorbHalf hash bytes
  | count + 1, hash, bytes =>
    let hash := rotate (hash ^^^ round 0 (littleEndian (bytes.take 8))) 27 * prime1 + prime4
    absorbWords count hash (bytes.drop 8)

/-- Take what is left after the stripes into the hash. -/
def absorbRest (hash : UInt64) (bytes : List UInt8) : UInt64 :=
  absorbWords (bytes.length / 8) hash bytes

/-- Mix the bits of the hash. -/
def avalanche (hash : UInt64) : UInt64 :=
  let hash := (hash ^^^ (hash >>> 33)) * prime2
  let hash := (hash ^^^ (hash >>> 29)) * prime3
  hash ^^^ (hash >>> 32)

/-- The hash of a list of bytes. -/
def ofBytes (bytes : List UInt8) : UInt64 :=
  let size := bytes.length.toUInt64
  if bytes.length < 32 then avalanche (absorbRest (prime5 + size) bytes)
  else
    let (lanes, rest) := Lanes.absorbAll (bytes.length / 32) Lanes.start bytes
    avalanche (absorbRest (lanes.join + size) rest)

end Fingerprint

/-- The bytes of a text in UTF-8. -/
def Text.bytes (t : Text) : List UInt8 :=
  t.flatMap String.utf8EncodeChar

/-- The fingerprint of a text. -/
def Text.fingerprint (t : Text) : UInt64 :=
  Fingerprint.ofBytes (t.bytes ++ [0xFF])

end MacroScript
