import MacroScript.Text.Basic

/-!
# Punycode

A label of a domain name is written in ASCII. Its ASCII characters come first, then a hyphen, then
the others in the order of their code points, each as its distance from the one before it. A
distance is a number in base 36 whose digits have varying weights, so that small distances stay
short.
-/
namespace MacroScript

namespace Punycode

/-- A digit of base 36. -/
def digit (n : Nat) : Char :=
  if n < 26 then Char.ofNat ('a'.toNat + n) else Char.ofNat ('0'.toNat + (n - 26))

/-- The least digit that goes on at place `k`. -/
def threshold (bias k : Nat) : Nat :=
  min 26 (max 1 (k - bias))

/-- The digits of a distance, the lowest first. -/
def digits (bias k distance : Nat) : Text :=
  let t := threshold bias k
  if distance < t then [digit distance]
  else
    digit (t + (distance - t) % (36 - t)) :: digits bias (k + 36) ((distance - t) / (36 - t))
termination_by distance
decreasing_by
  have hpos : 1 ≤ threshold bias k := by unfold threshold; omega
  have hdiv := Nat.div_le_self (distance - threshold bias k) (36 - threshold bias k)
  omega

/-- The steps of `adapt` that scale a distance down, and the places that they take. -/
def scale (distance k : Nat) : Nat × Nat :=
  if 455 < distance then scale (distance / 35) (k + 36) else (distance, k)
termination_by distance
decreasing_by omega

/-- The bias for the distance after this one, with `count` characters written. -/
def adapt (distance count : Nat) (isFirst : Bool) : Nat :=
  let damped := if isFirst then distance / 700 else distance / 2
  let (scaled, k) := scale (damped + damped / count) 0
  k + 36 * scaled / (scaled + 38)

/-- The state of the writer: what is written, the distance so far, the bias, how many characters are
written, and whether none of them had a distance. -/
structure Writer where
  written : Text
  distance : Nat
  bias : Nat
  count : Nat
  isFirst : Bool

/-- Pass a character of the label while the characters with code point `point` are written. -/
def Writer.pass (point : Nat) (w : Writer) (c : Char) : Writer :=
  if c.toNat < point then { w with distance := w.distance + 1 }
  else if c.toNat = point then
    { written := w.written ++ digits w.bias 36 w.distance
      distance := 0
      bias := adapt w.distance (w.count + 1) w.isFirst
      count := w.count + 1
      isFirst := false }
  else w

/-- Write the characters with the given code points, which ascend from `next` on. -/
def Writer.write (label : Text) (next : Nat) (w : Writer) : List Nat → Text
  | [] => w.written
  | point :: points =>
    let start := { w with distance := w.distance + (point - next) * (w.count + 1) }
    let done := label.foldl (Writer.pass point) start
    Writer.write label (point + 1) { done with distance := done.distance + 1 } points

/-- A label with characters beyond ASCII, in ASCII. -/
def encode (label : Text) : Text :=
  let ascii := label.filter fun c => c.toNat < 0x80
  let points := (label.filter fun c => !(c.toNat < 0x80)).map Char.toNat
  let start : Writer :=
    { written := if ascii.isEmpty then [] else ascii ++ ['-']
      distance := 0, bias := 72, count := ascii.length, isFirst := true }
  start.write label 0x80 (points.eraseDups.mergeSort fun a b => a ≤ b)

end Punycode

end MacroScript
