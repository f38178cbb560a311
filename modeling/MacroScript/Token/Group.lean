import MacroScript.Token.Basic

/-!
# Bracketed groups

The closing partner of an opening bracket within one line. Only brackets of the same kind count, so
a stray bracket of another kind does not disturb the pairing. What stands outside of all groups is
told by a depth to which the brackets of every kind contribute.
-/
namespace MacroScript

namespace Token

/-- How many tokens after the start of the list the bracket that is `depth` levels deep is closed.
-/
def closeAfter (bracket : Bracket) : Nat → List Token → Option Nat
  | _, [] => none
  | depth, t :: ts =>
    if t.kind = .opener bracket then (closeAfter bracket (depth + 1) ts).map (· + 1)
    else if t.kind = .closer bracket then
      if depth ≤ 1 then some 0 else (closeAfter bracket (depth - 1) ts).map (· + 1)
    else (closeAfter bracket depth ts).map (· + 1)

/-- The index of the token that closes the group opened at index `i`, if the line has it. -/
def partner? (tokens : List Token) (i : Nat) : Option Nat :=
  match tokens.drop i with
  | [] => none
  | t :: ts =>
    match t.kind with
    | .opener bracket => (closeAfter bracket 1 ts).map (· + (i + 1))
    | _ => none

end Token

/-- What a token adds to the bracket depth. -/
def Token.depthStep (t : Token) : Int :=
  if t.isOpener then 1 else if t.isCloser then -1 else 0

/-- The separator between the variable and the items: the first `:`, `of` or `in` outside brackets.
-/
def separatorFrom (depth : Int) : List Token → Option Token
  | [] => none
  | t :: ts =>
    let depth := depth + t.depthStep
    if depth = 0 && (t.kind = .colon || t.isWord "of" || t.isWord "in") then some t
    else separatorFrom depth ts

end MacroScript
