import MacroScript.Analysis
import MacroScript.Catalogue.Hints
import MacroScript.Completion.Candidate

/-!
# Completion

What to offer at a position. After a point these are the members of what stands before it; elsewhere
the names seen on the line, the keywords and the built-in names. In a comment, in a string literal
and in the name of a declaration there is nothing to offer.

The expression before a point is read from right to left: names, points, brackets with all they
hold, and string literals. It stops at a bracket that is open there, or at any other character
outside brackets. A quote is taken back to the nearest quote of its kind.
-/
namespace MacroScript

/-! ## The text before the cursor -/

/-- The text is a declaration that has not come to its value. -/
def isOpenDeclaration (t : Text) : Bool :=
  Text.opensWithWord Catalogue.varKeyword.toList t &&
    !(t.drop Catalogue.varKeyword.length).contains '='

/-- There is something to offer after the text. -/
def offersAfter (t : Text) : Bool :=
  let code := Text.trimStart t
  !(['/', '/'].isPrefixOf code) && !Text.endsInString t && !isOpenDeclaration code &&
    -- a trailing comment shortens the code
    Text.byteSize (codeOf t) == Text.byteSize t

/-! ## The owner of a member -/

/-- A character that can stand in an owner outside brackets. -/
def isOwnerChar (c : Char) : Bool :=
  isLetterOrNumeral c || c == '_' || c == '$' || c == '.'

/-- The owner at the start of a text that is given from right to left, as is the result. -/
def ownerBackwards (depth : Nat) : Text → Text
  | [] => []
  | c :: cs =>
    if isQuote c then
      let inner := cs.takeWhile (· != c)
      if cs.contains c then c :: inner ++ c :: ownerBackwards depth (cs.drop (inner.length + 1))
      else []
    else if c = ')' || c = ']' then c :: ownerBackwards (depth + 1) cs
    else if c = '(' || c = '[' then
      if depth = 0 then [] else c :: ownerBackwards (depth - 1) cs
    else if 0 < depth || isOwnerChar c then c :: ownerBackwards depth cs
    else []
termination_by t => t.length
decreasing_by
  all_goals simp only [List.length_cons, List.length_drop]; omega

/-- The expression that ends with the text. -/
def Text.owner (t : Text) : Text :=
  Text.trim (ownerBackwards 0 t.reverse).reverse

/-! ## Offers -/

/-- The candidate for a member of values with the tag. -/
def Candidate.ofMember (tag : Tag) (member : String × Candidate.Kind) : Candidate :=
  .ofCatalogue member.1 member.2 (Catalogue.hintKey tag member.1)

/-- The members of all tags, each label and kind once. -/
def allMembers : List Candidate :=
  let members := Tag.all.flatMap fun tag => (Catalogue.members tag).map (tag, ·)
  (distinctBy (·.2) [] members).map fun (tag, member) => .ofMember tag member

/-- The members of values with the tag; those of all tags if nothing is known. -/
def memberCandidates (tag : Tag) : List Candidate :=
  if tag = .any then allMembers
  else (Catalogue.members tag).map (.ofMember tag)

/-- The candidates for the names seen on a line, each once. A name stands for the symbol that it
means there. -/
def variableCandidates (table : Symbol.Table) (line : Nat) : List Candidate :=
  (distinctBy (·.name) [] (table.seenOn line)).map fun s =>
    let id := match table.meaningOn s.name line with
      | some meant => meant.id
      | none => s.id
    { label := String.ofList s.name, kind := .variable, key := .symbol Catalogue.variableKey id }

/-- The candidates for the functions of the document. A call is inserted for each. -/
def functionCandidates (table : Symbol.Table) : List Candidate :=
  table.functions.map fun name =>
    { label := String.ofList name, kind := .function, key := .catalogue Catalogue.functionKey
      insertText := some (String.ofList name ++ "()") }

/-- The candidates for the classes of the document. -/
def classCandidates (table : Symbol.Table) : List Candidate :=
  table.classes.map fun name =>
    .ofCatalogue (String.ofList name) .classDefinition Catalogue.classKey

/-- The candidates that every script has: keywords, global functions and built-in objects. -/
def builtInCandidates : List Candidate :=
  let named (kind : Candidate.Kind) (name : String) : Candidate := .ofCatalogue name kind name
  named .keyword Catalogue.varKeyword :: Catalogue.keywords.map (named .keyword) ++
    Catalogue.builtInFunctions.map (named .function) ++
    Catalogue.builtInObjects.map (named .classDefinition)

/-- The candidates on a line where no point comes before. -/
def nameCandidates (table : Symbol.Table) (line : Nat) : List Candidate :=
  variableCandidates table line ++ functionCandidates table ++ classCandidates table ++
    builtInCandidates

/-- The candidates after a text on a line. What is left of the word being typed does not matter. -/
def candidatesAfter (table : Symbol.Table) (line : Nat) (t : Text) : List Candidate :=
  let before := Text.dropEndWhile isNameChar t
  if before.getLast? = some '.' then
    memberCandidates ((table.namesOn line).infer (Text.owner before.dropLast))
  else nameCandidates table line

/-- The candidates at a position of a text, given what is declared. -/
def complete (t : Text) (p : Position) (table : Symbol.Table) : List Candidate :=
  match t.before? p with
  | none => []
  | some before => if offersAfter before then candidatesAfter table p.line.toNat before else []

end MacroScript
