import MacroScript.Text.Basic

/-!
# Paths

A path is a text of segments with slashes between them. Empty segments and single points mean
nothing, two points mean the directory above. Only a path that cannot leave the directory it is read
in is safe.
-/
namespace MacroScript

namespace Path

/-- The segments of a path between its slashes. -/
def segments (path : Text) : List Text :=
  List.splitOn '/' path

/-- The segments that mean something. -/
def components (path : Text) : List Text :=
  (segments path).filter fun segment => segment ≠ [] && segment ≠ ['.']

/-- The path starts at the root. -/
def isAbsolute (path : Text) : Bool :=
  path.head? = some '/'

/-- The path can only mean a directory, because nothing that means something comes last in it. -/
def isDirectory (path : Text) : Bool :=
  (segments path).getLast?.any fun segment => segment = [] || segment = ['.']

/-- A character that a safe path does not hold. -/
def isForbidden (c : Char) : Bool :=
  c.toNat = 0 || c = '\n' || c = '\r' || c = '\t'

/-- The path starts with a drive: a colon is its second byte. -/
def hasDrive (path : Text) : Bool :=
  match path with
  | first :: ':' :: _ => first.utf8Size = 1
  | _ => false

/-- The path is relative and stays below the directory it is read in. -/
def isSafe (path : Text) : Bool :=
  !path.isEmpty && !path.any isForbidden && !hasDrive path && !isAbsolute path &&
    !(segments path).contains ['.', '.']

/-- Both paths lead to the same place below one directory, and the first may name a file. -/
def reaches (path file : Text) : Bool :=
  !isDirectory path && components path == components file

end Path

end MacroScript
