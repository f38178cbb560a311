import MacroScript.Url.Host

/-!
# URLs

A document is known by its URL, and one document can be addressed in several ways: `FILE:///A` and
`file://localhost/A` both are `file:///A`. A URL is read into its parts, which forget the
differences that do not matter, and written from them. Two spellings address the same document if
they are written the same.

The schemes fall into three kinds. Those of the web have a host and a path; files may have a host,
which is dropped if it is the own machine; all others may have a host, a path alone, or something
after the scheme that is no path at all.
-/
namespace MacroScript

namespace Url

/-- The kinds of schemes. -/
inductive Kind where
  /-- Of the web, with the service that is used if none is given. -/
  | web (service : Nat)
  | file
  | other
deriving DecidableEq, Repr

namespace Kind

/-- The kind of a scheme given in lower case. -/
def ofScheme (scheme : Text) : Kind :=
  match String.ofList scheme with
  | "http" => web 80
  | "ws" => web 80
  | "https" => web 443
  | "wss" => web 443
  | "ftp" => web 21
  | "file" => file
  | _ => other

/-- The scheme is not one of the others. These take a backslash for a slash. -/
def isSpecial : Kind → Bool
  | other => false
  | _ => true

end Kind

/-- Where a URL leads: a user with a password, a host, and the number of a service on it. -/
structure Authority where
  user : Text := []
  password : Text := []
  host : Host := .absent
  service : Option Nat := none
deriving DecidableEq, Repr

/-- What follows the authority. -/
inductive Path where
  /-- Segments with a slash before each of them. -/
  | segments (list : List Text)
  /-- No path, but anything else. -/
  | rest (t : Text)
deriving DecidableEq, Repr

end Url

/-- A URL by its parts. -/
structure Url where
  scheme : Text
  authority : Option Url.Authority
  path : Url.Path
  query : Option Text
  fragment : Option Text
deriving DecidableEq, Repr

namespace Url

/-! ## Cuts -/

/-- The text before the first separator, and what comes after it if there is one. -/
def cutAt (sep : Char) (t : Text) : Text × Option Text :=
  let before := t.takeWhile (· != sep)
  match t.drop before.length with
  | [] => (before, none)
  | _ :: after => (before, some after)

/-- The text without what is passed over in a URL: white space and control characters around it, and
tabs and line breaks anywhere. -/
def visibleText (t : Text) : Text :=
  let isOuter (c : Char) : Bool := c.toNat ≤ 0x20
  (Text.dropEndWhile isOuter (t.dropWhile isOuter)).filter fun c =>
    !(c = '\t' || c = '\n' || c = '\r')

/-- A character of a scheme. -/
def isSchemeChar (c : Char) : Bool :=
  c.isAlphanum || c == '+' || c == '-' || c == '.'

/-- The scheme in lower case, and what follows its colon. -/
def scheme? (t : Text) : Option (Text × Text) :=
  match cutAt ':' t with
  | (scheme, some rest) =>
    if scheme.head?.any Char.isAlpha && scheme.all isSchemeChar then
      some (scheme.map Char.toLower, rest)
    else none
  | _ => none

/-! ## Authorities -/

/-- The host and, after a colon that is not inside brackets, the service. -/
def splitService (inBrackets : Bool) : Text → Text × Option Text
  | [] => ([], none)
  | c :: cs =>
    if c = ':' && !inBrackets then ([], some cs)
    else
      let (host, service) := splitService (c = '[' || (inBrackets && c != ']')) cs
      (c :: host, service)

/-- The service that digits stand for. The one that goes without saying is left out. -/
def service? (kind : Kind) (digits : Text) : Option (Option Nat) :=
  if digits.isEmpty then some none
  else do
    let service ← if digits.all Char.isDigit then Host.number? 10 digits else none
    if 0xFFFF < service then none
    else if kind = .web service then some none
    else some (some service)

/-- The authority that a text stands for. What comes before its last `@` is the user. -/
def authority? (kind : Kind) (t : Text) : Option Authority := do
  let parts := List.splitOn '@' t
  let (hostText, serviceText) := splitService false (← parts.getLast?)
  let (user, password) := cutAt ':' (List.intercalate ['@'] parts.dropLast)
  if hostText.isEmpty then
    if kind = .other && parts.length = 1 && serviceText.isNone then some {} else none
  else
    return { user := percentEncode isEncodedInUser user
             password := percentEncode isEncodedInUser (password.getD [])
             host := ← Host.ofText? kind.isSpecial hostText
             service := ← service? kind (serviceText.getD []) }

/-! ## Paths -/

/-- The segment means the directory itself. -/
def isHere (segment : Text) : Bool :=
  [".", "%2e"].contains (String.ofList (segment.map Char.toLower))

/-- The segment means the directory above. -/
def isAbove (segment : Text) : Bool :=
  ["..", ".%2e", "%2e.", "%2e%2e"].contains (String.ofList (segment.map Char.toLower))

/-- The segment is a drive, `C:` or `C|`. -/
def isDrive : Text → Bool
  | [letter, mark] => letter.isAlpha && (mark == ':' || mark == '|')
  | _ => false

/-- The path without its last segment. The drive of a file stays. -/
def dropSegment (kind : Kind) (path : List Text) : List Text :=
  match path with
  | [[letter, ':']] => if kind = .file && letter.isAlpha then path else []
  | _ => path.dropLast

/-- The segment as it is kept. A drive at the start of a file's path has a colon. -/
def keptSegment (kind : Kind) (path : List Text) (segment : Text) : Text :=
  if kind = .file && path.isEmpty && isDrive segment then segment.take 1 ++ [':']
  else percentEncode isEncodedInPath segment

/-- The path with segments added to it one after the other. A last segment that only moves leaves an
empty one behind, because it names a directory. -/
def addSegments (kind : Kind) (path : List Text) : List Text → List Text
  | [] => path
  | segment :: rest =>
    let directory := if rest.isEmpty then [[]] else []
    if isAbove segment then addSegments kind (dropSegment kind path ++ directory) rest
    else if isHere segment then addSegments kind (path ++ directory) rest
    else addSegments kind (path ++ [keptSegment kind path segment]) rest

/-- The segments from the first that is not empty on; the last one stays in any case. The path of a
file starts there. -/
def dropEmpty : List Text → List Text
  | [] :: segment :: rest => dropEmpty (segment :: rest)
  | path => path

/-- The segments of a path. -/
def segmentsOf (kind : Kind) (t : Text) : List Text :=
  let t := if kind.isSpecial then t.map fun c => if c = '\\' then '/' else c else t
  addSegments kind [] (List.splitOn '/' (if t.head? = some '/' then t.drop 1 else t))

/-! ## Reading -/

/-- A slash, or a backslash where that counts as one. -/
def isSlash (kind : Kind) (c : Char) : Bool :=
  c == '/' || (kind.isSpecial && c == '\\')

/-- The text before and from the first slash. -/
def splitSlash (kind : Kind) (t : Text) : Text × Text :=
  let before := t.takeWhile fun c => !isSlash kind c
  (before, t.drop before.length)

/-- The authority and the path of a file, from what follows the scheme. Two slashes come before a
host. A drive is no host, the own machine is left out, and so is the host before a drive. -/
def fileParts? (t : Text) : Option (Authority × Path) := do
  let afterSlashes := t.drop 2
  let (hostText, pathText) := splitSlash .file afterSlashes
  if (t.takeWhile (isSlash .file)).length < 2 then
    return ({}, .segments (dropEmpty (segmentsOf .file t)))
  else if isDrive hostText then
    return ({}, .segments (dropEmpty (segmentsOf .file afterSlashes)))
  else
    let host ← if hostText.isEmpty then some .absent else Host.ofText? true hostText
    let segments := segmentsOf .file pathText
    let isLeftOut := host = .domain "localhost".toList || segments.head?.any isDrive
    return ({ host := if isLeftOut then .absent else host }, .segments (dropEmpty segments))

/-- The authority and the path in what follows the scheme. -/
def parts? (kind : Kind) (t : Text) : Option (Option Authority × Path) := do
  let slashes := (t.takeWhile (isSlash kind)).length
  match kind with
  | .web _ =>
    let (authorityText, path) := splitSlash kind (t.drop slashes)
    return (some (← authority? kind authorityText), .segments (segmentsOf kind path))
  | .file =>
    let (authority, path) ← fileParts? t
    return (some authority, path)
  | .other =>
    if slashes = 0 then return (none, .rest (percentEncode isUnprintable t))
    else if slashes = 1 then return (none, .segments (segmentsOf kind t))
    else
      let (authorityText, path) := splitSlash kind (t.drop 2)
      let segments := if path.isEmpty then [] else segmentsOf kind path
      return (some (← authority? kind authorityText), .segments segments)

/-- The URL that a text stands for. -/
def ofText? (t : Text) : Option Url := do
  let (scheme, rest) ← scheme? (visibleText t)
  let kind := Kind.ofScheme scheme
  let (rest, fragment) := cutAt '#' rest
  let (rest, query) := cutAt '?' rest
  let (authority, path) ← parts? kind rest
  let onWeb := kind.isSpecial
  return { scheme, authority, path
           query := query.map (percentEncode (isEncodedInQuery onWeb))
           fragment := fragment.map (percentEncode isEncodedInFragment) }

/-! ## Writing -/

/-- An authority, after two slashes. -/
def Authority.toText (a : Authority) : Text :=
  let password := if a.password.isEmpty then [] else ':' :: a.password
  let user := if a.user.isEmpty && password.isEmpty then [] else a.user ++ password ++ ['@']
  let service := match a.service with
    | some service => ':' :: Nat.toDigits 10 service
    | none => []
  ['/', '/'] ++ user ++ a.host.toText ++ service

/-- A path. -/
def Path.toText : Path → Text
  | segments list => list.flatMap fun segment => '/' :: segment
  | rest t => t

/-- An optional part after its mark. -/
def markedText (mark : Char) : Option Text → Text
  | some t => mark :: t
  | none => []

/-- The URL as it is written. A path that starts with two slashes where there is no authority is
told from one by a point. -/
def toText (url : Url) : Text :=
  let path := url.path.toText
  let start := match url.authority with
    | some a => a.toText
    | none => if ['/', '/'].isPrefixOf path then ['/', '.'] else []
  url.scheme ++ [':'] ++ start ++ path ++ markedText '?' url.query ++ markedText '#' url.fragment

/-- The one spelling for all that address the same document. -/
def normalForm? (spelling : String) : Option String :=
  (ofText? spelling.toList).map fun url => String.ofList url.toText

end Url

end MacroScript
