import Provenance.Text.Basic

/-!
# Slash-separated references

A reference to a source is a relative path, an absolute path or a URL. References are worked on
as text, without looking at any file system.

* `Path.scheme?` : the scheme a reference begins with, and what follows its colon;
* `Path.splitAuthority` : the part up to and including a URL's authority, and the rest;
* `Path.isAbsolute` : whether a reference begins with `/` or a scheme;
* `Path.dirname` : the directory of a reference;
* `Path.normalize` : `.` and `..` folded and repeated separators collapsed;
* `Path.join` : a reference resolved against a directory.
-/

namespace Provenance.Path

/-! ## Schemes and authorities -/

/-- The characters of a scheme after its first letter. -/
def isSchemeChar (c : Char) : Bool := c.isAlphanum || c == '+' || c == '.' || c == '-'

/-- The scheme that a reference begins with, and what follows its colon. -/
def scheme? : Text → Option (Text × Text)
  | [] => none
  | c :: t =>
    if c.isAlpha then
      match t.dropWhile isSchemeChar with
      | ':' :: rest => some (c :: t.takeWhile isSchemeChar, rest)
      | _ => none
    else none

/-- A reference cut behind its authority, as in `http://host` and `/a.js`. The first part is empty
if the reference is no URL with two slashes after its scheme; the host may be empty. -/
def splitAuthority (path : Text) : Text × Text :=
  match scheme? path with
  | some (scheme, '/' :: '/' :: rest) =>
    (scheme ++ ':' :: '/' :: '/' :: rest.takeWhile (· != '/'), rest.dropWhile (· != '/'))
  | _ => ([], path)

def isAbsolute (path : Text) : Bool := path.head? == some '/' || (scheme? path).isSome

/-! ## Directories -/

/-- The directory part of a reference: nothing for a bare name, and `/` for a name at the root. -/
def dirname (path : Text) : Text :=
  match path.reverse.dropWhile (· != '/') with
  | [] => []
  | ['/'] => ['/']
  | _ :: before => before.reverse

/-! ## Normal form -/

/-- The segment that stays where it is. -/
def here : Text := ['.']

/-- The segment that climbs to the directory above. -/
def above : Text := ['.', '.']

/-- Adds a segment to those kept so far, the last of which stands first. An empty segment and `.`
add nothing; `..` takes back the last name, and where there is none it is kept unless the path is
`rooted`, because nothing is above a root. -/
def push (rooted : Bool) (kept : List Text) (segment : Text) : List Text :=
  if segment = [] ∨ segment = here then kept
  else if segment ≠ above then segment :: kept
  else
    let climbed := if rooted then kept else above :: kept
    match kept with
    | [] => climbed
    | last :: before => if last = above then climbed else before

/-- The segments that remain of a path after folding. -/
def foldSegments (rooted : Bool) (path : Text) : List Text :=
  ((path.splitOn '/').foldl (push rooted) []).reverse

/-- Folds `.` and `..` segments and collapses repeated separators. An authority is kept as it is,
a slash at the end stays if anything is left in front of it, and nothing at all is written `.`. -/
def normalize (path : Text) : Text :=
  let (authority, rest) := splitAuthority path
  let rooted := authority ≠ [] || rest.head? == some '/'
  let segments := foldSegments rooted rest
  let closing := decide (1 < rest.length) && rest.getLast? == some '/' && !segments.isEmpty
  let result := authority ++ (if rooted then ['/'] else []) ++ ['/'].intercalate segments ++
    (if closing then ['/'] else [])
  if result = [] then here else result

/-- Resolves `path` against the directory `base`. An absolute reference is only brought to its
normal form. -/
def join (base path : Text) : Text :=
  if isAbsolute path || base.isEmpty then normalize path
  else if path.isEmpty then normalize base
  else normalize ((base.reverse.dropWhile (· == '/')).reverse ++ '/' :: path)

end Provenance.Path
