import Provenance.Text.Basic

/-!
# Files that can be read

* `FileStore` : the files that there are, by their names from the root on, and the directory that
  relative paths start from;
* `FileStore.read` : the text of the file at a path, or why it cannot be read;
* `FileStore.workdirPath` : the path of the directory that relative paths start from.

A path is followed name by name, as it is written: `.` and an empty name stay in a directory, `..`
goes to the one above. So a path that goes through a missing directory leads nowhere, even if it
leaves that directory again.
-/

namespace Provenance

/-- The files that there are, and the directory that relative paths start from. Names are listed
from the root on. -/
structure FileStore where
  files : List (List Text × List UInt8)
  workdir : List Text
  deriving Repr

inductive FileFault where
  /-- Nothing is there. -/
  | missing
  /-- What is there is no file, or not one that holds UTF-8 text. -/
  | unreadable
  deriving DecidableEq, Repr

namespace FileStore

def longestName : Nat := 255

/-- The length in bytes of the longest path, with a byte that ends it. -/
def longestPath : Nat := 4096

/-- Whether there is a directory with these names. The root and the directory that paths start from
are there even if they are empty. -/
def isDirectory (s : FileStore) (names : List Text) : Bool :=
  names.isPrefixOf s.workdir ||
    s.files.any fun (file, _) => names.isPrefixOf file && names.length < file.length

def find? (s : FileStore) (names : List Text) : Option (List UInt8) := s.files.lookup names

/-- Where a name leads from the place with the names `here`. -/
def enter (s : FileStore) (here : List Text) (name : Text) : Except FileFault (List Text) :=
  if !s.isDirectory here then .error .unreadable
  else if name = [] ∨ name = ['.'] then .ok here
  else if name = ['.', '.'] then .ok here.dropLast
  else if longestName < (Text.utf8 name).length then .error .unreadable
  else if s.isDirectory (here ++ [name]) || (s.find? (here ++ [name])).isSome then
    .ok (here ++ [name])
  else .error .missing

def read (s : FileStore) (path : Text) : Except FileFault Text := do
  if path = [] then throw .missing
  if '\x00' ∈ path ∨ longestPath ≤ (Text.utf8 path).length then throw .unreadable
  let start := if path.head? = some '/' then [] else s.workdir
  let place ← (path.splitOn '/').foldlM s.enter start
  match (s.find? place).bind Text.ofUtf8? with
  | some text => return text
  | none => throw .unreadable

def workdirPath (s : FileStore) : Text := '/' :: ['/'].intercalate s.workdir

end FileStore

end Provenance
