import Provenance.FileStore
import Provenance.Json.Record

/-!
# Registered sources

* `SourceFile` : a path and, for a source that is held in memory, its content;
* `SourceContext` : the registered sources in order; `FileId` is the place of one;
* `SourceContext.add` : registers a source, in place of an earlier one with the same path;
* `SourceContext.get?`, `SourceContext.find?` : look-up by place and by path;
* `SourceContext.read` : the content of a path, from memory or from its file;
* their JSON forms.
-/

namespace Provenance

structure FileId where
  index : Nat
  deriving DecidableEq, Repr

namespace FileId

/-- The JSON form of a place, a bare number. -/
def toJson (id : FileId) : Json := .ofNat id.index

def ofJson? (j : Json) : Option FileId := j.toIndex?.map .mk

end FileId

/-- A source. Without a content it is read from the file at its path. -/
structure SourceFile where
  path : Text
  content : Option Text
  deriving DecidableEq, Repr

namespace SourceFile

def keys : List Text := ["path".toList, "content".toList]

def toJson (f : SourceFile) : Json :=
  Json.record keys [some (.quoted f.path), f.content.map .quoted]

def ofJson? (j : Json) : Option SourceFile := do
  let [path, content] ← j.fields? keys | none
  return ⟨← path.required Json.toText?, ← content.optional Json.toText?⟩

end SourceFile

structure SourceContext where
  files : List SourceFile
  deriving DecidableEq, Repr

namespace SourceContext

def empty : SourceContext := ⟨[]⟩

def size (c : SourceContext) : Nat := c.files.length

/-- Registers a source and tells its place. A path that is already there gets the new content. -/
def add (c : SourceContext) (path : Text) (content : Option Text) : FileId × SourceContext :=
  match c.files.findIdx? fun f => f.path == path with
  | some i => (⟨i⟩, ⟨c.files.modify i fun f => { f with content }⟩)
  | none => (⟨c.files.length⟩, ⟨c.files ++ [⟨path, content⟩]⟩)

def get? (c : SourceContext) (id : FileId) : Option SourceFile := c.files[id.index]?

def find? (c : SourceContext) (path : Text) : Option SourceFile :=
  c.files.find? fun f => f.path == path

/-- The content of a path. One that is held in memory goes first; any other path is read from its
file, registered or not. -/
def read (c : SourceContext) (files : FileStore) (path : Text) : Except FileFault Text :=
  match (c.find? path).bind SourceFile.content with
  | some t => .ok t
  | none => files.read path

def keys : List Text := ["files".toList]

def toJson (c : SourceContext) : Json :=
  Json.record keys [some (.arr (c.files.map SourceFile.toJson))]

def ofJson? (j : Json) : Option SourceContext := do
  let [files] ← j.fields? keys | none
  return ⟨← files.required (Json.toList? SourceFile.ofJson?)⟩

end SourceContext

end Provenance
