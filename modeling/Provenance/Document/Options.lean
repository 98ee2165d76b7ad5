import Provenance.MapComment
import Provenance.FileStore
import Provenance.Json.Range
import Provenance.Text.Quoted

/-!
# Options of a document

* `PreviousMap` : where the map of an input comes from that was itself generated;
* `PreviousMap.resolve` : that map, or a `DocumentError`;
* `PreviousMap.display`, `PreviousMap.describe` : a previous map for people to read, and in short;
* `DocumentOptions` : what is chosen when a document is begun; `DocumentOptions.ofText?` reads them
  from JSON: a boolean, which turns tracking on or off, or a record;
* `RenderOptions` : what is chosen when a document is rendered.
-/

namespace Provenance

/-! ## The fields of a map, for people to read -/

namespace Text

def bracketed (items : List Text) : Text := '[' :: ", ".toList.intercalate items ++ [']']

def optional : Option Text → Text
  | none => "None".toList
  | some t => "Some(".toList ++ t ++ [')']

/-- The name of a kind of record, and its fields between braces. -/
def fields (name : Text) (values : List (Text × Text)) : Text :=
  let items := values.map fun (key, value) => key ++ ':' :: ' ' :: value
  name ++ ' ' :: '\x7b' :: ' ' :: ", ".toList.intercalate items ++ [' ', '\x7d']

end Text

def Position.fields (p : Position) : Text :=
  Text.fields "Position".toList
    [("line".toList, Text.ofNat p.line), ("column".toList, Text.ofNat p.column)]

def Origin.fields (o : Origin) : Text :=
  Text.fields "OriginalPosition".toList [("source".toList, Text.quoted o.source),
    ("line".toList, Text.ofNat o.line), ("column".toList, Text.ofNat o.column)]

def Mapping.fields (m : Mapping) : Text :=
  Text.fields "Mapping".toList [("generated".toList, m.generated.fields),
    ("original".toList, Text.optional (m.origin.map Origin.fields)),
    ("name".toList, Text.optional (m.name.map Text.quoted))]

def PositionMap.fields (m : PositionMap) : Text :=
  Text.fields "PositionMap".toList [("file".toList, Text.optional (m.file.map Text.quoted)),
    ("source_root".toList, Text.optional (m.sourceRoot.map Text.quoted)),
    ("mappings".toList, Text.bracketed (m.mappings.map Mapping.fields))]

/-! ## Previous maps -/

inductive DocumentError where
  | previousNotFound (path : Text)
  | previousUnreadable (path : Text)
  | previousUnresolved (name : Text)
  | previousInvalid (cause : MapError)
  deriving DecidableEq, Repr

def DocumentError.message : DocumentError → String
  | previousNotFound path => s!"Previous source map not found: {String.ofList path}"
  | previousUnreadable path => s!"Failed to read previous source map {String.ofList path}"
  | previousUnresolved name =>
    s!"No previous source map could be resolved for {String.ofList name}"
  | previousInvalid cause => s!"Invalid previous source map: {cause.message}"

/-- Where the map of an input comes from. -/
inductive PreviousMap where
  /-- A text that is a map or ends with one. -/
  | inline (text : Text)
  /-- A file with such a text. -/
  | path (path : Text)
  /-- Such a text for the name of the document. -/
  | resolver (resolve : Text → Option Text)
  | decoded (map : PositionMap)

namespace PreviousMap

/-- The map in a text: the text itself is JSON if it begins with a brace after any blanks, and
otherwise has to end with an annotation. -/
def readText (text : Text) : Except MapError PositionMap :=
  if (Text.trimStart text).head? = some '\x7b' then PositionMap.ofText text
  else (MapComment.decodeStrict text).map Prod.snd

def resolve (files : FileStore) (name : Text) : PreviousMap → Except DocumentError PositionMap
  | inline text => (readText text).mapError .previousInvalid
  | path p =>
    match files.read p with
    | .ok text => (readText text).mapError .previousInvalid
    | .error .missing => .error (.previousNotFound p)
    | .error .unreadable => .error (.previousUnreadable p)
  | resolver f =>
    match f name with
    | some text => (readText text).mapError .previousInvalid
    | none => .error (.previousUnresolved name)
  | decoded m => .ok m

/-- A previous map for people to read: how many bytes a text has, the path of a file, and the fields
of a map. -/
def display : PreviousMap → Text
  | inline text => "Inline(".toList ++ Text.ofNat (Text.utf8 text).length ++ [')']
  | path p => "Path(".toList ++ Text.quoted p ++ [')']
  | resolver _ => "Resolver(..)".toList
  | decoded m => "Decoded(".toList ++ m.fields ++ [')']

/-- The same in short, without the fields of a map. -/
def describe : PreviousMap → Text
  | decoded _ => "Decoded".toList
  | p => p.display

end PreviousMap

/-! ## Options of a document -/

structure DocumentOptions where
  /-- Whether positions are tracked. -/
  tracked : Bool := false
  /-- The comment that carries the map of the rendered document. -/
  comment : CommentStyle := .inline
  sourceRoot : Option Text := none
  previous : Option PreviousMap := none

namespace DocumentOptions

def ofBool (tracked : Bool) : DocumentOptions := { tracked }

/-- Options with a previous map, for which positions have to be tracked. -/
def withPrevious (o : DocumentOptions) (p : PreviousMap) : DocumentOptions :=
  { o with tracked := true, previous := some p }

def keys : List Text := ["sourceMap".toList, "comment".toList, "sourceRoot".toList]

/-- Whether positions are tracked and where the previous map is: a boolean, or an object that may
hold the path. -/
def tracking? : Json → Option (Bool × Option Text)
  | .bool b => some (b, none)
  | .obj members => do
    let [path] ← (Json.obj members).fields? ["prev".toList] | none
    return (true, ← path.optional Json.toText?)
  | _ => none

def ofJson? : Json → Option DocumentOptions
  | .bool b => some (ofBool b)
  | j => do
    let [sourceMap, comment, sourceRoot] ← j.fields? keys | none
    let tracking ← sourceMap.defaulted none (Json.toOption? tracking?)
    let (tracked, path) := tracking.getD (false, none)
    return {
      tracked
      comment := ← comment.defaulted .inline CommentStyle.ofJson?
      sourceRoot := ← sourceRoot.defaulted none (Json.toOption? Json.toText?)
      previous := path.map .path }

/-- The options that a JSON text spells. The whole text is read before it is known which form it
has, so all of it has to be a value that can be held. -/
def ofText? (t : Text) : Option DocumentOptions := do
  let j ← Json.parse? t
  guard j.isHoldable
  ofJson? j

end DocumentOptions

/-! ## Options of rendering -/

structure RenderOptions where
  comment : CommentStyle := .inline
  deriving DecidableEq, Repr

def RenderOptions.ofJson? (j : Json) : Option RenderOptions := do
  let [comment] ← j.fields? ["comment".toList] | none
  return ⟨← comment.defaulted .inline CommentStyle.ofJson?⟩

end Provenance
