import Provenance.Document.Options
import Provenance.Lines
import Provenance.PositionMap.Composition

/-!
# Documents

A document is built by writing pieces one after the other. When its positions are tracked, each
fragment of a source leaves mappings at the place where it was written.

* `Fragment` : a piece with its source; `Fragment.ofContent` takes the annotation off a content and
  keeps its map;
* `Document` : the lines written so far and the map; `Document.create` begins one;
* `Document.write`, `Document.writeLine`, `Document.append`, `Document.writeFragment`,
  `Document.writeFile` : write a text, a text with a line end, a fragment, a content, a whole file;
* `Document.cursor`, `Document.content` : where the next piece goes, and the text so far;
* `Document.positionMap`, `Document.renderWith`, `Document.render` : the map, followed through the
  map of the input, and the text with its annotation.
-/

namespace Provenance

/-- A piece of a source. -/
structure Fragment where
  source : Text
  content : Text
  /-- Where the content begins in its source. -/
  anchor : Position
  /-- The map that the content carried, if it was itself generated. -/
  map : Option PositionMap
  deriving DecidableEq, Repr

/-- The fragment for a content that may carry a map. -/
def Fragment.ofContent (source content : Text) (anchor : Position) : Fragment :=
  let decoded := MapComment.decode content
  ⟨source, decoded.content, anchor, decoded.map⟩

/-- A document that is being written. -/
structure Document where
  name : Text
  lines : Lines
  /-- The mappings so far, if positions are tracked. -/
  map : Option PositionMap
  /-- The map of the input, if that was itself generated. -/
  base : Option PositionMap
  comment : CommentStyle
  deriving DecidableEq, Repr

namespace Document

/-- Begins a document. This fails only if the previous map cannot be had. -/
def create (files : FileStore) (name : Text) (o : DocumentOptions) :
    Except DocumentError Document := do
  let base ← o.previous.mapM (PreviousMap.resolve files name)
  return {
    name
    lines := Lines.empty
    map := if o.tracked || base.isSome then some (PositionMap.empty name o.sourceRoot) else none
    base
    comment := o.comment }

/-! ## Views -/

def isTracked (d : Document) : Bool := d.map.isSome

/-- Where the next piece goes. -/
def cursor (d : Document) : Position := ⟨d.lines.count, d.lines.current.length⟩

def content (d : Document) : Text := d.lines.toText

/-- The map of the document, followed through the map of the input. -/
def positionMap (d : Document) : Option PositionMap :=
  d.map.map fun m =>
    match d.base with
    | none => m
    | some base => m.traceThrough base (base.file.getD d.name)

/-! ## Writing -/

/-- Writes a text that comes from no source. -/
def write (d : Document) (t : Text) : Document := { d with lines := d.lines ++ Lines.ofText t }

def writeLine (d : Document) (t : Text) : Document := d.write (t ++ ['\n'])

/-- Writes a fragment. A fragment with a map hands on its mappings; of any other the line starts
are recorded. -/
def append (d : Document) (f : Fragment) : Document :=
  let record (m : PositionMap) : PositionMap :=
    match f.map with
    | some embedded => m.compose embedded f.source d.cursor
    | none => m.recordFragment f.source d.cursor f.anchor (Lines.ofText f.content).count
  ({ d with map := d.map.map record }).write f.content

def writeFragment (d : Document) (source content : Text) (anchor : Position) : Document :=
  d.append (Fragment.ofContent source content anchor)

/-- Writes a whole file and ends the line. -/
def writeFile (d : Document) (source content : Text) : Document :=
  (d.writeFragment source content ⟨1, 0⟩).write ['\n']

/-! ## Rendering -/

/-- The text with its annotation in the given style. Without a map it is the content alone. -/
def renderWith (d : Document) (o : RenderOptions) : Text :=
  match MapComment.encode d.content d.positionMap o.comment with
  | .ok t => t
  | .error _ => d.content

def render (d : Document) : Text := d.renderWith ⟨d.comment⟩

end Document

end Provenance
