import Provenance.MapComment

/-!
# Locating positions of a document in its sources

* `Locator` : the path of a document and the map that its text carries;
* `Locator.ofContent` : takes the map off the text;
* `Locator.locate` : the position in the source for a position of the document, or that position
  itself where the map says nothing.
-/

namespace Provenance

/-- Finds the sources of a document's positions. -/
structure Locator where
  /-- The path of the document. -/
  document : Text
  map : Option PositionMap
  deriving DecidableEq, Repr

namespace Locator

def ofContent (document content : Text) : Locator :=
  ⟨document, (MapComment.decode content).map⟩

/-- A source as an absolute path: from the directory of the document, and then from `workdir`. -/
def absolute (l : Locator) (workdir source : Text) : Text :=
  let path := Path.join (Path.dirname l.document) source
  if Path.isAbsolute path then path else Path.join workdir path

/-- The column of an origin, moved by as much as the column `p` is away from the place where that
origin was emitted, if this is on the same line. A mapping pins only the start of a run of text.
To the left a column stops at 0, but to the right the sum is one of words and may wrap. -/
def carryColumn (m : PositionMap) (p : Position) (o : Origin) : Nat :=
  match m.generatedFor o.source o.position with
  | none => o.column
  | some emitted =>
    if emitted.line ≠ p.line then o.column
    else if emitted.column < p.column then Word.add o.column (p.column - emitted.column)
    else o.column - (emitted.column - p.column)

/-- The position in a source for a position of the document; its source is an absolute path. Where
there is no mapping with an origin, it is the position of the document itself. -/
def locate (l : Locator) (workdir : Text) (p : Position) : Origin :=
  match l.map with
  | none => ⟨l.document, p.line, p.column⟩
  | some m =>
    match m.originFor p with
    | none => ⟨l.document, p.line, p.column⟩
    | some o => ⟨l.absolute workdir o.source, o.line, carryColumn m p o⟩

end Locator

end Provenance
