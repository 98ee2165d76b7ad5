import Provenance.MapError
import Provenance.PositionMap.Basic
import Provenance.SourceMap

/-!
# Position maps out of source map documents

The segments of a mappings text are read in order, and the first that is wrong is the one that is
told. Within a segment its digits come first, then the number of its fields, then the fields from
left to right.

* `PositionMap.pieces` : the segments of a text with their lines; empty ones are passed over;
* `Totals.read` : the mapping of a segment and the totals behind it;
* `PositionMap.ofSourceMap`, `PositionMap.ofText` : the position map of a document and of a text.
-/

namespace Provenance

namespace Totals

/-- A running sum, which has to fit into 64 bits with a sign. -/
def sum (total delta : Int) : Except SegmentFault Int :=
  if Word.IsSigned (total + delta) then .ok (total + delta) else .error .sumOverflow

/-- The entry of a table at an index. -/
def entry (table : List Text) (index : Int) (fault : SegmentFault) : Except SegmentFault Text :=
  if index < 0 then .error fault
  else
    match table[index.toNat]? with
    | some t => .ok t
    | none => .error fault

def natural (i : Int) (fault : SegmentFault) : Except SegmentFault Nat :=
  if i < 0 then .error fault else .ok i.toNat

/-- The generated position of a segment, from its first field. -/
def readColumn (t : Totals) (column : Int) : Except SegmentFault (Position × Totals) := do
  let column ← sum t.column column
  return (⟨t.line, ← natural column .negativeColumn⟩, { t with column })

/-- The origin of a segment, from its next three fields. Lines are counted from 0. -/
def readOrigin (t : Totals) (sources : List Text) (source line column : Int) :
    Except SegmentFault (Origin × Totals) := do
  let source ← sum t.source source
  let originLine ← sum t.originLine line
  let originColumn ← sum t.originColumn column
  let path ← entry sources source (.unknownSource source)
  let line ← natural originLine .negativeOriginLine
  let column ← natural originColumn .negativeOriginColumn
  return (⟨path, line + 1, column⟩, { t with source, originLine, originColumn })

def readName (t : Totals) (names : List Text) (name : Int) : Except SegmentFault (Text × Totals) :=
  do
    let name ← sum t.name name
    return (← entry names name (.unknownName name), { t with name })

/-- The mapping of a segment on the line of the totals, and the totals behind it. -/
def read (t : Totals) (sources names : List Text) (piece : Text) :
    Except SegmentFault (Mapping × Totals) := do
  match ← (Vlq.decode piece).mapError .digits with
  | [column] =>
    let (generated, t) ← t.readColumn column
    return (⟨generated, none, none⟩, t)
  | [column, source, line, originColumn] =>
    let (generated, t) ← t.readColumn column
    let (origin, t) ← t.readOrigin sources source line originColumn
    return (⟨generated, some origin, none⟩, t)
  | [column, source, line, originColumn, name] =>
    let (generated, t) ← t.readColumn column
    let (origin, t) ← t.readOrigin sources source line originColumn
    let (name, t) ← t.readName names name
    return (⟨generated, some origin, some name⟩, t)
  | values => throw (.fieldCount values.length)

end Totals

namespace PositionMap

/-- The segments of a mappings text, each with its line, counted from 1. -/
def pieces (mappings : Text) : List (Nat × Text) :=
  ((mappings.splitOn ';').zipIdx 1).flatMap fun (line, number) =>
    ((line.splitOn ',').filter (!·.isEmpty)).map (number, ·)

/-- The mappings of segments behind the totals; `index` is the number of segments before them. -/
def readSegments (sources names : List Text) (index : Nat) (t : Totals) :
    List (Nat × Text) → Except MapError (List Mapping)
  | [] => .ok []
  | (line, piece) :: rest =>
    match (t.enter line).read sources names piece with
    | .error fault => .error (.badSegment index fault)
    | .ok (m, next) => (readSegments sources names (index + 1) next rest).map (m :: ·)

def ofSourceMap (s : SourceMap) : Except MapError PositionMap :=
  if s.version = SourceMap.revision then
    (readSegments s.sources s.names 0 {} (pieces s.mappings)).map (⟨s.file, s.sourceRoot, ·⟩)
  else .error (.unsupportedVersion s.version)

def ofText (t : Text) : Except MapError PositionMap :=
  match (Json.parse? t).bind SourceMap.ofJson? with
  | none => .error .badJson
  | some s => ofSourceMap s

end PositionMap

end Provenance
