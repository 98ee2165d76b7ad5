import Provenance.PositionMap.Basic
import Provenance.SourceMap
import Provenance.Vlq

/-!
# Position maps as source map documents

The mappings are written in generated order. Lines are parted by `;` and the segments of a line by
`,`. A segment holds the column, then, if the mapping has an origin, its source, line and column,
and then, if it also has a name, the name. Sources and names are written as indices into tables
that list them in the order in which they appear first. A name without an origin is not written.

* `Totals.advance` : the fields of a mapping and the totals behind it;
* `PositionMap.segments` : the mappings text;
* `PositionMap.toSourceMap`, `PositionMap.toText` : the document and its JSON text.
-/

namespace Provenance

/-- The fields of a mapping relative to the totals, with its source and name as indices into the
tables, and the totals behind it. Lines of origins are counted from 0. That of `Word.half`, the
least word with a sign, does not fit into such a word any more; it is kept as the integer that it
is, which no reader takes back. -/
def Totals.advance (t : Totals) (sources names : List Text) (m : Mapping) : List Int × Totals :=
  let column := Word.signed m.generated.column
  match m.origin with
  | none => ([column - t.column], { t with column })
  | some o =>
    let source := Word.signed (sources.idxOf o.source)
    let originLine := Word.signed o.line - 1
    let originColumn := Word.signed o.column
    let fields := [column - t.column, source - t.source, originLine - t.originLine,
      originColumn - t.originColumn]
    let next := { t with column, source, originLine, originColumn }
    match m.name with
    | none => (fields, next)
    | some n =>
      let name := Word.signed (names.idxOf n)
      (fields ++ [name - t.name], { next with name })

namespace PositionMap

/-- What parts a segment on `line` from what was written before it. -/
def separator (t : Totals) (started : Bool) (line : Nat) : Text :=
  if t.line < line then List.replicate (line - t.line) ';'
  else if started then [','] else []

/-- The text of mappings in generated order behind the totals. -/
def segments (sources names : List Text) (t : Totals) (started : Bool) : List Mapping → Text
  | [] => []
  | m :: rest =>
    let (fields, next) := (t.enter m.generated.line).advance sources names m
    separator t started m.generated.line ++ fields.flatMap Vlq.encode ++
      segments sources names next true rest

def toSourceMap (m : PositionMap) : SourceMap :=
  let sources := (m.ordered.filterMap fun entry => entry.origin.map Origin.source).eraseDups
  let names := (m.ordered.filterMap fun entry => entry.origin.bind fun _ => entry.name).eraseDups
  { version := SourceMap.revision
    file := m.file
    sourceRoot := m.sourceRoot
    sources
    sourcesContent := none
    names
    mappings := segments sources names {} false m.ordered }

def toText (m : PositionMap) : Text := m.toSourceMap.toJson.render

end PositionMap

end Provenance
