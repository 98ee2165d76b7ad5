import Provenance.PositionMap.Basic

/-!
# Building maps out of maps

* `PositionMap.recordFragment` : the line starts of a fragment that has no map of its own;
* `Position.within`, `PositionMap.compose` : the mappings of a fragment's own map, moved to where
  the fragment was written;
* `PositionMap.traceThrough` : origins in one file replaced by what another map says about them.
-/

namespace Provenance

/-- A position of a fragment as a position of the document that the fragment was written into at
`start`. Only the first line of the fragment is moved sideways. -/
def Position.within (p start : Position) : Position :=
  ⟨start.line + p.line - 1, if p.line = 1 then start.column + p.column else p.column⟩

namespace PositionMap

/-- Records a fragment of `count` lines that begins at `anchor` in `source` and was written at
`start`: one mapping a line, at column 0 but for the first. -/
def recordFragment (m : PositionMap) (source : Text) (start anchor : Position) (count : Nat) :
    PositionMap :=
  { m with
    mappings := m.mappings ++ (List.range count).map fun i =>
      let column (first : Position) := if i = 0 then first.column else 0
      ⟨⟨start.line + i, column start⟩, some ⟨source, anchor.line + i, column anchor⟩, none⟩ }

/-- Adds the mappings of `embedded`, the map of a fragment that was read from `source` and written
at `start`. Relative sources are taken from the directory of `source`. -/
def compose (m embedded : PositionMap) (source : Text) (start : Position) : PositionMap :=
  let moved (entry : Mapping) : Mapping :=
    { entry with
      generated := entry.generated.within start
      origin := entry.origin.map fun o =>
        { o with source := Path.join (Path.dirname source) (embedded.resolve o.source) } }
  { m with mappings := m.mappings ++ embedded.mappings.map moved }

/-- A mapping into `file` followed through `base`, whose mappings in generated order are `ordered`:
it gets the origin that `base` knows for it, and the name if there is one. -/
def traced? (base : PositionMap) (ordered : List Mapping) (file : Text) (entry : Mapping) :
    Option Mapping := do
  let o ← entry.origin
  guard (o.source = file)
  let found ← Mapping.governing ordered o.position
  let origin ← found.origin
  return { entry with origin := some (base.resolveOrigin origin), name := found.name.or entry.name }

/-- Follows the mappings into `file` through `base`, the map of that file. A mapping whose origin
`base` does not know stays as it is. -/
def traceThrough (m base : PositionMap) (file : Text) : PositionMap :=
  let ordered := base.ordered
  { m with
    mappings := m.mappings.map fun entry => (base.traced? ordered file entry).getD entry }

end PositionMap

end Provenance
