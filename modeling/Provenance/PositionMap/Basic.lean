import Provenance.Path
import Provenance.Position

/-!
# Position maps

A position map says where the text of a generated document came from. Its mappings are kept in the
order in which they were recorded, also if positions repeat.

* `PositionMap` : the table, with the name of the document and a root for its sources;
* `PositionMap.ordered`, `Mapping.governing`, `PositionMap.mappingFor`, `PositionMap.originFor` :
  look-up by generated position;
* `PositionMap.resolve`, `PositionMap.resolveOrigin` : sources with the root applied;
* `PositionMap.generatedFor` : look-up by origin;
* `PositionMap.sources`, `PositionMap.display` : the sources, and a text for people to read;
* `Totals` : what the next segment of a mappings text is relative to; `Totals.enter` : the totals at
  the start of a later line.
-/

namespace Provenance

structure PositionMap where
  /-- The document that the table belongs to. -/
  file : Option Text
  /-- What relative sources are relative to. -/
  sourceRoot : Option Text
  mappings : List Mapping
  deriving DecidableEq, Repr

/-- Of mappings in generated order, the one that governs a position: the last one that does not
come after it, if it is on the same line. -/
def Mapping.governing (ordered : List Mapping) (p : Position) : Option Mapping :=
  (ordered.takeWhile fun m => m.generated ≤ p).getLast?.filter fun m => m.generated.line == p.line

namespace PositionMap

def empty (file : Text) (sourceRoot : Option Text) : PositionMap := ⟨some file, sourceRoot, []⟩

def add (m : PositionMap) (entry : Mapping) : PositionMap :=
  { m with mappings := m.mappings ++ [entry] }

/-! ## Look-up by generated position -/

/-- The mappings in the order of their generated positions. Those with the same position stay in
the order in which they were recorded. -/
def ordered (m : PositionMap) : List Mapping :=
  m.mappings.mergeSort fun a b => decide (a.generated ≤ b.generated)

/-- The mapping that governs a position of the document: the greatest on the same line that does
not come after it, and of several at one position the one recorded last. -/
def mappingFor (m : PositionMap) (p : Position) : Option Mapping := Mapping.governing m.ordered p

/-- A source with the root applied, if there is one and it is not empty. -/
def resolve (m : PositionMap) (source : Text) : Text :=
  match m.sourceRoot with
  | some (c :: root) => Path.join (c :: root) source
  | _ => source

def resolveOrigin (m : PositionMap) (o : Origin) : Origin := { o with source := m.resolve o.source }

def originFor (m : PositionMap) (p : Position) : Option Origin :=
  ((m.mappingFor p).bind Mapping.origin).map m.resolveOrigin

/-! ## Look-up by origin -/

/-- The origins in `source` that do not come after `p`, each with its generated position. -/
def candidates (m : PositionMap) (source : Text) (p : Position) : List (Position × Position) :=
  m.mappings.filterMap fun entry =>
    entry.origin.bind fun o =>
      if m.resolve o.source = source ∧ o.position ≤ p then some (o.position, entry.generated)
      else none

/-- The better of two candidates: that of the later origin, and of two with the same origin that of
the earlier generated position. -/
def better (best : Option (Position × Position)) (c : Position × Position) :
    Option (Position × Position) :=
  match best with
  | none => some c
  | some b => if b.1 < c.1 ∨ b.1 = c.1 ∧ c.2 < b.2 then some c else some b

/-- Where the greatest origin in `source` that does not come after `p` was emitted first. The
source is compared after applying the root. -/
def generatedFor (m : PositionMap) (source : Text) (p : Position) : Option Position :=
  ((m.candidates source p).foldl better none).map Prod.snd

/-! ## Views -/

/-- The sources of the mappings, each once, in the order in which they appear first. -/
def sources (m : PositionMap) : List Text :=
  (m.mappings.filterMap fun entry => entry.origin.map Origin.source).eraseDups

def display (m : PositionMap) : Text := ['\n'].intercalate (m.ordered.map Mapping.display)

end PositionMap

/-! ## Running totals of a mappings text -/

/-- What the fields of the next segment are relative to. Columns of the generated text start anew on
each line; the other fields go on through the whole text. -/
structure Totals where
  line : Nat := 1
  column : Int := 0
  source : Int := 0
  originLine : Int := 0
  originColumn : Int := 0
  name : Int := 0
  deriving DecidableEq, Repr

/-- The totals on a line: a later line starts its columns anew, and none is left behind. -/
def Totals.enter (t : Totals) (line : Nat) : Totals :=
  if t.line < line then { t with line, column := 0 } else t

end Provenance
