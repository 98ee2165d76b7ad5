import Provenance.Json.Record

/-!
# Positions, origins and mappings

* `Position` : a line, counted from 1, and a column, counted in characters from 0. Positions are
  ordered by line, then by column;
* `Origin` : a position in a named source;
* `Mapping` : one entry of a position map, from a position of the generated text to its origin. A
  mapping without an origin marks text that comes from no source;
* their JSON forms, and their texts for people to read.
-/

namespace Provenance

/-! ## Positions -/

/-- A place in a text: its line, from 1, and its column in characters, from 0. -/
structure Position where
  line : Nat
  column : Nat
  deriving DecidableEq, Repr

namespace Position

instance : LE Position := ⟨fun a b => a.line < b.line ∨ a.line = b.line ∧ a.column ≤ b.column⟩

instance : LT Position := ⟨fun a b => a.line < b.line ∨ a.line = b.line ∧ a.column < b.column⟩

theorem le_iff {a b : Position} :
    a ≤ b ↔ a.line < b.line ∨ a.line = b.line ∧ a.column ≤ b.column := Iff.rfl

theorem lt_iff {a b : Position} :
    a < b ↔ a.line < b.line ∨ a.line = b.line ∧ a.column < b.column := Iff.rfl

instance (a b : Position) : Decidable (a ≤ b) := decidable_of_iff _ le_iff.symm

instance (a b : Position) : Decidable (a < b) := decidable_of_iff _ lt_iff.symm

theorem le_refl (a : Position) : a ≤ a := by simp [le_iff]

theorem le_trans {a b c : Position} (h : a ≤ b) (k : b ≤ c) : a ≤ c := by
  rw [le_iff] at *
  omega

theorem le_total (a b : Position) : a ≤ b ∨ b ≤ a := by
  simp only [le_iff]
  omega

theorem not_le {a b : Position} : ¬a ≤ b ↔ b < a := by
  simp only [le_iff, lt_iff]
  omega

def keys : List Text := ["line".toList, "column".toList]

def toJson (p : Position) : Json := Json.record keys [some (.ofNat p.line), some (.ofNat p.column)]

def ofJson? (j : Json) : Option Position := do
  let [line, column] ← j.fields? keys | none
  return ⟨← line.required Json.toIndex?, ← column.required Json.toIndex?⟩

end Position

/-! ## Origins -/

/-- A place in a source. -/
structure Origin where
  source : Text
  line : Nat
  column : Nat
  deriving DecidableEq, Repr

namespace Origin

def position (o : Origin) : Position := ⟨o.line, o.column⟩

def keys : List Text := ["source".toList, "line".toList, "column".toList]

def toJson (o : Origin) : Json :=
  Json.record keys [some (.quoted o.source), some (.ofNat o.line), some (.ofNat o.column)]

def ofJson? (j : Json) : Option Origin := do
  let [source, line, column] ← j.fields? keys | none
  return ⟨← source.required Json.toText?, ← line.required Json.toIndex?,
    ← column.required Json.toIndex?⟩

end Origin

/-! ## Mappings -/

structure Mapping where
  generated : Position
  origin : Option Origin
  name : Option Text
  deriving DecidableEq, Repr

namespace Mapping

def keys : List Text := ["generated".toList, "original".toList, "name".toList]

def toJson (m : Mapping) : Json :=
  Json.record keys [some m.generated.toJson, m.origin.map Origin.toJson, m.name.map Json.quoted]

def ofJson? (j : Json) : Option Mapping := do
  let [generated, origin, name] ← j.fields? keys | none
  return ⟨← generated.required Position.ofJson?, ← origin.optional Origin.ofJson?,
    ← name.optional Json.toText?⟩

/-- The mapping as a line for people to read: line and column of the generated text, and those of
the origin with its source. -/
def display (m : Mapping) : Text :=
  let place (line column : Nat) := Text.ofNat line ++ ", ".toList ++ Text.ofNat column
  place m.generated.line m.generated.column ++
    match m.origin with
    | none => []
    | some o => " -> ".toList ++ place o.line o.column ++ "  ".toList ++ o.source

end Mapping

end Provenance
