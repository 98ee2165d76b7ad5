import Provenance.PositionMap.Reading
import Provenance.Proofs.Except

/-!
# What is read from a mappings text

* `Totals.add` : the totals behind a segment, as sums; `Totals.Admits` : what the format asks of
  them; `Totals.mapping` : the mapping that they say;
* `Totals.exists_fields_of_read`, `Totals.read_of_admits` : which segments are read, and as what;
* `PositionMap.one_le_line_of_ofSourceMap` : generated lines are counted from 1, whatever is read.
-/

namespace Provenance

namespace Totals

/-! ## The totals behind a segment -/

def addColumn (t : Totals) (column : Int) : Totals := { t with column := t.column + column }

def addOrigin (t : Totals) (source line column : Int) : Totals :=
  { t with
    source := t.source + source
    originLine := t.originLine + line
    originColumn := t.originColumn + column }

def addName (t : Totals) (name : Int) : Totals := { t with name := t.name + name }

/-- The totals behind a segment with the fields `vs`. A field that is missing adds nothing. -/
def add (t : Totals) (vs : List Int) : Totals :=
  ((t.addColumn (vs.getD 0 0)).addOrigin (vs.getD 1 0) (vs.getD 2 0) (vs.getD 3 0)).addName
    (vs.getD 4 0)

/-- What is asked of a segment of `n` fields that has `t` behind it: there are as many fields as a
segment can have, the sums that it goes on with fit into 64 bits with a sign, none of them is
negative, and the tables have entries at the indices. -/
structure Admits (sources names : List Text) (n : Nat) (t : Totals) : Prop where
  count : n = 1 ∨ n = 4 ∨ n = 5
  column : Word.IsSigned t.column ∧ 0 ≤ t.column
  source : 4 ≤ n → Word.IsSigned t.source ∧ 0 ≤ t.source ∧ t.source < sources.length
  originLine : 4 ≤ n → Word.IsSigned t.originLine ∧ 0 ≤ t.originLine
  originColumn : 4 ≤ n → Word.IsSigned t.originColumn ∧ 0 ≤ t.originColumn
  name : n = 5 → Word.IsSigned t.name ∧ 0 ≤ t.name ∧ t.name < names.length

instance (sources names : List Text) (n : Nat) (t : Totals) :
    Decidable (t.Admits sources names n) :=
  decidable_of_iff ((n = 1 ∨ n = 4 ∨ n = 5) ∧ (Word.IsSigned t.column ∧ 0 ≤ t.column) ∧
      (4 ≤ n → Word.IsSigned t.source ∧ 0 ≤ t.source ∧ t.source < sources.length) ∧
      (4 ≤ n → Word.IsSigned t.originLine ∧ 0 ≤ t.originLine) ∧
      (4 ≤ n → Word.IsSigned t.originColumn ∧ 0 ≤ t.originColumn) ∧
      (n = 5 → Word.IsSigned t.name ∧ 0 ≤ t.name ∧ t.name < names.length))
    ⟨fun ⟨a, b, c, d, e, f⟩ => ⟨a, b, c, d, e, f⟩, fun ⟨a, b, c, d, e, f⟩ => ⟨a, b, c, d, e, f⟩⟩

/-- The mapping of a segment of `n` fields that has `t` behind it. Totals count the lines of origins
from 0. -/
def mapping (sources names : List Text) (n : Nat) (t : Totals) : Mapping where
  generated := ⟨t.line, t.column.toNat⟩
  origin :=
    if 4 ≤ n then
      sources[t.source.toNat]?.map (⟨·, t.originLine.toNat + 1, t.originColumn.toNat⟩)
    else none
  name := if n = 5 then names[t.name.toNat]? else none

variable {t t' : Totals} {sources names : List Text}

theorem add_one (column : Int) : t.add [column] = t.addColumn column := by
  simp [add, addColumn, addOrigin, addName]

theorem add_four (column source line originColumn : Int) :
    t.add [column, source, line, originColumn] =
      (t.addColumn column).addOrigin source line originColumn := by
  simp [add, addColumn, addOrigin, addName]

theorem mapping_four {path : Text} (hpath : sources[t.source.toNat]? = some path) :
    t.mapping sources names 4 =
      ⟨⟨t.line, t.column.toNat⟩,
        some ⟨path, t.originLine.toNat + 1, t.originColumn.toNat⟩, none⟩ := by
  simp [mapping, hpath]

theorem mapping_five {path n : Text} (hpath : sources[t.source.toNat]? = some path)
    (hn : names[t.name.toNat]? = some n) :
    t.mapping sources names 5 =
      ⟨⟨t.line, t.column.toNat⟩,
        some ⟨path, t.originLine.toNat + 1, t.originColumn.toNat⟩, some n⟩ := by
  simp [mapping, hpath, hn]

/-! ## Single fields -/

theorem sum_eq_ok_iff {total delta i : Int} :
    sum total delta = .ok i ↔ i = total + delta ∧ Word.IsSigned i := by
  unfold sum
  split
  · next h =>
    constructor
    · intro hi
      obtain rfl := Except.ok.inj hi
      exact ⟨rfl, h⟩
    · rintro ⟨rfl, -⟩
      rfl
  · next h =>
    refine iff_of_false nofun ?_
    rintro ⟨rfl, hi⟩
    exact h hi

theorem natural_eq_ok_iff {i : Int} {fault : SegmentFault} {n : Nat} :
    natural i fault = .ok n ↔ 0 ≤ i ∧ n = i.toNat := by
  unfold natural
  split
  · exact iff_of_false nofun (by omega)
  · rw [Except.ok.injEq]
    omega

theorem entry_eq_ok_iff {table : List Text} {i : Int} {fault : SegmentFault} {x : Text} :
    entry table i fault = .ok x ↔ (0 ≤ i ∧ i < table.length) ∧ table[i.toNat]? = some x := by
  unfold entry
  split
  · exact iff_of_false nofun (by omega)
  · cases h : table[i.toNat]? with
    | none => exact iff_of_false nofun fun hx => nomatch hx.2
    | some y =>
      have hlt := (List.getElem?_eq_some_iff.1 h).1
      rw [Except.ok.injEq, Option.some.injEq]
      exact ⟨fun hx => ⟨by omega, hx⟩, And.right⟩

theorem readColumn_eq_ok_iff {column : Int} {p : Position} :
    t.readColumn column = .ok (p, t') ↔
      t' = t.addColumn column ∧ (Word.IsSigned t'.column ∧ 0 ≤ t'.column) ∧
        p = ⟨t'.line, t'.column.toNat⟩ := by
  simp only [readColumn, Except.bind_eq_ok, sum_eq_ok_iff, natural_eq_ok_iff]
  constructor
  · rintro ⟨_, ⟨rfl, hfits⟩, _, ⟨hpos, rfl⟩, h⟩
    obtain ⟨rfl, rfl⟩ := Prod.mk.inj (Except.ok.inj h)
    exact ⟨rfl, ⟨hfits, hpos⟩, rfl⟩
  · rintro ⟨rfl, ⟨hfits, hpos⟩, rfl⟩
    exact ⟨_, ⟨rfl, hfits⟩, _, ⟨hpos, rfl⟩, rfl⟩

theorem readOrigin_eq_ok_iff {source line column : Int} {o : Origin} :
    t.readOrigin sources source line column = .ok (o, t') ↔
      t' = t.addOrigin source line column ∧
      (Word.IsSigned t'.source ∧ 0 ≤ t'.source ∧ t'.source < sources.length) ∧
      (Word.IsSigned t'.originLine ∧ 0 ≤ t'.originLine) ∧
      (Word.IsSigned t'.originColumn ∧ 0 ≤ t'.originColumn) ∧
      ∃ path, sources[t'.source.toNat]? = some path ∧
        o = ⟨path, t'.originLine.toNat + 1, t'.originColumn.toNat⟩ := by
  simp only [readOrigin, Except.bind_eq_ok, sum_eq_ok_iff, natural_eq_ok_iff, entry_eq_ok_iff]
  constructor
  · rintro ⟨_, ⟨rfl, hs⟩, _, ⟨rfl, hl⟩, _, ⟨rfl, hc⟩, path, ⟨hs₀, hpath⟩, _, ⟨hl₀, rfl⟩, _,
      ⟨hc₀, rfl⟩, h⟩
    obtain ⟨rfl, rfl⟩ := Prod.mk.inj (Except.ok.inj h)
    exact ⟨rfl, ⟨hs, hs₀⟩, ⟨hl, hl₀⟩, ⟨hc, hc₀⟩, path, hpath, rfl⟩
  · rintro ⟨rfl, ⟨hs, hs₀⟩, ⟨hl, hl₀⟩, ⟨hc, hc₀⟩, path, hpath, rfl⟩
    exact ⟨_, ⟨rfl, hs⟩, _, ⟨rfl, hl⟩, _, ⟨rfl, hc⟩, _, ⟨hs₀, hpath⟩, _, ⟨hl₀, rfl⟩, _,
      ⟨hc₀, rfl⟩, rfl⟩

theorem readName_eq_ok_iff {name : Int} {n : Text} :
    t.readName names name = .ok (n, t') ↔
      t' = t.addName name ∧ (Word.IsSigned t'.name ∧ 0 ≤ t'.name ∧ t'.name < names.length) ∧
        names[t'.name.toNat]? = some n := by
  simp only [readName, Except.bind_eq_ok, sum_eq_ok_iff, entry_eq_ok_iff]
  constructor
  · rintro ⟨_, ⟨rfl, hfits⟩, _, ⟨hpos, hn⟩, h⟩
    obtain ⟨rfl, rfl⟩ := Prod.mk.inj (Except.ok.inj h)
    exact ⟨rfl, ⟨hfits, hpos⟩, hn⟩
  · rintro ⟨rfl, ⟨hfits, hpos⟩, hn⟩
    exact ⟨_, ⟨rfl, hfits⟩, _, ⟨hpos, hn⟩, rfl⟩

/-! ## One segment -/

section Shapes

variable {piece : Text} {column source line originColumn name : Int} {generated : Position}
  {o : Origin} {n : Text} {t₁ t₂ t₃ : Totals}

theorem read_generatedOnly (h : Vlq.decode piece = .ok [column])
    (hcolumn : t.readColumn column = .ok (generated, t₁)) :
    t.read sources names piece = .ok (⟨generated, none, none⟩, t₁) := by
  simp only [read, h, Except.mapError_ok, bind, Except.bind, hcolumn]
  rfl

theorem read_origin (h : Vlq.decode piece = .ok [column, source, line, originColumn])
    (hcolumn : t.readColumn column = .ok (generated, t₁))
    (horigin : t₁.readOrigin sources source line originColumn = .ok (o, t₂)) :
    t.read sources names piece = .ok (⟨generated, some o, none⟩, t₂) := by
  simp only [read, h, Except.mapError_ok, bind, Except.bind, hcolumn, horigin]
  rfl

theorem read_name (h : Vlq.decode piece = .ok [column, source, line, originColumn, name])
    (hcolumn : t.readColumn column = .ok (generated, t₁))
    (horigin : t₁.readOrigin sources source line originColumn = .ok (o, t₂))
    (hname : t₂.readName names name = .ok (n, t₃)) :
    t.read sources names piece = .ok (⟨generated, some o, some n⟩, t₃) := by
  simp only [read, h, Except.mapError_ok, bind, Except.bind, hcolumn, horigin, hname]
  rfl

end Shapes

/-- What is read has numbers that can be read, the totals behind it are admitted, and they say what
the mapping is. -/
theorem exists_fields_of_read {piece : Text} {m : Mapping}
    (h : t.read sources names piece = .ok (m, t')) :
    ∃ vs, Vlq.decode piece = .ok vs ∧ t' = t.add vs ∧ t'.Admits sources names vs.length ∧
      m = t'.mapping sources names vs.length := by
  obtain ⟨vs, hvs, h⟩ := Except.bind_eq_ok.1 h
  refine ⟨vs, Except.mapError_eq_ok.1 hvs, ?_⟩
  split at h
  · next column =>
    obtain ⟨⟨g, t₁⟩, hg, h⟩ := Except.bind_eq_ok.1 h
    obtain ⟨rfl, rfl⟩ := Prod.mk.inj (Except.ok.inj h)
    obtain ⟨rfl, hcolumn, rfl⟩ := readColumn_eq_ok_iff.1 hg
    rw [add_one]
    exact ⟨rfl, ⟨by simp, hcolumn, by simp, by simp, by simp, by simp⟩, rfl⟩
  · next column source line originColumn =>
    simp only [Except.bind_eq_ok] at h
    obtain ⟨⟨g, t₁⟩, hg, ⟨o, t₂⟩, ho, h⟩ := h
    obtain ⟨rfl, rfl⟩ := Prod.mk.inj (Except.ok.inj h)
    obtain ⟨rfl, hcolumn, rfl⟩ := readColumn_eq_ok_iff.1 hg
    obtain ⟨rfl, hs, hl, hk, path, hpath, rfl⟩ := readOrigin_eq_ok_iff.1 ho
    rw [add_four]
    exact ⟨rfl, ⟨by simp, hcolumn, fun _ => hs, fun _ => hl, fun _ => hk, by simp⟩,
      (mapping_four hpath).symm⟩
  · next column source line originColumn name =>
    simp only [Except.bind_eq_ok] at h
    obtain ⟨⟨g, t₁⟩, hg, ⟨o, t₂⟩, ho, ⟨n, t₃⟩, hn, h⟩ := h
    obtain ⟨rfl, rfl⟩ := Prod.mk.inj (Except.ok.inj h)
    obtain ⟨rfl, hcolumn, rfl⟩ := readColumn_eq_ok_iff.1 hg
    obtain ⟨rfl, hs, hl, hk, path, hpath, rfl⟩ := readOrigin_eq_ok_iff.1 ho
    obtain ⟨rfl, hi, hn⟩ := readName_eq_ok_iff.1 hn
    exact ⟨rfl, ⟨by simp, hcolumn, fun _ => hs, fun _ => hl, fun _ => hk, fun _ => hi⟩,
      (mapping_five (t := addName _ _) hpath hn).symm⟩
  · simp [throw, throwThe, MonadExceptOf.throw] at h

theorem exists_getElem?_of_lt {table : List Text} {i : Int} (h : 0 ≤ i ∧ i < table.length) :
    ∃ x, table[i.toNat]? = some x :=
  ⟨_, List.getElem?_eq_getElem (by omega)⟩

/-- A segment is read if its numbers can be read and the totals behind it are admitted. -/
theorem read_of_admits {piece : Text} {vs : List Int} (hvs : Vlq.decode piece = .ok vs)
    (h : (t.add vs).Admits sources names vs.length) :
    t.read sources names piece =
      .ok ((t.add vs).mapping sources names vs.length, t.add vs) := by
  have hgenerated : t.readColumn (vs.getD 0 0) = _ :=
    readColumn_eq_ok_iff.2 ⟨rfl, h.column, rfl⟩
  rcases h.count with hcount | hcount | hcount
  · obtain ⟨column, rfl⟩ := List.length_eq_one_iff.1 hcount
    rw [add_one]
    exact read_generatedOnly hvs hgenerated
  · match vs, hcount with
    | [column, source, line, originColumn], _ =>
    obtain ⟨path, hpath⟩ := exists_getElem?_of_lt (h.source (by simp)).2
    have horigin : (t.addColumn column).readOrigin sources source line originColumn = _ :=
      readOrigin_eq_ok_iff.2 ⟨rfl, h.source (by simp), h.originLine (by simp),
        h.originColumn (by simp), path, hpath, rfl⟩
    rw [add_four] at hpath ⊢
    have hmapping : mapping sources names [column, source, line, originColumn].length _ = _ :=
      mapping_four hpath
    rw [hmapping]
    exact read_origin hvs hgenerated horigin
  · match vs, hcount with
    | [column, source, line, originColumn, name], _ =>
    obtain ⟨path, hpath⟩ := exists_getElem?_of_lt (h.source (by simp)).2
    obtain ⟨n, hn⟩ := exists_getElem?_of_lt (h.name (by simp)).2
    have horigin : (t.addColumn column).readOrigin sources source line originColumn = _ :=
      readOrigin_eq_ok_iff.2 ⟨rfl, h.source (by simp), h.originLine (by simp),
        h.originColumn (by simp), path, hpath, rfl⟩
    have hname :
        ((t.addColumn column).addOrigin source line originColumn).readName names name = _ :=
      readName_eq_ok_iff.2 ⟨rfl, h.name (by simp), hn⟩
    have hmapping : mapping sources names [column, source, line, originColumn, name].length _ = _ :=
      mapping_five hpath hn
    rw [hmapping]
    exact read_name hvs hgenerated horigin hname

theorem isSome_origin_mapping {n : Nat} (h : t.Admits sources names n) :
    (t.mapping sources names n).origin.isSome ↔ 4 ≤ n := by
  by_cases hn : 4 ≤ n
  · obtain ⟨path, hpath⟩ := exists_getElem?_of_lt (h.source hn).2
    simp [mapping, hn, hpath]
  · simp [mapping, hn]

theorem isSome_name_mapping {n : Nat} (h : t.Admits sources names n) :
    (t.mapping sources names n).name.isSome ↔ n = 5 := by
  by_cases hn : n = 5
  · obtain ⟨name, hname⟩ := exists_getElem?_of_lt (h.name hn).2
    simp [mapping, hn, hname]
  · simp [mapping, hn]

/-- The first field of a segment is its column, counted on from the column of the totals, and there
is an origin if there are more fields. -/
theorem read_eq_ok {piece : Text} {m : Mapping} (h : t.read sources names piece = .ok (m, t')) :
    ∃ column rest, Vlq.decode piece = .ok (column :: rest) ∧
      m.generated.line = t.line ∧ (m.generated.column : Int) = t.column + column ∧
      (m.origin = none ↔ rest = []) ∧ t'.line = t.line ∧ t'.column = t.column + column := by
  obtain ⟨vs, hvs, rfl, hadmits, rfl⟩ := exists_fields_of_read h
  cases vs with
  | nil => exact absurd hadmits.count (by simp)
  | cons column rest =>
    refine ⟨column, rest, hvs, rfl, Int.toNat_of_nonneg hadmits.column.2, ?_, rfl, rfl⟩
    have hcount := hadmits.count
    rw [← Option.not_isSome_iff_eq_none, isSome_origin_mapping hadmits,
      ← List.length_eq_zero_iff]
    rw [List.length_cons] at hcount ⊢
    omega

theorem enter_line {t : Totals} {line : Nat} (h : t.line ≤ line) : (t.enter line).line = line := by
  unfold enter
  split
  · rfl
  · omega

theorem le_enter_line (t : Totals) (line : Nat) : t.line ≤ (t.enter line).line := by
  unfold enter
  split
  · next h => exact Nat.le_of_lt h
  · exact Nat.le_refl _

theorem enter_column_eq_zero {t : Totals} (h : t.column = 0) (line : Nat) :
    (t.enter line).column = 0 := by
  unfold enter
  split
  · rfl
  · exact h

end Totals

/-! ## A whole text -/

namespace PositionMap

variable {sources names : List Text}

theorem readSegments_cons_eq_ok {index line : Nat} {t : Totals} {piece : Text}
    {rest : List (Nat × Text)} {ms : List Mapping}
    (h : readSegments sources names index t ((line, piece) :: rest) = .ok ms) :
    ∃ m next more, (t.enter line).read sources names piece = .ok (m, next) ∧
      readSegments sources names (index + 1) next rest = .ok more ∧ ms = m :: more := by
  rw [readSegments] at h
  split at h
  · simp at h
  · next m next hread =>
    obtain ⟨more, hrest, rfl⟩ := Except.map_eq_ok.1 h
    exact ⟨m, next, more, hread, hrest, rfl⟩

theorem le_line_of_mem_readSegments {pieces : List (Nat × Text)} {index : Nat} {t : Totals}
    {ms : List Mapping} (h : readSegments sources names index t pieces = .ok ms) {m : Mapping}
    (hm : m ∈ ms) : t.line ≤ m.generated.line := by
  induction pieces generalizing index t ms with
  | nil =>
    obtain rfl := Except.ok.inj h
    simp at hm
  | cons piece rest ih =>
    obtain ⟨e, next, more, hread, hrest, rfl⟩ := readSegments_cons_eq_ok h
    obtain ⟨_, _, -, hline, -, -, hnext, -⟩ := Totals.read_eq_ok hread
    have henter := t.le_enter_line piece.1
    rcases List.mem_cons.1 hm with rfl | hm
    · omega
    · have := ih hrest hm
      omega

/-- Every mapping that is read is that of totals that were admitted. -/
theorem exists_admits_of_mem_readSegments {pieces : List (Nat × Text)} {index : Nat} {t : Totals}
    {ms : List Mapping} (h : readSegments sources names index t pieces = .ok ms) {m : Mapping}
    (hm : m ∈ ms) :
    ∃ (t' : Totals) (n : Nat), t'.Admits sources names n ∧ m = t'.mapping sources names n := by
  induction pieces generalizing index t ms with
  | nil =>
    obtain rfl := Except.ok.inj h
    simp at hm
  | cons piece rest ih =>
    obtain ⟨e, next, more, hread, hrest, rfl⟩ := readSegments_cons_eq_ok h
    rcases List.mem_cons.1 hm with rfl | hm
    · obtain ⟨vs, -, -, hadmits, rfl⟩ := Totals.exists_fields_of_read hread
      exact ⟨next, vs.length, hadmits, rfl⟩
    · exact ih hrest hm

theorem readSegments_of_ofSourceMap {s : SourceMap} {m : PositionMap} (h : ofSourceMap s = .ok m) :
    readSegments s.sources s.names 0 {} (pieces s.mappings) = .ok m.mappings := by
  unfold ofSourceMap at h
  split at h
  · obtain ⟨ms, hread, rfl⟩ := Except.map_eq_ok.1 h
    exact hread
  · simp at h

theorem one_le_line_of_ofSourceMap {s : SourceMap} {m : PositionMap} (h : ofSourceMap s = .ok m)
    {e : Mapping} (he : e ∈ m.mappings) : 1 ≤ e.generated.line :=
  le_line_of_mem_readSegments (readSegments_of_ofSourceMap h) he

theorem ofText_eq_ok {text : Text} {m : PositionMap} (h : ofText text = .ok m) :
    ∃ s, (Json.parse? text).bind SourceMap.ofJson? = some s ∧ ofSourceMap s = .ok m := by
  unfold ofText at h
  split at h
  · simp at h
  · next s hs => exact ⟨s, hs, h⟩

end PositionMap

end Provenance
