import Provenance.Proofs.Json.Records
import Provenance.Proofs.PositionMap.Lookup
import Provenance.Proofs.PositionMap.Segments

/-!
# Maps are read as they were written

* `SourceMap.parse?_render_toJson` : a source map document is read back from its text;
* `PositionMap.Writable` : the maps that a text can hold; `PositionMap.readBack` : the map that is
  read from the text of a map;
* `PositionMap.ofText_toText` : reading the text of such a map gives its mappings in generated
  order.
-/

namespace Provenance

/-! ## The document -/

namespace SourceMap

theorem isPlain_toJson (s : SourceMap) : s.toJson.IsPlain := by
  refine Json.IsPlain.record ?_
  have htexts : ∀ ts : List Text, (Json.arr (ts.map .quoted)).IsPlain := fun ts =>
    Json.isPlain_arr_map fun t _ => Json.isPlain_quoted t
  have hcontents : ∀ ts : List (Option Text),
      (Json.arr (ts.map (Json.ofOption .quoted))).IsPlain := fun ts =>
    Json.isPlain_arr_map fun t _ => by cases t <;> trivial
  simp only [List.forall_mem_cons, Option.mem_def, Option.map_eq_some_iff, Option.some.injEq,
    forall_eq', forall_exists_index, and_imp, forall_apply_eq_imp_iff₂]
  exact ⟨Json.isPlain_ofNat _, fun t _ => Json.isPlain_quoted t, fun t _ => Json.isPlain_quoted t,
    htexts _, fun ts _ => hcontents ts, htexts _, Json.isPlain_quoted _, by simp⟩

theorem defaulted_ofOption_quoted (t : Option Text) :
    (Json.Field.ofOption (t.map .quoted)).defaulted none (Json.toOption? Json.toText?) =
      some t := by
  cases t <;> rfl

theorem defaulted_texts (ts : List Text) :
    (Json.Field.given (.arr (ts.map .quoted))).defaulted [] (Json.toList? Json.toText?) = some ts :=
  Json.toList?_map fun _ _ => rfl

theorem defaulted_contents (ts : Option (List (Option Text))) :
    (Json.Field.ofOption (ts.map fun ts => .arr (ts.map (Json.ofOption .quoted)))).defaulted none
      (Json.toOption? (Json.toList? (Json.toOption? Json.toText?))) = some ts := by
  cases ts with
  | none => rfl
  | some ts =>
    have h : Json.toList? (Json.toOption? Json.toText?) (.arr (ts.map (Json.ofOption .quoted))) =
        some ts := Json.toList?_map fun t _ => by cases t <;> rfl
    exact congrArg (Option.map some) h

theorem ofJson?_toJson {s : SourceMap} (h : s.version < versionBound) :
    ofJson? s.toJson = some s := by
  rw [ofJson?, toJson, Json.fields?_record (by decide) rfl]
  simp only [List.map_cons, List.map_nil, bind, Option.bind, Json.Field.ofOption_some,
    defaulted_ofOption_quoted, defaulted_texts, defaulted_contents, Json.Field.required,
    Json.toNat?_ofNat h]
  rfl

theorem parse?_render_toJson {s : SourceMap} (h : s.version < versionBound) :
    (Json.parse? s.toJson.render).bind ofJson? = some s := by
  rw [Json.parse?_render s.isPlain_toJson, Option.bind_some, ofJson?_toJson h]

end SourceMap

/-! ## The tables -/

theorem length_eraseDups_le (ts : List Text) : ts.eraseDups.length ≤ ts.length := by
  induction h : ts.length using Nat.strongRecOn generalizing ts with
  | ind n ih =>
    cases ts with
    | nil => exact Nat.le_of_eq h
    | cons t ts =>
      rw [List.length_cons] at h
      have hfilter := List.length_filter_le (fun b => !b == t) ts
      have hrest := ih _ (by omega) (ts.filter fun b => !b == t) rfl
      rw [List.eraseDups_cons, List.length_cons]
      omega

theorem length_table_lt {f : Mapping → Option Text} {ms : List Mapping}
    (h : ms.length < Word.quarter) : (ms.filterMap f).eraseDups.length < Word.quarter :=
  Nat.lt_of_le_of_lt (length_eraseDups_le _)
    (Nat.lt_of_le_of_lt (List.length_filterMap_le f ms) h)

theorem mem_table {f : Mapping → Option Text} {ms : List Mapping} {m : Mapping} {t : Text}
    (hm : m ∈ ms) (ht : f m = some t) : t ∈ (ms.filterMap f).eraseDups :=
  List.mem_eraseDups.2 (List.mem_filterMap.2 ⟨m, hm, ht⟩)

/-! ## The map -/

/-- The numbers of a mapping are in the range that is written. -/
structure Mapping.Writable (m : Mapping) : Prop where
  line : 1 ≤ m.generated.line
  column : m.generated.column < Word.quarter
  origin : ∀ o ∈ m.origin, 1 ≤ o.line ∧ o.line < Word.quarter ∧ o.column < Word.quarter

instance (m : Mapping) : Decidable m.Writable :=
  decidable_of_iff (1 ≤ m.generated.line ∧ m.generated.column < Word.quarter ∧
      ∀ o ∈ m.origin, 1 ≤ o.line ∧ o.line < Word.quarter ∧ o.column < Word.quarter)
    ⟨fun h => ⟨h.1, h.2.1, h.2.2⟩, fun h => ⟨h.line, h.column, h.origin⟩⟩

/-- The maps whose numbers are in the range that is written. More mappings than `count` allows do
not fit into memory. -/
structure PositionMap.Writable (m : PositionMap) : Prop where
  mapping : ∀ e ∈ m.mappings, e.Writable
  count : m.mappings.length < Word.quarter

instance (m : PositionMap) : Decidable m.Writable :=
  decidable_of_iff ((∀ e ∈ m.mappings, e.Writable) ∧ m.mappings.length < Word.quarter)
    ⟨fun h => ⟨h.1, h.2⟩, fun h => ⟨h.mapping, h.count⟩⟩

namespace PositionMap

variable {m : PositionMap}

theorem length_ordered (m : PositionMap) : m.ordered.length = m.mappings.length :=
  m.perm_ordered.length_eq

theorem pairwise_line_ordered (m : PositionMap) :
    m.ordered.Pairwise fun a b => a.generated.line ≤ b.generated.line :=
  m.pairwise_ordered.imp fun h => by
    rw [Position.le_iff] at h
    omega

theorem fits_ordered (h : m.Writable) {e : Mapping} (he : e ∈ m.ordered) :
    e.Fits m.toSourceMap.sources m.toSourceMap.names := by
  have hw := h.mapping e (m.mem_ordered.1 he)
  refine ⟨hw.column, fun o ho => ?_, fun o n ho hn => ?_⟩
  · obtain ⟨hline, hl, hc⟩ := hw.origin o ho
    exact ⟨hline, hl, hc, mem_table he (by rw [ho, Option.map_some])⟩
  · exact mem_table he (by rw [ho, Option.bind_some, hn])

theorem readSegments_toSourceMap (h : m.Writable) :
    readSegments m.toSourceMap.sources m.toSourceMap.names 0 {} (pieces m.toSourceMap.mappings) =
      .ok (m.ordered.map Mapping.written) := by
  have hlines : ∀ e ∈ m.ordered, ({} : Totals).line ≤ e.generated.line := fun e he =>
    (h.mapping e (m.mem_ordered.1 he)).line
  have hcount : m.ordered.length < Word.quarter := m.length_ordered ▸ h.count
  have hpieces : pieces m.toSourceMap.mappings = _ :=
    piecesFrom_segments m.toSourceMap.sources m.toSourceMap.names {} false m.pairwise_line_ordered
      hlines
  rw [hpieces]
  exact readSegments_writtenPieces {} 0 Totals.natural_zero m.pairwise_line_ordered hlines
    (fun e he => fits_ordered h he) (length_table_lt hcount) (length_table_lt hcount)

theorem version_toSourceMap (m : PositionMap) : m.toSourceMap.version = SourceMap.revision := rfl

theorem parse?_render_toSourceMap (m : PositionMap) :
    (Json.parse? m.toSourceMap.toJson.render).bind SourceMap.ofJson? = some m.toSourceMap := by
  apply SourceMap.parse?_render_toJson
  rw [version_toSourceMap]
  decide

def readBack (m : PositionMap) : PositionMap := { m with mappings := m.ordered.map Mapping.written }

theorem ordered_readBack (m : PositionMap) :
    m.readBack.ordered = m.ordered.map Mapping.written := by
  apply ordered_eq_of_pairwise
  rw [readBack, List.pairwise_map]
  exact m.pairwise_ordered

theorem ofText_toText_eq (h : m.Writable) :
    ofText m.toText = .ok ⟨m.file, m.sourceRoot, m.ordered.map Mapping.written⟩ := by
  rw [ofText, toText, parse?_render_toSourceMap]
  simp only [ofSourceMap]
  rw [if_pos m.version_toSourceMap, readSegments_toSourceMap h]
  rfl

theorem ofText_toText_of_pairwise (h : m.Writable)
    (hsorted : m.mappings.Pairwise fun a b => a.generated ≤ b.generated) :
    ofText m.toText = .ok ⟨m.file, m.sourceRoot, m.mappings.map Mapping.written⟩ := by
  rw [ofText_toText_eq h, ordered_eq_of_pairwise hsorted]

/-- **The text of a map.** Reading it gives the mappings in generated order, with those at one
position in the order in which they were recorded. Each is as it was, but for a name without an
origin. -/
theorem ofText_toText (h : m.Writable) :
    ∃ sorted, StablySorted sorted m.mappings ∧
      ofText m.toText = .ok ⟨m.file, m.sourceRoot, sorted.map Mapping.written⟩ :=
  ⟨m.ordered, m.stablySorted_ordered, ofText_toText_eq h⟩

/-- A name, a mapping without an origin and two mappings at one position. -/
theorem ofText_toText_mixed :
    let recorded : List Mapping :=
      [⟨⟨4, 2⟩, some ⟨['b'], 1, 0⟩, some ['n']⟩, ⟨⟨1, 0⟩, none, some ['x']⟩,
        ⟨⟨4, 2⟩, some ⟨['a'], 7, 3⟩, none⟩]
    ∃ sorted, StablySorted sorted recorded ∧
      ofText (toText ⟨some ['o'], none, recorded⟩) =
        .ok ⟨some ['o'], none, sorted.map Mapping.written⟩ :=
  ofText_toText (m := ⟨some ['o'], none, _⟩) (by decide)

end PositionMap

end Provenance
