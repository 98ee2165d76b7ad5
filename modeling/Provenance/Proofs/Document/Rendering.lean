import Provenance.Document.Basic
import Provenance.Locator
import Provenance.Proofs.Document.Recording
import Provenance.Proofs.MapComment.RoundTrip
import Provenance.Proofs.PositionMap.Emission
import Provenance.Proofs.PositionMap.RoundTrip

/-!
# Rendered documents

* `Document.decode_renderWith` : the text and the map that are read from a rendered document;
* `PositionMap.mappingFor_readBack`, `PositionMap.generatedFor_readBack` : a map that is read from
  its text answers like the map itself;
* `Document.locate_renderWith` : positions are located in a rendered document as in its map.
-/

namespace Provenance

namespace Document

variable {d : Document} {m m' : PositionMap} (o : RenderOptions)

theorem renderWith_eq (hm : d.positionMap = some m) :
    d.renderWith o = Text.trimEnd d.content ++ '\n' :: MapComment.write m o.comment := by
  rw [renderWith, hm]
  rfl

theorem renderWith_eq_content (hm : d.positionMap = none) : d.renderWith o = d.content := by
  rw [renderWith, hm]
  rfl

theorem decode_renderWith (hm : d.positionMap = some m)
    (hread : PositionMap.ofText m.toText = .ok m') :
    MapComment.decode (d.renderWith o) = ⟨Text.trimEnd d.content, some m'⟩ := by
  rw [MapComment.decode, renderWith_eq o hm, MapComment.decodeStrict_append_write, hread]
  rfl

/-- A map that is read from a rendered document was read from the text of its own map. -/
theorem ofText_toText_of_decode_renderWith (hm : d.positionMap = some m)
    (h : (MapComment.decode (d.renderWith o)).map = some m') :
    PositionMap.ofText m.toText = .ok m' := by
  rw [MapComment.decode, renderWith_eq o hm, MapComment.decodeStrict_append_write] at h
  cases hread : PositionMap.ofText m.toText with
  | error e => simp [hread, Except.map] at h
  | ok found =>
    rw [hread] at h
    exact congrArg Except.ok (Option.some.inj h)

end Document

/-! ## The map that is read -/

namespace PositionMap

variable (m : PositionMap)

theorem mappingFor_readBack (p : Position) :
    m.readBack.mappingFor p = (m.mappingFor p).map Mapping.written := by
  rw [mappingFor, ordered_readBack]
  exact Mapping.governing_map (f := Mapping.written) (fun _ => rfl) m.ordered p

theorem originFor_readBack (p : Position) : m.readBack.originFor p = m.originFor p := by
  rw [originFor, mappingFor_readBack, originFor]
  cases m.mappingFor p <;> rfl

theorem emits_readBack {source : Text} {k g : Position} :
    m.readBack.Emits source k g ↔ m.Emits source k g := by
  constructor
  · rintro ⟨e, he, h⟩
    obtain ⟨a, ha, rfl⟩ := List.mem_map.1 he
    exact ⟨a, m.mem_ordered.1 ha, h⟩
  · rintro ⟨e, he, h⟩
    exact ⟨e.written, List.mem_map_of_mem (m.mem_ordered.2 he), h⟩

theorem generatedFor_readBack (source : Text) (p : Position) :
    m.readBack.generatedFor source p = m.generatedFor source p :=
  generatedFor_congr (fun _ _ => m.emits_readBack) p

end PositionMap

namespace Document

theorem locate_renderWith {d : Document} {m : PositionMap} (o : RenderOptions)
    (hm : d.positionMap = some m) (hw : m.Writable) (document workdir : Text) (p : Position) :
    (Locator.ofContent document (d.renderWith o)).locate workdir p =
      (Locator.mk document (some m)).locate workdir p := by
  have hread : PositionMap.ofText m.toText = .ok m.readBack := PositionMap.ofText_toText_eq hw
  rw [Locator.ofContent, decode_renderWith o hm hread]
  simp only [Locator.locate, m.originFor_readBack, Locator.carryColumn, m.generatedFor_readBack]
  rfl

/-- **Locating in the text.** A document whose positions are tracked has a map, and if that can be
written, then whatever was written on the document, the text locates every position where the map
does. -/
theorem locate_renderWith_run {files : FileStore} {name : Text} {o : DocumentOptions}
    {d : Document} (hcreate : create files name o = .ok d)
    (htracked : o.tracked = true ∨ o.previous ≠ none) (edits : List Edit)
    (hw : ∀ m ∈ (d.run edits).positionMap, m.Writable) :
    (d.run edits).positionMap ≠ none ∧
      ∀ (style : CommentStyle) (document workdir : Text) (p : Position),
        (Locator.ofContent document ((d.run edits).renderWith ⟨style⟩)).locate workdir p =
          (Locator.mk document (d.run edits).positionMap).locate workdir p := by
  have hd : d.isTracked = true := by
    rw [isTracked_of_create hcreate, Bool.or_eq_true, Option.isSome_iff_ne_none]
    exact htracked
  obtain ⟨m, hm⟩ := exists_positionMap_run hd edits
  refine ⟨Option.ne_none_iff_exists'.2 ⟨m, hm⟩, fun style document workdir p => ?_⟩
  rw [locate_renderWith ⟨style⟩ hm (hw m hm), hm]

/-- A document that was made from a generated one, with a source root and a fragment whose map is
not in generated order. -/
theorem locate_renderWith_run_traced :
    let base : PositionMap := ⟨some "i/g".toList, none,
      [⟨⟨1, 0⟩, none, none⟩, ⟨⟨1, 4⟩, some ⟨['a'], 7, 1⟩, some ['x']⟩]⟩
    let d : Document :=
      ⟨['o'], Lines.empty, some (.empty ['o'] (some ['r'])), some base, .inline⟩
    let edits := [Edit.write ['#'], .append ⟨"i/f".toList, "xy\nz".toList, ⟨1, 0⟩,
      some ⟨none, none, [⟨⟨2, 0⟩, some ⟨['g'], 1, 5⟩, none⟩, ⟨⟨1, 1⟩, some ⟨['b'], 2, 0⟩, none⟩]⟩⟩]
    (Locator.ofContent "d/o".toList ((d.run edits).renderWith ⟨.block⟩)).locate ['/'] ⟨2, 3⟩ =
      ⟨"/d/r/a".toList, 7, 4⟩ := by
  intro base d edits
  have hcreate : create ⟨[], []⟩ ['o']
      { sourceRoot := some ['r'], previous := some (.decoded base) } = .ok d := rfl
  have hordered : base.ordered = base.mappings := PositionMap.ordered_eq_of_pairwise (by decide)
  let m : PositionMap := ⟨some ['o'], some ['r'],
    [⟨⟨2, 0⟩, some ⟨['a'], 7, 1⟩, some ['x']⟩, ⟨⟨1, 2⟩, some ⟨"i/b".toList, 2, 0⟩, none⟩]⟩
  have hm : (d.run edits).positionMap = some m := by
    have hbase : (d.run edits).base = some base := rfl
    rw [positionMap, hbase]
    simp only [PositionMap.traceThrough, hordered]
    decide
  have hw : ∀ m ∈ (d.run edits).positionMap, m.Writable := by
    rw [hm]
    rintro m ⟨⟩
    decide
  have hgoverns : Mapping.Governs m.mappings ⟨2, 3⟩ ⟨⟨2, 0⟩, some ⟨['a'], 7, 1⟩, some ['x']⟩ :=
    ⟨rfl, by decide, rfl, by decide⟩
  have horigin : m.originFor ⟨2, 3⟩ = some ⟨['r', '/', 'a'], 7, 1⟩ := by
    rw [PositionMap.originFor, PositionMap.mappingFor_eq_some_iff.2 hgoverns]
    decide
  obtain ⟨-, hlocate⟩ := locate_renderWith_run hcreate (Or.inr (Option.some_ne_none _)) edits hw
  rw [hlocate, hm, Locator.locate]
  simp only [horigin]
  decide

end Document

end Provenance
