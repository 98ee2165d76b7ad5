import Provenance.Proofs.Document.Recording

/-!
# A fragment with a map of its own

The mappings of the fragment's map govern the document where the fragment was written as they
govern the fragment, and nothing changes in front of it.

* `Mapping.Governs.map_carried` : a governing mapping is carried over as one;
* `Document.mappingFor_append_embedded` : the look-up in a document after such a fragment, before
  it, within it where its map says something, and within it where its map says nothing.
-/

namespace Provenance

namespace Mapping

variable {embedded : PositionMap} {source : Text} {start p : Position} {e : Mapping}

/-- Carrying over keeps apart what is at different positions. -/
theorem filter_map_carried (h : ∀ b ∈ embedded.mappings, 1 ≤ b.generated.line)
    (he : 1 ≤ e.generated.line) :
    ((embedded.mappings.map (carried embedded source start)).filter fun b =>
        b.generated = e.generated.within start) =
      (embedded.mappings.filter fun b => b.generated = e.generated).map
        (carried embedded source start) := by
  rw [List.filter_map]
  congr 1
  apply List.filter_congr
  intro b hb
  simp only [Function.comp_apply, carried, Position.within_inj (h b hb) he]

theorem Governs.map_carried (h : ∀ b ∈ embedded.mappings, 1 ≤ b.generated.line)
    (hg : Governs embedded.mappings p e) :
    Governs (embedded.mappings.map (carried embedded source start)) (p.within start)
      (e.carried embedded source start) := by
  have he := h e hg.mem
  have hp : 1 ≤ p.line := hg.line ▸ he
  refine ⟨(Position.within_line_eq_iff he hp).2 hg.line,
    (Position.within_le_within_iff he hp).2 hg.le, ?_, fun b hb hle => ?_⟩
  · change ((embedded.mappings.map (carried embedded source start)).filter
      fun b => decide (b.generated = e.generated.within start)).getLast? = _
    rw [filter_map_carried h he, List.getLast?_map, hg.last, Option.map_some]
  · obtain ⟨a, ha, rfl⟩ := List.mem_map.1 hb
    have hle := (Position.within_le_within_iff (h a ha) hp).1 hle
    exact (Position.within_le_within_iff (h a ha) he).2 (hg.greatest a ha hle)

/-- Where nothing governs the fragment, nothing of it governs the document. -/
theorem not_le_of_mem_map_carried (h : ∀ b ∈ embedded.mappings, 1 ≤ b.generated.line)
    (hp : 1 ≤ p.line) (hnone : embedded.mappingFor p = none) {b : Mapping}
    (hb : b ∈ embedded.mappings.map (carried embedded source start))
    (hline : b.generated.line = (p.within start).line) : ¬b.generated ≤ p.within start := by
  obtain ⟨a, ha, rfl⟩ := List.mem_map.1 hb
  have hline := (Position.within_line_eq_iff (h a ha) hp).1 hline
  intro hle
  exact PositionMap.mappingFor_eq_none_iff.1 hnone a ha hline
    ((Position.within_le_within_iff (h a ha) hp).1 hle)

end Mapping

namespace Document

variable {d : Document} {m embedded : PositionMap} {f : Fragment}

theorem positionMap_append (hd : d.positionMap = some m) (hb : d.base = none)
    (hf : f.map = some embedded) :
    (d.append f).positionMap = some { m with
      mappings := m.mappings ++
        embedded.mappings.map (Mapping.carried embedded f.source d.cursor) } := by
  have hmap : d.map = some m := by
    rw [positionMap, hb] at hd
    simpa using hd
  have hbase : (d.append f).base = none := hb
  rw [positionMap, hbase, map_append, hmap, Fragment.mappings, hf]
  rfl

/-- **Writing a fragment with a map.** What governs the fragment governs the document there, with
its source taken from the fragment's directory. Where nothing governs a later line of the fragment
nothing governs the document; on its first line, and at every position before the fragment, the
answer stays as it was. -/
theorem mappingFor_append_embedded (hd : d.positionMap = some m) (hb : d.base = none)
    (hm : ∀ e ∈ m.mappings, e.generated ≤ d.cursor) (hf : f.map = some embedded)
    (hembedded : ∀ e ∈ embedded.mappings, 1 ≤ e.generated.line) :
    ∃ m', (d.append f).positionMap = some m' ∧
      (∀ line column g, 1 ≤ line → embedded.mappingFor ⟨line, column⟩ = some g →
        ∃ g', m'.mappingFor ⟨d.cursor.line + line - 1,
            if line = 1 then d.cursor.column + column else column⟩ = some g' ∧
          g'.name = g.name ∧
          g'.origin = g.origin.map fun o =>
            ⟨Path.join (Path.dirname f.source) (embedded.resolve o.source), o.line, o.column⟩) ∧
      (∀ line column, 2 ≤ line → embedded.mappingFor ⟨line, column⟩ = none →
        m'.mappingFor ⟨d.cursor.line + line - 1, column⟩ = none) ∧
      (∀ column, embedded.mappingFor ⟨1, column⟩ = none →
        m'.mappingFor ⟨d.cursor.line, d.cursor.column + column⟩ =
          m.mappingFor ⟨d.cursor.line, d.cursor.column + column⟩) ∧
      ∀ p, p < d.cursor → m'.mappingFor p = m.mappingFor p := by
  have hnew : ∀ e ∈ embedded.mappings.map (Mapping.carried embedded f.source d.cursor),
      d.cursor ≤ e.generated := by
    intro e he
    obtain ⟨a, ha, rfl⟩ := List.mem_map.1 he
    exact Position.le_within (hembedded a ha)
  refine ⟨_, positionMap_append hd hb hf, ?_, ?_, ?_, ?_⟩
  · intro line column g _ hg
    have hgov := PositionMap.mappingFor_eq_some_iff.1 hg
    refine ⟨g.carried embedded f.source d.cursor, PositionMap.mappingFor_eq_some_iff.2 ?_, rfl, rfl⟩
    apply (hgov.map_carried hembedded).append_left
    intro b hb
    exact Position.le_trans (hm b hb) (Position.le_within (hembedded g hgov.mem))
  · intro line column hline hnone
    rw [PositionMap.mappingFor_eq_none_iff]
    have hat : (⟨d.cursor.line + line - 1, column⟩ : Position) =
        (⟨line, column⟩ : Position).within d.cursor := by
      rw [Position.within, if_neg (show ¬line = 1 by omega)]
    intro b hb hbl
    rcases List.mem_append.1 hb with hb | hb
    · -- What was recorded before ends on the line of the cursor.
      have hle := hm b hb
      rw [Position.le_iff] at hle
      simp only at hbl
      omega
    · rw [hat] at hbl ⊢
      exact Mapping.not_le_of_mem_map_carried hembedded (by simp only; omega) hnone hb hbl
  · intro column hnone
    apply PositionMap.mappingFor_append_of_not_le
    intro b hb
    exact Mapping.not_le_of_mem_map_carried (p := ⟨1, column⟩) hembedded (Nat.le_refl 1) hnone hb
  · intro p hp
    apply PositionMap.mappingFor_append_of_not_le
    intro b hb _ hle
    exact Position.lt_irrefl _ (Position.lt_of_lt_of_le hp (Position.le_trans (hnew b hb) hle))

/-- A fragment whose first mapping meets one that stands at the cursor already. -/
theorem mappingFor_append_embedded_tie :
    let d : Document := ⟨['o'], ⟨[], ['a', 'b']⟩, some ⟨some ['o'], none,
      [⟨⟨1, 0⟩, some ⟨['z'], 1, 0⟩, none⟩, ⟨⟨1, 2⟩, none, some ['t']⟩]⟩, none, .inline⟩
    let f : Fragment := ⟨['l', '/', 'i'], ['q'], ⟨1, 0⟩,
      some ⟨none, none, [⟨⟨1, 0⟩, some ⟨['k'], 4, 1⟩, some ['n']⟩]⟩⟩
    ∃ m', (d.append f).positionMap = some m' ∧ ∃ g', m'.mappingFor ⟨1, 2⟩ = some g' ∧
      g'.name = some ['n'] ∧ g'.origin = some ⟨['l', '/', 'k'], 4, 1⟩ := by
  intro d f
  have hm : ∀ b ∈ [(⟨⟨1, 0⟩, some ⟨['z'], 1, 0⟩, none⟩ : Mapping), ⟨⟨1, 2⟩, none, some ['t']⟩],
      b.generated ≤ d.cursor := by decide
  have hfirst : PositionMap.mappingFor ⟨none, none, [⟨⟨1, 0⟩, some ⟨['k'], 4, 1⟩, some ['n']⟩]⟩
      ⟨1, 0⟩ = some ⟨⟨1, 0⟩, some ⟨['k'], 4, 1⟩, some ['n']⟩ :=
    PositionMap.mappingFor_eq_some_iff.2 ⟨rfl, Position.le_refl _, rfl, by decide⟩
  obtain ⟨m', hm', hgoverned, -⟩ := mappingFor_append_embedded (d := d) (f := f) rfl rfl hm rfl
    (by decide)
  exact ⟨m', hm', hgoverned 1 0 _ (Nat.le_refl 1) hfirst⟩

end Document

end Provenance
