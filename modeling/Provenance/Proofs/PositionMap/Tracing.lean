import Provenance.PositionMap.Composition
import Provenance.Proofs.PositionMap.Lookup

/-!
# Tracing through another map

Where a document was made from a generated one, its map is followed through the map of that. Each
mapping is replaced where it stands, and so looking up in the map that results is looking up twice.

* `Origin.tracedBy` : the origin of an origin; `Mapping.tracedBy` : a mapping with that origin;
* `PositionMap.traced?_eq_some_iff` : what changes in a mapping, and when;
* `PositionMap.originFor_traceThrough` : what is found in the map that results.
-/

namespace Provenance

variable {base : PositionMap} {file : Text} {e e' : Mapping}

namespace PositionMap

theorem traced?_eq (base : PositionMap) (file : Text) (e : Mapping) :
    base.traced? base.ordered file e = e.origin.bind fun o =>
      if o.source = file then
        (base.mappingFor o.position).bind fun found => found.origin.bind fun origin =>
          some { e with
            origin := some (base.resolveOrigin origin)
            name := found.name.or e.name }
      else none := by
  unfold traced?
  cases e.origin with
  | none => rfl
  | some o =>
    rw [Option.bind_eq_bind, Option.bind_some, Option.bind_some]
    by_cases h : o.source = file
    · have hguard : (guard (o.source = file) : Option Unit) = some () := if_pos h
      rw [hguard, if_pos h]
      rfl
    · have hguard : (guard (o.source = file) : Option Unit) = none := if_neg h
      rw [hguard, if_neg h]
      rfl

/-- A mapping is traced if it is one into `file` for which `base` has an origin. It takes that and
the name, if there is one. -/
theorem traced?_eq_some_iff : base.traced? base.ordered file e = some e' ↔
    ∃ o found origin, e.origin = some o ∧ o.source = file ∧
      base.mappingFor o.position = some found ∧ found.origin = some origin ∧
      e' = { e with origin := some (base.resolveOrigin origin), name := found.name.or e.name } := by
  rw [traced?_eq, Option.bind_eq_some_iff]
  constructor
  · rintro ⟨o, ho, h⟩
    rw [Option.ite_none_right_eq_some, Option.bind_eq_some_iff] at h
    obtain ⟨hfile, found, hfound, h⟩ := h
    obtain ⟨origin, horigin, h⟩ := Option.bind_eq_some_iff.1 h
    exact ⟨o, found, origin, ho, hfile, hfound, horigin, (Option.some.inj h).symm⟩
  · rintro ⟨o, found, origin, ho, hfile, hfound, horigin, rfl⟩
    refine ⟨o, ho, ?_⟩
    rw [if_pos hfile, hfound, Option.bind_some, horigin, Option.bind_some]

theorem traced?_eq_none_iff : base.traced? base.ordered file e = none ↔
    ∀ o ∈ e.origin, o.source = file → base.originFor o.position = none := by
  rw [Option.eq_none_iff_forall_ne_some]
  constructor
  · intro h o ho hfile
    rw [Option.eq_none_iff_forall_ne_some]
    intro a ha
    obtain ⟨found, origin, hfound, horigin, -⟩ := originFor_eq_some_iff.1 ha
    exact h _ (traced?_eq_some_iff.2 ⟨o, found, origin, ho, hfile, hfound, horigin, rfl⟩)
  · intro h e' he'
    obtain ⟨o, found, origin, ho, hfile, hfound, horigin, -⟩ := traced?_eq_some_iff.1 he'
    have hnone := h o ho hfile
    rw [originFor_eq_some_iff.2 ⟨found, origin, hfound, horigin, rfl⟩] at hnone
    exact absurd hnone (Option.some_ne_none _)

end PositionMap

/-- The origin that `base` knows for an origin in `file`, and any other origin as it is. -/
def Origin.tracedBy (base : PositionMap) (file : Text) (o : Origin) : Origin :=
  if o.source = file then (base.originFor o.position).getD o else o

namespace Mapping

def tracedBy (base : PositionMap) (file : Text) (e : Mapping) : Mapping :=
  (base.traced? base.ordered file e).getD e

theorem generated_tracedBy (base : PositionMap) (file : Text) (e : Mapping) :
    (e.tracedBy base file).generated = e.generated := by
  rw [tracedBy]
  cases h : base.traced? base.ordered file e with
  | none => rfl
  | some e' =>
    obtain ⟨o, found, origin, -, -, -, -, rfl⟩ := PositionMap.traced?_eq_some_iff.1 h
    rfl

theorem origin_tracedBy (base : PositionMap) (file : Text) (e : Mapping) :
    (e.tracedBy base file).origin = e.origin.map (Origin.tracedBy base file) := by
  rw [tracedBy]
  cases h : base.traced? base.ordered file e with
  | none =>
    have hnone := PositionMap.traced?_eq_none_iff.1 h
    cases ho : e.origin with
    | none => exact ho
    | some o =>
      have hsame : o.tracedBy base file = o := by
        rw [Origin.tracedBy]
        split
        · next hfile => rw [hnone o ho hfile, Option.getD_none]
        · rfl
      rw [Option.getD_none, ho, Option.map_some, hsame]
  | some e' =>
    obtain ⟨o, found, origin, ho, hfile, hfound, horigin, rfl⟩ :=
      PositionMap.traced?_eq_some_iff.1 h
    have htraced : base.originFor o.position = some (base.resolveOrigin origin) :=
      PositionMap.originFor_eq_some_iff.2 ⟨found, origin, hfound, horigin, rfl⟩
    rw [ho, Option.map_some, Origin.tracedBy, if_pos hfile, htraced]
    rfl

theorem tracedBy_eq_self (h : ∀ o ∈ e.origin, o.source = file → base.originFor o.position = none) :
    e.tracedBy base file = e := by
  rw [tracedBy, PositionMap.traced?_eq_none_iff.2 h, Option.getD_none]

/-- A name is replaced by that of the mapping of `base` that governs the origin. -/
theorem name_tracedBy (h : (e.tracedBy base file).name ≠ e.name) :
    ∃ o found, e.origin = some o ∧ o.source = file ∧ base.mappingFor o.position = some found ∧
      found.name ≠ none ∧ (e.tracedBy base file).name = found.name := by
  rw [tracedBy] at h ⊢
  cases htraced : base.traced? base.ordered file e with
  | none =>
    rw [htraced] at h
    exact absurd rfl h
  | some e' =>
    obtain ⟨o, found, origin, ho, hfile, hfound, -, rfl⟩ :=
      PositionMap.traced?_eq_some_iff.1 htraced
    rw [htraced] at h
    refine ⟨o, found, ho, hfile, hfound, ?_⟩
    cases hname : found.name with
    | none => simp [hname] at h
    | some name => simp

end Mapping

namespace PositionMap

theorem traceThrough_eq (m base : PositionMap) (file : Text) :
    m.traceThrough base file =
      { m with mappings := m.mappings.map (Mapping.tracedBy base file) } := rfl

/-- **Tracing is looking up twice.** The origin found in a traced map is what `base` knows of the
one found before, if that is in `file` and `base` knows anything, and else that one itself. The
mappings stay in number, order and place; those that are not traced stay as they are, and a name
is only replaced by that of the mapping of `base` that was followed. -/
theorem originFor_traceThrough {m : PositionMap} (hroot : m.sourceRoot = none)
    (base : PositionMap) (file : Text) :
    (∀ p, (m.traceThrough base file).originFor p =
        (m.originFor p).map (Origin.tracedBy base file)) ∧
      (m.traceThrough base file).mappings.length = m.mappings.length ∧
      ∀ (i : Nat) (e : Mapping), m.mappings[i]? = some e → ∃ e',
        (m.traceThrough base file).mappings[i]? = some e' ∧ e'.generated = e.generated ∧
        ((∀ o ∈ e.origin, o.source = file → base.originFor o.position = none) → e' = e) ∧
        (e'.name ≠ e.name → ∃ o found, e.origin = some o ∧ o.source = file ∧
          base.mappingFor o.position = some found ∧ found.name ≠ none ∧ e'.name = found.name) := by
  refine ⟨fun p => ?_, ?_, fun i e he => ?_⟩
  · have hroot' : (m.traceThrough base file).sourceRoot = none := hroot
    rw [originFor_eq_bind hroot', originFor_eq_bind hroot, traceThrough_eq,
      mappingFor_map (Mapping.generated_tracedBy base file)]
    cases m.mappingFor p with
    | none => rfl
    | some e => exact e.origin_tracedBy base file
  · rw [traceThrough_eq, List.length_map]
  · refine ⟨e.tracedBy base file, ?_, e.generated_tracedBy base file, Mapping.tracedBy_eq_self,
      Mapping.name_tracedBy⟩
    rw [traceThrough_eq, List.getElem?_map, he, Option.map_some]

/-- The origin lies in the file that `base` belongs to, at the later of two mappings for one place
of it. -/
theorem originFor_traceThrough_tie :
    let base : PositionMap := ⟨none, some ['r'], [⟨⟨1, 4⟩, some ⟨['a'], 6, 0⟩, none⟩,
      ⟨⟨1, 0⟩, none, none⟩, ⟨⟨1, 4⟩, some ⟨['a'], 7, 1⟩, some ['x']⟩]⟩
    let m : PositionMap := ⟨some ['o'], none,
      [⟨⟨2, 0⟩, some ⟨['g'], 1, 5⟩, some ['n']⟩, ⟨⟨1, 0⟩, some ⟨['g'], 3, 0⟩, none⟩]⟩
    (m.traceThrough base ['g']).originFor ⟨2, 3⟩ = some ⟨['r', '/', 'a'], 7, 1⟩ := by
  intro base m
  have hgoverns : Mapping.Governs m.mappings ⟨2, 3⟩
      ⟨⟨2, 0⟩, some ⟨['g'], 1, 5⟩, some ['n']⟩ := ⟨rfl, by decide, rfl, by decide⟩
  have hm : m.originFor ⟨2, 3⟩ = some ⟨['g'], 1, 5⟩ := originFor_of_governs rfl hgoverns rfl
  have hfound : base.mappingFor ⟨1, 5⟩ = some ⟨⟨1, 4⟩, some ⟨['a'], 7, 1⟩, some ['x']⟩ :=
    mappingFor_eq_some_iff.2 ⟨rfl, by decide, rfl, by decide⟩
  have hbase : base.originFor ⟨1, 5⟩ = some ⟨['r', '/', 'a'], 7, 1⟩ :=
    originFor_eq_some_iff.2 ⟨_, _, hfound, rfl, by decide⟩
  rw [(originFor_traceThrough rfl base ['g']).1, hm, Option.map_some, Origin.tracedBy, if_pos rfl]
  exact congrArg (fun found => some (Option.getD found _)) hbase

end PositionMap

end Provenance
