import Provenance.Proofs.PositionMap.Lookup

/-!
# Looking up origins

A place of a source may have been emitted any number of times. Looking it up goes over the mappings
once, in the order in which they were recorded, and keeps the best. What it finds is said here
without an order.

* `Preferred` : one candidate is at least as good as another;
  `PositionMap.generatedFor_eq_some_iff` : the look-up finds the best;
* `PositionMap.Emits`, `PositionMap.EmitsFirst` : where a place of a source was emitted, and where
  that was first; `PositionMap.generatedFor_congr` : nothing else has a part in the look-up;
* `PositionMap.generatedFor_eq_some_iff_emitsFirst`, `PositionMap.generatedFor_earliest_of_latest` :
  it finds where the greatest place that does not come after the one asked for was emitted first;
* `PositionMap.exists_emitsFirst` : a place that was emitted is itself the greatest.
-/

namespace Provenance

/-! ## The best candidate -/

/-- Of two candidates, each an origin with its generated position, the first is at least as good:
its origin is later, or it is the same one and was emitted no later. -/
def Preferred (a b : Position × Position) : Prop := b.1 < a.1 ∨ b.1 = a.1 ∧ a.2 ≤ b.2

theorem Preferred.refl (a : Position × Position) : Preferred a a :=
  Or.inr ⟨rfl, Position.le_refl _⟩

theorem Preferred.trans {a b c : Position × Position} (h : Preferred a b) (k : Preferred b c) :
    Preferred a c := by
  unfold Preferred at *
  rcases h with h | ⟨h, h'⟩ <;> rcases k with k | ⟨k, k'⟩
  · exact Or.inl (Position.lt_of_lt_of_le k (Position.le_of_lt h))
  · exact Or.inl (k ▸ h)
  · exact Or.inl (h ▸ k)
  · exact Or.inr ⟨k.trans h, Position.le_trans h' k'⟩

theorem Preferred.antisymm {a b : Position × Position} (h : Preferred a b) (k : Preferred b a) :
    a = b := by
  unfold Preferred at *
  rcases h with h | ⟨h, h'⟩ <;> rcases k with k | ⟨k, k'⟩
  · exact absurd (Position.lt_of_lt_of_le h (Position.le_of_lt k)) (Position.lt_irrefl _)
  · exact absurd (k ▸ h) (Position.lt_irrefl _)
  · exact absurd (h ▸ k) (Position.lt_irrefl _)
  · exact Prod.ext k (Position.le_antisymm h' k')

theorem better_preferred (best : Option (Position × Position)) (c : Position × Position) :
    ∃ b, PositionMap.better best c = some b ∧ Preferred b c ∧ (b = c ∨ best = some b) ∧
      ∀ a ∈ best, Preferred b a := by
  cases best with
  | none => exact ⟨c, rfl, Preferred.refl c, Or.inl rfl, fun a ha => by simp at ha⟩
  | some a =>
    by_cases h : a.1 < c.1 ∨ a.1 = c.1 ∧ c.2 < a.2
    · refine ⟨c, if_pos h, Preferred.refl c, Or.inl rfl, fun b hb => ?_⟩
      obtain rfl : a = b := by simpa using hb
      exact h.imp_right fun h => ⟨h.1, Position.le_of_lt h.2⟩
    · refine ⟨a, if_neg h, ?_, Or.inr rfl, fun b hb => ?_⟩
      · rw [not_or, Position.not_lt, not_and] at h
        by_cases heq : c.1 = a.1
        · exact Or.inr ⟨heq, Position.not_lt.1 (h.2 heq.symm)⟩
        · exact Or.inl (Position.lt_of_le_of_ne h.1 heq)
      · obtain rfl : a = b := by simpa using hb
        exact Preferred.refl a

/-- The best of the candidates is one of them and at least as good as each. -/
theorem foldl_better (cs : List (Position × Position)) (best : Option (Position × Position)) :
    (∀ b, cs.foldl PositionMap.better best = some b →
      (b ∈ cs ∨ best = some b) ∧ (∀ c ∈ cs, Preferred b c) ∧ ∀ a ∈ best, Preferred b a) ∧
    (cs.foldl PositionMap.better best = none → cs = [] ∧ best = none) := by
  induction cs generalizing best with
  | nil =>
    refine ⟨fun b hb => ⟨Or.inr hb, by simp, fun a ha => ?_⟩, fun h => ⟨rfl, h⟩⟩
    obtain rfl : b = a := by
      rw [List.foldl_nil] at hb
      rw [hb] at ha
      simpa using ha
    exact Preferred.refl b
  | cons c cs ih =>
    obtain ⟨d, hd, hdc, hfrom, hda⟩ := better_preferred best c
    rw [List.foldl_cons, hd]
    refine ⟨fun b hb => ?_, fun h => by simpa using ((ih (some d)).2 h).2⟩
    obtain ⟨hmem, hall, hbd⟩ := (ih (some d)).1 b hb
    have hbd := hbd d rfl
    refine ⟨?_, ?_, fun a ha => hbd.trans (hda a ha)⟩
    · rcases hmem with hmem | hmem
      · exact Or.inl (List.mem_cons_of_mem _ hmem)
      · obtain rfl : d = b := by simpa using hmem
        rcases hfrom with rfl | hfrom
        · exact Or.inl List.mem_cons_self
        · exact Or.inr hfrom
    · intro x hx
      rcases List.mem_cons.1 hx with rfl | hx
      · exact hbd.trans hdc
      · exact hall x hx

/-! ## Where a place was emitted -/

namespace PositionMap

variable {m : PositionMap}

/-- The place `k` of `source`, which is compared with the root applied, was emitted at `g`. -/
def Emits (m : PositionMap) (source : Text) (k g : Position) : Prop :=
  ∃ e ∈ m.mappings, ∃ o, e.origin = some o ∧ m.resolve o.source = source ∧ o.position = k ∧
    e.generated = g

/-- Of the places at which `k` was emitted, `g` is the first. -/
structure EmitsFirst (m : PositionMap) (source : Text) (k g : Position) : Prop where
  emits : m.Emits source k g
  le : ∀ g', m.Emits source k g' → g ≤ g'

variable {source : Text} {k g p : Position}

theorem EmitsFirst.unique {g' : Position} (h : m.EmitsFirst source k g)
    (h' : m.EmitsFirst source k g') : g = g' :=
  Position.le_antisymm (h.le g' h'.emits) (h'.le g h.emits)

theorem emits_of_mem {e : Mapping} {o : Origin} (he : e ∈ m.mappings) (ho : e.origin = some o) :
    m.Emits (m.resolve o.source) o.position e.generated := ⟨e, he, o, ho, rfl, rfl, rfl⟩

theorem emits_of_perm {mappings : List Mapping} (h : mappings.Perm m.mappings) :
    ({ m with mappings } : PositionMap).Emits source k g ↔ m.Emits source k g :=
  exists_congr fun _ => and_congr_left fun _ => h.mem_iff

theorem mem_candidates {c : Position × Position} :
    c ∈ m.candidates source p ↔ m.Emits source c.1 c.2 ∧ c.1 ≤ p := by
  rw [candidates, List.mem_filterMap]
  constructor
  · rintro ⟨e, he, hc⟩
    obtain ⟨o, ho, hc⟩ := Option.bind_eq_some_iff.1 hc
    rw [Option.ite_none_right_eq_some, Option.some.injEq] at hc
    obtain ⟨⟨hs, hp⟩, rfl⟩ := hc
    exact ⟨⟨e, he, o, ho, hs, rfl, rfl⟩, hp⟩
  · rintro ⟨⟨e, he, o, ho, hs, hk, hg⟩, hp⟩
    refine ⟨e, he, ?_⟩
    rw [ho, Option.bind_some, hk, hg, if_pos ⟨hs, hp⟩]

/-! ## The look-up -/

/-- The look-up by origin finds the place of the best candidate. -/
theorem generatedFor_eq_some_iff {g : Position} :
    m.generatedFor source p = some g ↔
      ∃ k, (k, g) ∈ m.candidates source p ∧ ∀ c ∈ m.candidates source p, Preferred (k, g) c := by
  have hspec := foldl_better (m.candidates source p) none
  rw [generatedFor, Option.map_eq_some_iff]
  constructor
  · rintro ⟨⟨k, g'⟩, hb, rfl⟩
    obtain ⟨hmem, hall, -⟩ := hspec.1 _ hb
    exact ⟨k, hmem.resolve_right (by simp), hall⟩
  · rintro ⟨k, hmem, hall⟩
    cases hb : (m.candidates source p).foldl better none with
    | none => simp [(hspec.2 hb).1] at hmem
    | some b =>
      obtain ⟨hbmem, hball, -⟩ := hspec.1 b hb
      obtain rfl := (hall b (hbmem.resolve_right (by simp))).antisymm (hball _ hmem)
      exact ⟨_, rfl, rfl⟩

theorem generatedFor_congr {m' : PositionMap}
    (h : ∀ k g, m'.Emits source k g ↔ m.Emits source k g) (p : Position) :
    m'.generatedFor source p = m.generatedFor source p := by
  apply Option.ext
  intro g
  simp only [generatedFor_eq_some_iff, mem_candidates, h]

theorem generatedFor_eq_none_iff :
    m.generatedFor source p = none ↔ ∀ k g, m.Emits source k g → ¬k ≤ p := by
  have hnil : m.generatedFor source p = none ↔ m.candidates source p = [] := by
    rw [generatedFor, Option.map_eq_none_iff]
    constructor
    · exact fun h => ((foldl_better _ _).2 h).1
    · intro h
      rw [h]
      rfl
  rw [hnil, List.eq_nil_iff_forall_not_mem, Prod.forall]
  simp only [mem_candidates, not_and]

/-- What the look-up finds is where the greatest place was emitted first. -/
theorem generatedFor_eq_some_iff_emitsFirst : m.generatedFor source p = some g ↔
    ∃ k, k ≤ p ∧ m.EmitsFirst source k g ∧ ∀ k' g', m.Emits source k' g' → k' ≤ p → k' ≤ k := by
  simp only [generatedFor_eq_some_iff, Prod.forall, mem_candidates]
  constructor
  · rintro ⟨k, ⟨hk, hle⟩, hbest⟩
    refine ⟨k, hle, ⟨hk, fun g' hg' => ?_⟩, fun k' g' hk' hle' => ?_⟩
    · rcases hbest k g' ⟨hg', hle⟩ with h | ⟨-, h⟩
      · exact absurd h (Position.lt_irrefl k)
      · exact h
    · rcases hbest k' g' ⟨hk', hle'⟩ with h | ⟨h, -⟩
      · exact Position.le_of_lt h
      · rw [show k' = k from h]
        exact Position.le_refl k
  · rintro ⟨k, hle, hk, hgreatest⟩
    refine ⟨k, ⟨hk.emits, hle⟩, fun k' g' hk' => ?_⟩
    by_cases heq : k' = k
    · subst heq
      exact Or.inr ⟨rfl, hk.le g' hk'.1⟩
    · exact Or.inl (Position.lt_of_le_of_ne (hgreatest k' g' hk'.1 hk'.2) heq)

theorem generatedFor_eq_some_iff_of_emits {g₀ : Position} (h : m.Emits source k g₀) :
    m.generatedFor source k = some g ↔ m.EmitsFirst source k g := by
  rw [generatedFor_eq_some_iff_emitsFirst]
  constructor
  · rintro ⟨k', hle, hfirst, hgreatest⟩
    obtain rfl := Position.le_antisymm hle (hgreatest k g₀ h (Position.le_refl k))
    exact hfirst
  · exact fun hfirst => ⟨k, Position.le_refl k, hfirst, fun _ _ _ hle => hle⟩

theorem exists_emitsFirst (h : m.Emits source k g) :
    ∃ g₀, m.generatedFor source k = some g₀ ∧ m.EmitsFirst source k g₀ := by
  cases hfound : m.generatedFor source k with
  | none => exact absurd (Position.le_refl k) (generatedFor_eq_none_iff.1 hfound k g h)
  | some g₀ => exact ⟨g₀, rfl, (generatedFor_eq_some_iff_of_emits h).1 hfound⟩

/-- **What looking up an origin finds.** Nothing exactly if no place of the source at or in front of
the one asked for was emitted. Otherwise it is where the greatest such place was emitted first. The
order of the mappings has no part in this. -/
theorem generatedFor_earliest_of_latest (m : PositionMap) (source : Text) (p : Position) :
    (m.generatedFor source p = none ↔ ∀ k g, m.Emits source k g → ¬k ≤ p) ∧
      (∀ g, m.generatedFor source p = some g ↔ ∃ k, k ≤ p ∧ m.EmitsFirst source k g ∧
        ∀ k' g', m.Emits source k' g' → k' ≤ p → k' ≤ k) ∧
      ∀ mappings : List Mapping, mappings.Perm m.mappings →
        ({ m with mappings } : PositionMap).generatedFor source p = m.generatedFor source p := by
  refine ⟨generatedFor_eq_none_iff, fun g => generatedFor_eq_some_iff_emitsFirst, ?_⟩
  intro mappings hperm
  exact generatedFor_congr (fun _ _ => emits_of_perm hperm) p

/-- A place that was emitted twice, looked up behind it and below a root, in either order. -/
theorem generatedFor_earliest_of_latest_reversed :
    let m : PositionMap := ⟨none, some ['r'], [⟨⟨7, 0⟩, some ⟨['a'], 1, 4⟩, none⟩,
      ⟨⟨1, 0⟩, some ⟨['b'], 1, 5⟩, none⟩, ⟨⟨2, 3⟩, some ⟨['a'], 1, 4⟩, none⟩,
      ⟨⟨1, 2⟩, some ⟨['a'], 1, 0⟩, none⟩, ⟨⟨1, 0⟩, none, none⟩]⟩
    m.mappings.reverse.Perm m.mappings ∧
      ({ m with mappings := m.mappings.reverse } : PositionMap).generatedFor ['r', '/', 'a'] ⟨1, 9⟩ =
        some ⟨2, 3⟩ := by
  intro m
  have hperm : m.mappings.reverse.Perm m.mappings := List.reverse_perm _
  refine ⟨hperm, ?_⟩
  rw [(m.generatedFor_earliest_of_latest ['r', '/', 'a'] ⟨1, 9⟩).2.2 _ hperm]
  decide

end PositionMap

end Provenance
