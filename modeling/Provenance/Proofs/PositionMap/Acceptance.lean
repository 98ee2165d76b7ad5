import Mathlib.Algebra.Ring.Int.Defs
import Provenance.Proofs.PositionMap.Reading

/-!
# Which mappings texts are read

The reader carries totals from segment to segment. The rule it is compared with has none: it adds
up, for each segment, the fields of all the segments before it.

* `PositionMap.fieldSum`, `PositionMap.sums` : sums over the segments that have a field;
* `PositionMap.IsReadable`, `PositionMap.segmentMapping` : whether a segment is well formed behind
  the ones before it, and the mapping it stands for;
* `Totals.Behind` : the invariant of the reader, that its totals are these sums;
* `PositionMap.readSegments_cases` : every segment is read, or the first that is not well formed is
  told; `PositionMap.ofSourceMap_of_revision` : the same for a whole document.
-/

namespace Provenance

namespace PositionMap

/-! ## Sums over segments -/

/-- The numbers of a segment, none if they cannot be read. -/
def numbers (piece : Text) : List Int := (Vlq.decode piece).toOption.getD []

/-- The sum of the fields at an index, over the segments that have one there. -/
def fieldSum (i : Nat) (seen : List (Nat × Text)) : Int :=
  (seen.filterMap fun p => (numbers p.2)[i]?).sum

/-- The sums over the segments `seen`; the columns are those of the segments on `line`. -/
def sums (seen : List (Nat × Text)) (line : Nat) : Totals where
  line
  column := fieldSum 0 (seen.filter fun p => p.1 = line)
  source := fieldSum 1 seen
  originLine := fieldSum 2 seen
  originColumn := fieldSum 3 seen
  name := fieldSum 4 seen

/-- The segment `p` behind those in `seen` is well formed: its numbers can be read, and the sums up
to it are admitted. -/
def IsReadable (sources names : List Text) (seen : List (Nat × Text)) (p : Nat × Text) : Prop :=
  ∃ vs, Vlq.decode p.2 = .ok vs ∧ (sums (seen ++ [p]) p.1).Admits sources names vs.length

/-- The mapping that the segment `p` behind those in `seen` stands for. -/
def segmentMapping (sources names : List Text) (seen : List (Nat × Text)) (p : Nat × Text) :
    Mapping :=
  (sums (seen ++ [p]) p.1).mapping sources names (numbers p.2).length

instance (sources names : List Text) (seen : List (Nat × Text)) (p : Nat × Text) :
    Decidable (IsReadable sources names seen p) :=
  match h : Vlq.decode p.2 with
  | .ok vs => decidable_of_iff ((sums (seen ++ [p]) p.1).Admits sources names vs.length)
      ⟨fun ha => ⟨vs, h, ha⟩, fun ⟨_, hw, ha⟩ => Except.ok.inj (h.symm.trans hw) ▸ ha⟩
  | .error _ => isFalse fun ⟨_, hw, _⟩ => nomatch h.symm.trans hw

theorem numbers_of_decode {piece : Text} {vs : List Int} (h : Vlq.decode piece = .ok vs) :
    numbers piece = vs := by
  rw [numbers, h]
  rfl

theorem IsReadable.admits {sources names : List Text} {seen : List (Nat × Text)} {p : Nat × Text}
    (h : IsReadable sources names seen p) :
    (sums (seen ++ [p]) p.1).Admits sources names (numbers p.2).length := by
  obtain ⟨vs, hvs, hadmits⟩ := h
  rwa [numbers_of_decode hvs]

theorem fieldSum_concat (i : Nat) (seen : List (Nat × Text)) (p : Nat × Text) :
    fieldSum i (seen ++ [p]) = fieldSum i seen + (numbers p.2).getD i 0 := by
  rw [fieldSum, List.filterMap_append, List.sum_append_int, ← fieldSum, List.getD_eq_getElem?_getD]
  cases h : (numbers p.2)[i]? <;> simp [h]

theorem sums_concat (seen : List (Nat × Text)) (p : Nat × Text) :
    sums (seen ++ [p]) p.1 = (sums seen p.1).add (numbers p.2) := by
  have hline : ([p].filter fun q => q.1 = p.1) = [p] := by simp
  simp only [sums, List.filter_append, hline, fieldSum_concat, Totals.add, Totals.addColumn,
    Totals.addOrigin, Totals.addName]

end PositionMap

/-! ## The totals of the reader -/

namespace Totals

open PositionMap

variable {t : Totals} {seen : List (Nat × Text)} {p : Nat × Text} {sources names : List Text}

/-- The reader stands behind the segments `seen`: its totals are their sums, and it has not left
the line of any of them for an earlier one. -/
structure Behind (seen : List (Nat × Text)) (t : Totals) : Prop where
  eq : t = sums seen t.line
  le : ∀ p ∈ seen, p.1 ≤ t.line

theorem behind_nil : Behind [] {} := ⟨rfl, by simp⟩

/-- A later line has no segment yet, so that its columns add up to nothing. -/
theorem Behind.enter (h : t.Behind seen) {line : Nat} (hle : t.line ≤ line) :
    t.enter line = sums seen line := by
  unfold Totals.enter
  split
  · next hlt =>
    have hnone : (seen.filter fun p => p.1 = line) = [] := by
      rw [List.filter_eq_nil_iff]
      intro p hp
      have hp := h.le p hp
      simp only [decide_eq_true_eq]
      omega
    rw [h.eq]
    simp only [sums, hnone]
    rfl
  · obtain rfl : t.line = line := by omega
    exact h.eq

theorem Behind.concat (h : t.Behind seen) (hle : t.line ≤ p.1) :
    Behind (seen ++ [p]) (sums (seen ++ [p]) p.1) := by
  refine ⟨rfl, fun q hq => ?_⟩
  rcases List.mem_append.1 hq with hq | hq
  · exact Nat.le_trans (h.le q hq) hle
  · obtain rfl := List.mem_singleton.1 hq
    exact Nat.le_refl _

/-- A well-formed segment is read, and the reader stands behind it. -/
theorem Behind.read_of_isReadable (h : t.Behind seen) (hle : t.line ≤ p.1)
    (hp : IsReadable sources names seen p) :
    (t.enter p.1).read sources names p.2 =
      .ok (segmentMapping sources names seen p, sums (seen ++ [p]) p.1) := by
  obtain ⟨vs, hvs, hadmits⟩ := hp
  rw [segmentMapping, numbers_of_decode hvs, h.enter hle]
  rw [sums_concat, numbers_of_decode hvs] at hadmits ⊢
  exact read_of_admits hvs hadmits

theorem Behind.exists_fault (h : t.Behind seen) (hle : t.line ≤ p.1)
    (hp : ¬IsReadable sources names seen p) :
    ∃ fault, (t.enter p.1).read sources names p.2 = .error fault := by
  cases hread : (t.enter p.1).read sources names p.2 with
  | error fault => exact ⟨fault, rfl⟩
  | ok result =>
    obtain ⟨vs, hvs, hnext, hadmits, -⟩ := exists_fields_of_read hread
    rw [hnext, h.enter hle, ← numbers_of_decode hvs, ← sums_concat,
      numbers_of_decode hvs] at hadmits
    exact absurd ⟨vs, hvs, hadmits⟩ hp

end Totals

namespace PositionMap

/-! ## All segments of a text -/

/-- **A whole text.** Reading on behind the segments `seen` gives the mapping of each segment, or
else tells the index of the first that is not well formed. -/
theorem readSegments_cases (sources names : List Text) {rest seen : List (Nat × Text)}
    (index : Nat) {t : Totals} (ht : t.Behind seen) (hlines : rest.Pairwise fun a b => a.1 ≤ b.1)
    (hle : ∀ p ∈ rest, t.line ≤ p.1) :
    (∃ ms, readSegments sources names index t rest = .ok ms ∧ ms.length = rest.length ∧
      ∀ k p, rest[k]? = some p → IsReadable sources names (seen ++ rest.take k) p ∧
        ms[k]? = some (segmentMapping sources names (seen ++ rest.take k) p)) ∨
    ∃ k p fault, rest[k]? = some p ∧
      (∀ j < k, ∀ q, rest[j]? = some q → IsReadable sources names (seen ++ rest.take j) q) ∧
      ¬IsReadable sources names (seen ++ rest.take k) p ∧
      readSegments sources names index t rest = .error (.badSegment (index + k) fault) := by
  -- The reader and the rule go from segment to segment together; what is seen grows at its end.
  induction rest generalizing seen index t with
  | nil => exact Or.inl ⟨[], rfl, rfl, by simp⟩
  | cons p rest ih =>
    rw [List.pairwise_cons] at hlines
    rw [List.forall_mem_cons] at hle
    by_cases hp : IsReadable sources names seen p
    · have hread := ht.read_of_isReadable hle.1 hp
      rcases ih (index + 1) (ht.concat hle.1) hlines.2 hlines.1 with
        ⟨ms, hms, hlength, hall⟩ | ⟨k, q, fault, hq, hbefore, hbad, herror⟩
      · left
        refine ⟨segmentMapping sources names seen p :: ms, ?_, by simp [hlength], ?_⟩
        · rw [readSegments, hread]
          simp only [hms]
          rfl
        · intro k q hq
          cases k with
          | zero =>
            obtain rfl := Option.some.inj hq
            simpa using hp
          | succ k => simpa using hall k q hq
      · right
        refine ⟨k + 1, q, fault, hq, ?_, by simpa using hbad, ?_⟩
        · intro j hj r hr
          cases j with
          | zero =>
            obtain rfl := Option.some.inj hr
            simpa using hp
          | succ j => simpa using hbefore j (by omega) r hr
        · rw [readSegments, hread]
          simp only [herror]
          rw [Nat.add_assoc, Nat.add_comm 1 k]
          rfl
    · obtain ⟨fault, hfault⟩ := ht.exists_fault hle.1 hp
      right
      refine ⟨0, p, fault, rfl, by simp, by simpa using hp, ?_⟩
      rw [readSegments, hfault]
      rfl

theorem pairwise_line_pieces (t : Text) : (pieces t).Pairwise fun a b => a.1 ≤ b.1 := by
  rw [pieces, List.pairwise_flatMap]
  constructor
  · rintro ⟨line, number⟩ -
    rw [List.pairwise_map]
    exact List.pairwise_of_forall fun _ _ => Nat.le_refl _
  · have hnumbers : ((t.splitOn ';').zipIdx 1).Pairwise fun a b => a.2 < b.2 := by
      have hrange := List.pairwise_lt_range' (s := 1) (n := (t.splitOn ';').length) 1
      rw [← List.zipIdx_map_snd, List.pairwise_map] at hrange
      exact hrange
    refine hnumbers.imp fun {a b} hab p hp q hq => ?_
    obtain ⟨_, -, rfl⟩ := List.mem_map.1 hp
    obtain ⟨_, -, rfl⟩ := List.mem_map.1 hq
    exact Nat.le_of_lt hab

theorem one_le_line_of_mem_pieces {t : Text} {p : Nat × Text} (h : p ∈ pieces t) : 1 ≤ p.1 := by
  obtain ⟨⟨line, number⟩, hline, hp⟩ := List.mem_flatMap.1 h
  obtain ⟨_, -, rfl⟩ := List.mem_map.1 hp
  exact List.le_snd_of_mem_zipIdx hline

/-- **What is read.** A document of the right revision is read if every segment of its mappings text
is well formed behind the ones before it. Then there is a mapping for each segment, in order, which
has an origin if there are four or five fields and a name if there are five. Otherwise the error
tells the index of the first segment that is not well formed. -/
theorem ofSourceMap_of_revision {s : SourceMap} (h : s.version = SourceMap.revision) :
    let segments := pieces s.mappings
    ((∃ m, ofSourceMap s = .ok m) ↔
      ∀ k (hk : k < segments.length),
        IsReadable s.sources s.names (segments.take k) segments[k]) ∧
    (∀ m, ofSourceMap s = .ok m →
      m.file = s.file ∧ m.sourceRoot = s.sourceRoot ∧ m.mappings.length = segments.length ∧
      ∀ k (hk : k < segments.length), ∃ e,
        m.mappings[k]? = some e ∧
        e = segmentMapping s.sources s.names (segments.take k) segments[k] ∧
        (e.origin.isSome ↔ 4 ≤ (numbers segments[k].2).length) ∧
        (e.name.isSome ↔ (numbers segments[k].2).length = 5)) ∧
    ∀ k (hk : k < segments.length),
      (∀ j (hj : j < k), IsReadable s.sources s.names (segments.take j) segments[j]) →
      ¬IsReadable s.sources s.names (segments.take k) segments[k] →
      ∃ fault, ofSourceMap s = .error (.badSegment k fault) := by
  intro segments
  rcases readSegments_cases s.sources s.names 0 Totals.behind_nil
      (pairwise_line_pieces s.mappings) fun p hp => one_le_line_of_mem_pieces hp with
    ⟨ms, hms, hlength, hall⟩ | ⟨k, p, fault, hp, hbefore, hbad, herror⟩
  · have hok : ofSourceMap s = .ok ⟨s.file, s.sourceRoot, ms⟩ := by
      rw [ofSourceMap, if_pos h, hms]
      rfl
    have hreadable : ∀ k (hk : k < segments.length),
        IsReadable s.sources s.names (segments.take k) segments[k] := fun k hk =>
      (hall k segments[k] (List.getElem?_eq_getElem hk)).1
    refine ⟨iff_of_true ⟨_, hok⟩ hreadable, fun m hm => ?_, fun k hk _ hbad =>
      absurd (hreadable k hk) hbad⟩
    obtain rfl := Except.ok.inj (hok.symm.trans hm)
    refine ⟨rfl, rfl, hlength, fun k hk => ⟨_, (hall k segments[k] ?_).2, rfl, ?_, ?_⟩⟩
    · exact List.getElem?_eq_getElem hk
    · exact Totals.isSome_origin_mapping (hreadable k hk).admits
    · exact Totals.isSome_name_mapping (hreadable k hk).admits
  · have herror : ofSourceMap s = .error (.badSegment k fault) := by
      rw [ofSourceMap, if_pos h, herror, Nat.zero_add]
      rfl
    obtain ⟨hk, rfl⟩ := List.getElem?_eq_some_iff.1 hp
    refine ⟨iff_of_false ?_ fun hreadable => hbad (hreadable k hk), fun m hm => ?_,
      fun i hi hfirst hworse => ⟨fault, ?_⟩⟩
    · rintro ⟨m, hm⟩
      rw [herror] at hm
      cases hm
    · rw [herror] at hm
      cases hm
    · -- Two segments that are both the first bad one are the same.
      rcases Nat.lt_trichotomy i k with hik | rfl | hki
      · exact absurd (hbefore i hik _ (List.getElem?_eq_getElem hi)) hworse
      · exact herror
      · exact absurd (hfirst k hki) hbad

/-- Three columns of `2 ^ 62 - 1` each: the sum of the third is the first that does not fit. -/
theorem ofSourceMap_of_revision_overflow :
    let s : SourceMap :=
      ⟨3, none, none, [], none, [], "+///////////H,,+///////////H,+///////////H;A".toList⟩
    s.version = SourceMap.revision ∧ ∃ fault, ofSourceMap s = .error (.badSegment 2 fault) :=
  ⟨rfl, (ofSourceMap_of_revision rfl).2.2 2 (by decide) (by decide) (by decide)⟩

end PositionMap

end Provenance
