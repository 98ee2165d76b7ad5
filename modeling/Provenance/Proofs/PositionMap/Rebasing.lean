import Provenance.Proofs.Path.BelowRoot
import Provenance.Proofs.PositionMap.Composition

/-!
# Sources below a directory

The sources of a map are put below its root when they are resolved, and below the directory of a
file when its map is composed into that of a document.

* `PositionMap.isBelow_rebased_iff` : they stay below the root of that directory.
-/

namespace Provenance

namespace PositionMap

variable {directory x : Text}

open Provenance.Path in
/-- **Sources stay below the root of a directory.** A relative reference that is joined to a
directory from the root is itself from the root, and nothing in it climbs. One that is joined to a
URL stays below the authority of that, unless the URL is bare. So do the sources of a map whose root
is the directory, and those of a map that is composed into that of a document, as the map of a file
in the directory. -/
theorem isBelow_rebased_iff (hrooted : rooted directory = true) (hx : isAbsolute x = false) :
    (directory.head? = some '/' → IsBelow [] (join directory x)) ∧
    (IsBelow (splitAuthority directory).1 (join directory x) ↔ x = [] ∨ ¬IsBare directory) ∧
    (∀ m : PositionMap, m.sourceRoot = some directory →
      (IsBelow (splitAuthority directory).1 (m.resolve x) ↔ x = [] ∨ ¬IsBare directory)) ∧
    ∀ (m embedded : PositionMap) (source : Text) (start : Position), dirname source = directory →
      ∀ e ∈ embedded.mappings, ∀ o ∈ e.origin, embedded.resolve o.source = x →
        ∃ rebased, ⟨e.generated.within start, some ⟨rebased, o.line, o.column⟩, e.name⟩ ∈
            (m.compose embedded source start).mappings ∧
          (IsBelow (splitAuthority directory).1 rebased ↔ x = [] ∨ ¬IsBare directory) := by
  have hjoin := isBelow_join_iff hrooted hx
  refine ⟨fun hhead => ?_, hjoin, fun m hroot => ?_, ?_⟩
  · rw [splitAuthority_of_head? hhead] at hjoin
    exact hjoin.2 (Or.inr (not_isBare_of_head? hhead))
  · obtain ⟨c, root, rfl⟩ : ∃ c root, directory = c :: root := by
      cases directory with
      | nil => exact absurd hrooted (by decide)
      | cons c root => exact ⟨c, root, rfl⟩
    have hresolve : m.resolve x = join (c :: root) x := by rw [resolve, hroot]
    rwa [hresolve]
  · rintro m embedded source start rfl e he o ho rfl
    refine ⟨join (dirname source) (embedded.resolve o.source), ?_, hjoin⟩
    rw [compose_eq]
    refine List.mem_append_right _ (List.mem_map.2 ⟨e, he, ?_⟩)
    rw [Mapping.carried, Option.mem_def.1 ho]
    rfl

open Provenance.Path in
/-- A source that climbs further than its directory is deep, below a URL with an empty host. -/
theorem isBelow_rebased_iff_empty_host :
    let directory := "file:///src/".toList
    let x := "../../lib/a.js".toList
    rooted directory = true ∧ isAbsolute x = false ∧
      splitAuthority directory = ("file://".toList, "/src/".toList) ∧
      IsBelow "file://".toList (join directory x) ∧
      IsBelow "file://".toList (resolve ⟨none, some directory, []⟩ x) := by
  intro directory x
  have hbare : ¬IsBare directory := by
    rintro ⟨scheme, rest, hs, hrest⟩
    have hscheme : scheme? directory = some ("file".toList, "///src/".toList) := by decide
    rw [hscheme] at hs
    cases hs
    exact absurd (hrest 's' (by decide)) (by decide)
  have hauthority : splitAuthority directory = ("file://".toList, "/src/".toList) := by decide
  have hrooted : rooted directory = true := by decide
  have hx : isAbsolute x = false := by decide
  obtain ⟨-, hjoin, hresolve, -⟩ := isBelow_rebased_iff hrooted hx
  rw [hauthority] at hjoin hresolve
  exact ⟨hrooted, hx, hauthority, hjoin.2 (Or.inr hbare), (hresolve _ rfl).2 (Or.inr hbare)⟩

end PositionMap

end Provenance
