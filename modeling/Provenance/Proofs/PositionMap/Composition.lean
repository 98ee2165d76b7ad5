import Provenance.PositionMap.Composition
import Provenance.Proofs.Path.Directory
import Provenance.Proofs.PositionMap.Lookup

/-!
# Maps within maps

A map is composed into the map of the document that its text was written into. That document may be
written into another one, and so its mappings are moved again.

* `Position.within_within` : the place of a text within a text within a document;
* `Mapping.carried`, `PositionMap.compose_eq` : what becomes of a mapping;
* `PositionMap.compose_compose` : the document in between can be left out.
-/

namespace Provenance
/-! ## Positions of a fragment in its document -/

namespace Position

variable {p q start outer : Position}

theorem within_le_within_iff (hp : 1 ≤ p.line) (hq : 1 ≤ q.line) :
    p.within start ≤ q.within start ↔ p ≤ q := by
  simp only [within, le_iff]
  split <;> split <;> omega

theorem within_inj (hp : 1 ≤ p.line) (hq : 1 ≤ q.line) :
    p.within start = q.within start ↔ p = q := by
  refine ⟨fun h => ?_, fun h => by rw [h]⟩
  apply le_antisymm
  · rw [← within_le_within_iff hp hq, h]
    exact le_refl _
  · rw [← within_le_within_iff hq hp, h]
    exact le_refl _

theorem within_line_eq_iff (hp : 1 ≤ p.line) (hq : 1 ≤ q.line) :
    (p.within start).line = (q.within start).line ↔ p.line = q.line := by
  simp only [within]
  omega

theorem within_lt_within (hq : 1 ≤ q.line) (hp : 1 ≤ p.line) (h : p < q) :
    p.within start < q.within start := by
  rw [← not_le] at h ⊢
  rwa [within_le_within_iff hq hp]

/-- Column `k` of line `i` of a text, counted from 0. Only the first line is moved sideways. -/
theorem within_succ (start : Position) (i k : Nat) :
    (⟨i + 1, k⟩ : Position).within start =
      ⟨start.line + i, (if i = 0 then start.column else 0) + k⟩ := by
  cases i <;> simp [within]

theorem le_within (hp : 1 ≤ p.line) : start ≤ p.within start := by
  simp only [within, le_iff]
  split <;> omega

/-- A text at `start` of a text at `outer`: only if both begin on a first line, they are moved
sideways together. -/
theorem within_within (hp : 1 ≤ p.line) (hs : 1 ≤ start.line) :
    (p.within start).within outer = p.within (start.within outer) := by
  have hfirst : start.line + p.line - 1 = 1 ↔ p.line = 1 ∧ start.line = 1 := by omega
  simp only [within, hfirst, mk.injEq]
  refine ⟨by omega, ?_⟩
  by_cases hline : p.line = 1
  · by_cases hstart : start.line = 1
    · simp [hline, hstart, Nat.add_assoc]
    · simp [hline, hstart]
  · simp [hline]

end Position

/-! ## Mappings that are handed on -/

namespace Mapping

/-- A mapping of `embedded`, the map of a fragment of `source`, as a mapping of the document that
the fragment was written into at `start`. -/
def carried (embedded : PositionMap) (source : Text) (start : Position) (e : Mapping) : Mapping where
  generated := e.generated.within start
  origin := e.origin.map fun o =>
    { o with source := Path.join (Path.dirname source) (embedded.resolve o.source) }
  name := e.name

/-- A mapping that is handed on twice. -/
theorem carried_carried {inner between : PositionMap} {outerSource innerSource : Text}
    {start outer : Position} {e : Mapping} (hroot : between.sourceRoot = none)
    (houter : ¬Path.IsHostless (Path.dirname outerSource)) (hinner : Path.IsFile innerSource)
    (hstart : 1 ≤ start.line) (hline : 1 ≤ e.generated.line)
    (hsource : ∀ o ∈ e.origin, Path.IsSource (inner.resolve o.source)) :
    carried between outerSource outer (carried inner innerSource start e) =
      carried inner (Path.join (Path.dirname outerSource) innerSource) (start.within outer) e := by
  unfold carried
  rw [Position.within_within hline hstart, Option.map_map]
  congr 1
  apply Option.map_congr
  intro o ho
  rw [Function.comp_apply, PositionMap.resolve_of_sourceRoot_eq_none hroot,
    Path.join_join houter hinner (hsource o ho)]

end Mapping

namespace PositionMap

theorem compose_eq (m embedded : PositionMap) (source : Text) (start : Position) :
    m.compose embedded source start =
      ⟨m.file, m.sourceRoot,
        m.mappings ++ embedded.mappings.map (Mapping.carried embedded source start)⟩ := rfl

variable {inner : PositionMap} {outerSource innerSource : Text} {start : Position}

/-- **Composition is associative.** A map that is composed into the map of a text, and with it into
the map of a document, adds to that what it adds when it is composed into it at once: at the place
where its own text stands, and under the path that its source has below the source of the text. -/
theorem compose_compose (hlines : ∀ e ∈ inner.mappings, 1 ≤ e.generated.line)
    (hstart : 1 ≤ start.line) (hinner : Path.IsFile innerSource)
    (houter : ¬Path.IsHostless (Path.dirname outerSource))
    (hsources : ∀ e ∈ inner.mappings, ∀ o ∈ e.origin, Path.IsSource (inner.resolve o.source))
    (m : PositionMap) (file : Option Text) (outer : Position) :
    m.compose (compose ⟨file, none, []⟩ inner innerSource start) outerSource outer =
      m.compose inner (Path.join (Path.dirname outerSource) innerSource) (start.within outer) := by
  rw [compose_eq ⟨file, none, []⟩, compose_eq m, compose_eq m, List.nil_append, List.map_map]
  congr 2
  apply List.map_congr_left
  intro e he
  exact Mapping.carried_carried rfl houter hinner hstart (hlines e he) (hsources e he)

/-- A file that climbs above the host of the URL that it is composed into, with a source below a
root of its map and another one at a URL. -/
theorem compose_compose_above_host :
    let inner : PositionMap := ⟨none, some "lib".toList,
      [⟨⟨1, 4⟩, some ⟨"../../src/a.js".toList, 3, 2⟩, some ['f']⟩,
        ⟨⟨2, 4⟩, some ⟨"https://h/x/../y.js".toList, 1, 0⟩, none⟩, ⟨⟨1, 9⟩, none, none⟩]⟩
    let outerSource := "http://h/out/o.js".toList
    let innerSource := "../../gen/i.js".toList
    let nested := (empty ['d'] none).compose (compose ⟨none, none, []⟩ inner innerSource ⟨1, 5⟩)
      outerSource ⟨3, 7⟩
    nested = (empty ['d'] none).compose inner (Path.join (Path.dirname outerSource) innerSource)
        ⟨3, 12⟩ ∧
      nested.mappings = [⟨⟨3, 16⟩, some ⟨"http://h/src/a.js".toList, 3, 2⟩, some ['f']⟩,
        ⟨⟨4, 4⟩, some ⟨"https://h/y.js".toList, 1, 0⟩, none⟩, ⟨⟨3, 21⟩, none, none⟩] := by
  intro inner outerSource innerSource nested
  have hhost : ¬Path.IsHostless (Path.dirname outerSource) := by
    have hscheme : Path.scheme? (Path.dirname outerSource) =
        some ("http".toList, "//h/out".toList) := by decide
    rintro ⟨scheme, rest, hs, hrest⟩
    rw [hscheme] at hs
    cases hs
    exact absurd hrest (by decide)
  exact ⟨compose_compose (by decide) (by decide) (by decide) hhost (by decide) _ _ _, by decide⟩

end PositionMap

end Provenance
