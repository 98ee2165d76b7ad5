import Mathlib.Data.List.Nodup
import Provenance.Proofs.Document.Placement
import Provenance.Proofs.Document.Rendering
import Provenance.Proofs.Locator

/-!
# Where the text of a source ends up

* `Document.governs_lineStart` : the start of a line of a fragment governs that line;
* `Document.locate_render` : every character of a fragment is located in its source.
-/

namespace Provenance

/-! ## The start of a line -/

namespace Document

theorem mem_range_split {n i : Nat} (h : i < n) : ∃ left right, List.range n = left ++ i :: right ∧
    (∀ j ∈ left, j < i) ∧ ∀ j ∈ right, i < j := by
  obtain ⟨left, right, hsplit⟩ := List.append_of_mem (List.mem_range.2 h)
  have hsorted := List.pairwise_lt_range (n := n)
  rw [hsplit, List.pairwise_append, List.pairwise_cons] at hsorted
  exact ⟨left, right, hsplit, fun j hj => hsorted.2.2 j hj i List.mem_cons_self, hsorted.2.1.1⟩

/-- Of all that edits without maps record, the mapping for the start of line `i` of a fragment
governs what follows on that line, up to where the next edit goes on. -/
theorem governs_lineStart_of_lt (d : Document) {before after : List Edit} {e : Edit} {f : Fragment}
    {i k : Nat} (hplain : ∀ x ∈ before ++ e :: after, x.IsPlain) (hf : e.fragment? = some f)
    (hin : i < (Lines.ofText f.content).count)
    (hnext : (⟨i + 1, k⟩ : Position).within (d.run before).cursor <
      ((d.run before).apply e).cursor) :
    Mapping.Governs (d.recorded (before ++ e :: after)) ((⟨i + 1, k⟩ : Position).within
      (d.run before).cursor) (Mapping.lineStart f.source (d.run before).cursor f.anchor i) := by
  have hbefore : ∀ b ∈ d.recorded before, b.generated ≤ (d.run before).cursor := fun b =>
    le_cursor_of_mem_recorded fun x hx => hplain x (by simp [hx])
  have hafter : ∀ b ∈ ((d.run before).apply e).recorded after,
      ((d.run before).apply e).cursor ≤ b.generated := fun b =>
    cursor_le_of_mem_recorded fun x hx f' hf' => fromOne_of_isPlain (hplain x (by simp [hx])) hf'
  have hnone : f.map = none := hplain e (by simp) f hf
  obtain ⟨left, right, hsplit, hleft, hright⟩ := mem_range_split hin
  -- The mappings in front of the one for the line, that one, and those behind it.
  have hall : d.recorded (before ++ e :: after) =
      (d.recorded before ++ left.map (Mapping.lineStart f.source (d.run before).cursor f.anchor)) ++
        Mapping.lineStart f.source (d.run before).cursor f.anchor i ::
          (right.map (Mapping.lineStart f.source (d.run before).cursor f.anchor) ++
            ((d.run before).apply e).recorded after) := by
    rw [recorded_append, recorded, Edit.mappings_of_fragment? hf,
      Fragment.mappings_of_map_eq_none hnone]
    simp only [hsplit, List.map_append, List.map_cons, List.append_assoc, List.cons_append]
  rw [hall]
  generalize (d.run before).cursor = start at *
  have hi : 1 ≤ i + 1 := Nat.le_add_left 1 i
  apply Mapping.Governs.of_split
  · rw [Mapping.generated_lineStart]
    rfl
  · rw [Mapping.generated_lineStart, Position.within_le_within_iff hi hi]
    exact Or.inr ⟨rfl, Nat.zero_le k⟩
  · intro b hb
    rcases List.mem_append.1 hb with hb | hb
    · exact Position.le_trans (hbefore b hb) (Mapping.start_le_lineStart _ _ _ _)
    · obtain ⟨j, hj, rfl⟩ := List.mem_map.1 hb
      rw [Mapping.generated_lineStart, Mapping.generated_lineStart,
        Position.within_le_within_iff (Nat.le_add_left 1 j) hi]
      exact Or.inl (Nat.succ_lt_succ (hleft j hj))
  · intro b hb _ hle
    rcases List.mem_append.1 hb with hb | hb
    · obtain ⟨j, hj, rfl⟩ := List.mem_map.1 hb
      rw [Mapping.generated_lineStart,
        Position.within_le_within_iff (Nat.le_add_left 1 j) hi] at hle
      have hlt := hright j hj
      have hline := Position.line_le_of_le hle
      simp only at hline
      omega
    · exact Position.lt_irrefl _ (Position.lt_of_lt_of_le hnext
        (Position.le_trans (hafter b hb) hle))

/-- **The start of a line governs the line.** Of all that edits without maps record, the mapping for
the start of line `i` of a fragment governs the characters of that line. -/
theorem governs_lineStart (d : Document) {before after : List Edit} {e : Edit} {f : Fragment}
    {i k : Nat} {t : Text} (hplain : ∀ x ∈ before ++ e :: after, x.IsPlain)
    (hf : e.fragment? = some f) (hline : (Lines.ofText f.content).toList[i]? = some t)
    (hk : k < t.length) :
    Mapping.Governs (d.recorded (before ++ e :: after)) ((⟨i + 1, k⟩ : Position).within
      (d.run before).cursor) (Mapping.lineStart f.source (d.run before).cursor f.anchor i) := by
  refine d.governs_lineStart_of_lt hplain hf ?_ ?_
  · rw [← Lines.length_toList]
    exact (List.getElem?_eq_some_iff.1 hline).1
  · -- What is written next begins behind the fragment, so behind the character.
    exact Position.lt_of_lt_of_le (Position.within_lt_within (Lines.one_le_line_endPosition _)
      (Nat.le_add_left 1 i) (Lines.lt_endPosition hline hk)) ((d.run before).end_le_cursor_apply hf)

end Document

/-! ## Locating -/

theorem Origin.eq_of_source_of_position {a b : Origin} (hs : a.source = b.source)
    (hp : a.position = b.position) : a = b := by
  obtain ⟨source, line, column⟩ := a
  obtain ⟨rfl, rfl⟩ := Position.mk.inj hp
  obtain rfl : source = b.source := hs
  rfl

namespace PositionMap

variable {m : PositionMap}

theorem emitsFirst_of_nodup {b : Mapping} {o : Origin} (hroot : m.sourceRoot = none)
    (hdistinct : (m.mappings.map Mapping.origin).Nodup) (hb : b ∈ m.mappings)
    (ho : b.origin = some o) :
    m.EmitsFirst (m.resolve o.source) o.position b.generated := by
  refine ⟨emits_of_mem hb ho, ?_⟩
  rintro g ⟨a, ha, o', ho', hs, hp, rfl⟩
  rw [resolve_of_sourceRoot_eq_none hroot, resolve_of_sourceRoot_eq_none hroot] at hs
  rw [Origin.eq_of_source_of_position hs hp, ← ho] at ho'
  rw [List.inj_on_of_nodup_map hdistinct ha hb ho']
  exact Position.le_refl _

end PositionMap

/-- Where each origin was emitted once, the columns behind the start of a run of text are located
behind its origin. -/
theorem Locator.locate_of_governs {m : PositionMap} {p : Position} {b : Mapping} {o : Origin}
    (hroot : m.sourceRoot = none) (hdistinct : (m.mappings.map Mapping.origin).Nodup)
    (hb : Mapping.Governs m.mappings p b) (ho : b.origin = some o)
    (hsum : o.column + (p.column - b.generated.column) < Word.size) (document workdir : Text) :
    (Locator.mk document (some m)).locate workdir p =
      ⟨Locator.absolute ⟨document, none⟩ workdir o.source, o.line,
        o.column + (p.column - b.generated.column)⟩ := by
  have hword : o.column < Word.size := Nat.lt_of_le_of_lt (Nat.le_add_right _ _) hsum
  obtain ⟨g, -, hfirst, -, hlocate⟩ :=
    exists_locate_eq (l := ⟨document, some m⟩) rfl hb ho hword workdir
  obtain rfl := hfirst.unique (PositionMap.emitsFirst_of_nodup hroot hdistinct hb.mem ho)
  rw [hlocate, PositionMap.resolve_of_sourceRoot_eq_none hroot, if_pos hb.line,
    Word.add_of_lt hsum]
  rfl

namespace Document

theorem exists_getElem?_run {d : Document} {before after : List Edit} {e : Edit} {f : Fragment}
    {i : Nat} {t : Text} (hf : e.fragment? = some f)
    (ht : (Lines.ofText f.content).toList[i]? = some t) :
    ∃ left right, (d.run (before ++ e :: after)).lines.toList[(d.run before).cursor.line + i - 1]? =
        some (left ++ t ++ right) ∧
      left.length = if i = 0 then (d.run before).cursor.column else 0 := by
  obtain ⟨more, hlines⟩ := Edit.exists_lines_eq hf
  have hall : (d.run (before ++ e :: after)).lines =
      (d.run before).lines ++ (Lines.ofText f.content ++ (more ++ Edit.written after)) := by
    rw [run_append, run_cons, run_lines, apply_lines, hlines, Lines.append_assoc,
      Lines.append_assoc]
  obtain ⟨right, hright⟩ := Lines.exists_getElem?_append_left (more ++ Edit.written after) ht
  have hleft := Lines.getElem?_append_right (a := (d.run before).lines) hright
  refine ⟨if i = 0 then (d.run before).lines.current else [], right, ?_, ?_⟩
  · rw [hall, List.append_assoc, ← hleft, ← Lines.endPosition_line_add]
    rfl
  · split <;> rfl

/-- **Every character of a fragment is located in its source.** In a document without a source root
and a map of its input, to which only fragments without maps have been written and that shows no
place of a source twice, the text `t` of line `i` of a fragment stands where the fragment was
written, and each of its characters, if the column that it came from is a word, is located in the
source of the fragment, on the line and at the column that it came from. -/
theorem locate_render {files : FileStore} {name : Text} {o : DocumentOptions} {d : Document}
    {before after : List Edit} {e : Edit} {f : Fragment} {m : PositionMap} {i : Nat} {t : Text}
    (hcreate : create files name o = .ok d) (htracked : o.tracked = true)
    (hroot : o.sourceRoot = none) (hprevious : o.previous = none)
    (hplain : ∀ x ∈ before ++ e :: after, x.IsPlain)
    (hm : (d.run (before ++ e :: after)).positionMap = some m) (hw : m.Writable)
    (hdistinct : (m.mappings.map Mapping.origin).Nodup) (hf : e.fragment? = some f)
    (ht : (Lines.ofText f.content).toList[i]? = some t) (document workdir : Text) :
    let start := (d.run before).cursor
    let line := start.line + i
    let column := if i = 0 then start.column else 0
    (∃ left right, (d.run (before ++ e :: after)).lines.toList[line - 1]? =
        some (left ++ t ++ right) ∧ left.length = column) ∧
      ∀ k < t.length, (if i = 0 then f.anchor.column else 0) + k < Word.size →
        (Locator.ofContent document (d.run (before ++ e :: after)).render).locate
            workdir ⟨line, column + k⟩ =
          ⟨Locator.absolute ⟨document, none⟩ workdir f.source, f.anchor.line + i,
            (if i = 0 then f.anchor.column else 0) + k⟩ := by
  refine ⟨exists_getElem?_run hf ht, fun k hk hsum => ?_⟩
  have hrecorded := positionMap_run_of_create hcreate htracked hprevious (before ++ e :: after)
  obtain rfl := Option.some.inj (hm.symm.trans hrecorded)
  have hgoverns := d.governs_lineStart hplain hf ht hk
  rw [Position.within_succ] at hgoverns
  have hlocate := Locator.locate_of_governs hroot hdistinct hgoverns rfl
    (by simpa only [Mapping.lineStart, Nat.add_sub_cancel_left] using hsum) document workdir
  simp only [Mapping.lineStart, Nat.add_sub_cancel_left] at hlocate
  rw [render, locate_renderWith _ hm hw, hlocate]

/-- The second line of a fragment that begins within a line. -/
theorem locate_render_second_line :
    let d : Document := ⟨['o'], Lines.empty, some (.empty ['o'] none), none, .inline⟩
    let e : Edit := .writeFragment ['s', '/', 'a'] ['x', '\r', '\n', 'y', 'z'] ⟨3, 4⟩
    (Locator.ofContent ['d', '/', 'o']
        (d.run [.write ['#'], e, .writeFile ['b'] ['w']]).render).locate ['/'] ⟨2, 1⟩ =
      ⟨['/', 'd', '/', 's', '/', 'a'], 4, 1⟩ := by
  intro d e
  have hcreate : create ⟨[], []⟩ ['o'] { tracked := true } = .ok d := rfl
  have hplain : ∀ x ∈ [.write ['#']] ++ e :: [.writeFile ['b'] ['w']], x.IsPlain := by decide
  have hm := positionMap_run_of_create hcreate rfl rfl
    ([.write ['#']] ++ e :: [.writeFile ['b'] ['w']])
  have hlocate := locate_render (i := 1) (t := ['y', 'z']) hcreate rfl rfl rfl hplain hm (by decide)
    (by decide) rfl rfl ['d', '/', 'o'] ['/']
  exact hlocate.2 1 (by decide) (by decide)

end Document

end Provenance
