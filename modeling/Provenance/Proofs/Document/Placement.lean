import Provenance.Proofs.Document.Recording
import Provenance.Proofs.PositionMap.Tracing

/-!
# Where mappings lie

A fragment without a map of its own leaves one mapping for each of its lines, at the place where the
line starts. So what is recorded follows the text: mappings stand in the order of their places, and
these lie in the text that has been written.

* `Lines.Carries` : mappings of which this is so; `Document.carries_apply` : an edit without maps
  keeps it so, and `Document.carries_run` : a run of them does;
* `Edit.IsPlain` : an edit that writes no fragment with a map of its own.
  `Document.le_cursor_of_mem_recorded` : what such edits record does not lie behind the cursor;
* `Document.mappings_run_of_create` : the mappings of a document, and those that the next fragment
  adds.
-/

namespace Provenance

/-! ## Fragments without a map -/

/-- No fragment with a map of its own is written. -/
def Edit.IsPlain (e : Edit) : Prop := ∀ f ∈ e.fragment?, f.map = none

instance (e : Edit) : Decidable e.IsPlain := inferInstanceAs (Decidable (∀ f ∈ e.fragment?, _))

theorem Fragment.ofContent_of_map_eq_none {content : Text}
    (h : (MapComment.decode content).map = none) (source : Text) (anchor : Position) :
    Fragment.ofContent source content anchor = ⟨source, content, anchor, none⟩ := by
  unfold MapComment.decode at h
  rw [ofContent, MapComment.decode]
  split at h
  · simp at h
  · rfl

theorem Edit.exists_lines_eq {e : Edit} {f : Fragment} (h : e.fragment? = some f) :
    ∃ more, e.lines = Lines.ofText f.content ++ more := by
  cases e with
  | write t => simp [fragment?] at h
  | writeLine t => simp [fragment?] at h
  | append f' =>
    obtain rfl : f' = f := by simpa [fragment?] using h
    exact ⟨Lines.empty, (Lines.append_empty _).symm⟩
  | writeFragment source content anchor =>
    obtain rfl := Option.some.inj h
    exact ⟨Lines.empty, (Lines.append_empty _).symm⟩
  | writeFile source content =>
    obtain rfl := Option.some.inj h
    exact ⟨Lines.ofText ['\n'], rfl⟩

theorem Fragment.mappings_of_map_eq_none {f : Fragment} (hf : f.map = none) (start : Position) :
    f.mappings start =
      (List.range (Lines.ofText f.content).count).map
        (Mapping.lineStart f.source start f.anchor) := by
  rw [mappings, hf]

/-! ## Mappings that follow the text -/

namespace Lines

/-- The mappings stand in the order of their places, and these lie in the text. -/
structure Carries (l : Lines) (ms : List Mapping) : Prop where
  ordered : ms.Pairwise fun a b => a.generated ≤ b.generated
  placed : ∀ b ∈ ms, l.Has b.generated

theorem carries_nil (l : Lines) : l.Carries [] := ⟨List.Pairwise.nil, by simp⟩

/-- More text with its mappings, none of which stands in front of it. -/
theorem Carries.append {l more : Lines} {ms added : List Mapping} (h : l.Carries ms)
    (hadded : (l ++ more).Carries added) (hstart : ∀ b ∈ added, l.endPosition ≤ b.generated) :
    (l ++ more).Carries (ms ++ added) := by
  refine ⟨List.pairwise_append.2 ⟨h.ordered, hadded.ordered, fun a ha b hb => ?_⟩, fun b hb => ?_⟩
  · exact Position.le_trans (h.placed a ha).le_endPosition (hstart b hb)
  · rcases List.mem_append.1 hb with hb | hb
    · exact (h.placed b hb).append more
    · exact hadded.placed b hb

theorem Carries.append_right {l : Lines} {ms : List Mapping} (h : l.Carries ms) (more : Lines) :
    (l ++ more).Carries ms :=
  ⟨h.ordered, fun b hb => (h.placed b hb).append more⟩

theorem has_lineStart (l : Lines) {more : Lines} {i : Nat} (hi : i < more.count) (source : Text)
    (anchor : Position) :
    (l ++ more).Has (Mapping.lineStart source l.endPosition anchor i).generated := by
  rw [← length_toList] at hi
  have hline := getElem?_append_right (a := l) (List.getElem?_eq_getElem hi)
  rw [← endPosition_line_add] at hline
  refine ⟨Nat.le_trans l.one_le_line_endPosition (Nat.le_add_right _ i), _, hline, ?_⟩
  rw [List.length_append, Mapping.lineStart]
  split
  · exact Nat.le_add_right _ _
  · exact Nat.zero_le _

theorem carries_mappings (l : Lines) {f : Fragment} (hf : f.map = none) :
    (l ++ ofText f.content).Carries (f.mappings l.endPosition) := by
  rw [Fragment.mappings_of_map_eq_none hf]
  refine ⟨?_, fun b hb => ?_⟩
  · rw [List.pairwise_map]
    refine List.pairwise_lt_range.imp fun {i j} hij => ?_
    rw [Mapping.generated_lineStart, Mapping.generated_lineStart,
      Position.within_le_within_iff (Nat.le_add_left 1 i) (Nat.le_add_left 1 j)]
    exact Or.inl (Nat.succ_lt_succ hij)
  · obtain ⟨i, hi, rfl⟩ := List.mem_map.1 hb
    exact l.has_lineStart (List.mem_range.1 hi) f.source f.anchor

end Lines

theorem Fragment.fromOne_of_map_eq_none {f : Fragment} (hf : f.map = none) : f.FromOne := by
  intro m hm
  rw [hf] at hm
  simp at hm

namespace Document

variable {d : Document} {ms : List Mapping}

theorem fromOne_of_isPlain {e : Edit} (h : e.IsPlain) {f : Fragment} (hf : e.fragment? = some f) :
    f.FromOne :=
  Fragment.fromOne_of_map_eq_none (h f hf)

/-- One edit: the mappings of its fragment stand behind those recorded before, and what it writes
behind the fragment leaves them where they are. -/
theorem carries_apply (h : d.lines.Carries ms) {e : Edit} (he : e.IsPlain) :
    (d.apply e).lines.Carries (ms ++ e.mappings d.cursor) := by
  rw [apply_lines]
  cases hf : e.fragment? with
  | none =>
    rw [Edit.mappings, hf, List.append_nil]
    exact h.append_right _
  | some f =>
    obtain ⟨more, hlines⟩ := Edit.exists_lines_eq hf
    rw [Edit.mappings_of_fragment? hf, hlines, ← Lines.append_assoc]
    refine (h.append (d.lines.carries_mappings (he f hf)) fun b hb => ?_).append_right more
    exact Fragment.start_le_of_mem_mappings (fromOne_of_isPlain he hf) hb

theorem carries_run (h : d.lines.Carries ms) {edits : List Edit} (hplain : ∀ e ∈ edits, e.IsPlain) :
    (d.run edits).lines.Carries (ms ++ d.recorded edits) :=
  run_induction (fun _ _ _ he h => carries_apply h he) hplain h

/-- What edits without maps record does not lie behind the cursor. -/
theorem le_cursor_of_mem_recorded {edits : List Edit} (h : ∀ e ∈ edits, e.IsPlain) {b : Mapping}
    (hb : b ∈ d.recorded edits) : b.generated ≤ (d.run edits).cursor :=
  ((carries_run d.lines.carries_nil h).placed b hb).le_endPosition

/-- The cursor does not stay in front of the end of a fragment that has been written. -/
theorem end_le_cursor_apply (d : Document) {e : Edit} {f : Fragment} (h : e.fragment? = some f) :
    (Lines.ofText f.content).endPosition.within d.cursor ≤ (d.apply e).cursor := by
  obtain ⟨more, hlines⟩ := Edit.exists_lines_eq h
  rw [cursor_apply, hlines, Lines.endPosition_append,
    Position.within_le_within_iff (Lines.one_le_line_endPosition _)]
  · exact Position.le_within more.one_le_line_endPosition
  · exact Nat.le_trans (Lines.one_le_line_endPosition _)
      (Position.line_le_of_le (Position.le_within more.one_le_line_endPosition))

/-! ## The mappings of a document -/

theorem length_mappings_of_map_eq_none {f : Fragment} (hf : f.map = none) :
    (f.mappings d.cursor).length = (d.write f.content).cursor.line - d.cursor.line + 1 := by
  have hcount := Lines.count_append d.lines (Lines.ofText f.content)
  have hone : 1 ≤ (Lines.ofText f.content).count := Nat.le_add_left 1 _
  rw [Fragment.mappings_of_map_eq_none hf, List.length_map, List.length_range]
  simp only [cursor, write]
  omega

/-- The mapping for a line of a fragment is where the line begins in the document. -/
theorem mappings_getElem?_of_map_eq_none {f : Fragment} (hf : f.map = none) {i : Nat} {b : Mapping}
    (hb : (f.mappings d.cursor)[i]? = some b) :
    let left := if i = 0 then d.lines.current else []
    b.generated = ⟨d.cursor.line + i, left.length⟩ ∧
      ∃ t, (Lines.ofText f.content).toList[i]? = some t ∧
        (d.write f.content).lines.toList[d.cursor.line + i - 1]? = some (left ++ t) := by
  intro left
  rw [Fragment.mappings_of_map_eq_none hf, List.getElem?_map, Option.map_eq_some_iff] at hb
  obtain ⟨j, hj, rfl⟩ := hb
  obtain ⟨hi, rfl⟩ := List.getElem?_eq_some_iff.1 hj
  rw [List.length_range, ← Lines.length_toList] at hi
  have hline := Lines.getElem?_append_right (a := d.lines) (List.getElem?_eq_getElem hi)
  rw [← Lines.endPosition_line_add] at hline
  rw [List.getElem_range]
  refine ⟨?_, _, List.getElem?_eq_getElem hi, hline⟩
  simp only [Mapping.lineStart, left]
  split <;> rfl

/-- The map of a tracked document has what was recorded, followed through the map of its input,
which moves no mapping. -/
theorem exists_follow_of_create {files : FileStore} {name : Text} {o : DocumentOptions}
    (hcreate : create files name o = .ok d) (hd : d.isTracked = true) :
    ∃ follow : Mapping → Mapping, (∀ e, (follow e).generated = e.generated) ∧
      ∀ edits, (d.run edits).positionMap =
        some ⟨some name, o.sourceRoot, (d.recorded edits).map follow⟩ := by
  obtain ⟨base, -, rfl⟩ := create_eq_ok hcreate
  have htracked : (o.tracked || base.isSome) = true := by
    rw [isTracked] at hd
    split at hd
    · next h => exact h
    · simp at hd
  cases base with
  | none =>
    refine ⟨id, fun _ => rfl, fun edits => ?_⟩
    rw [positionMap, run_base, map_run, if_pos htracked, List.map_id]
    rfl
  | some base =>
    refine ⟨Mapping.tracedBy base (base.file.getD name), Mapping.generated_tracedBy base _,
      fun edits => ?_⟩
    rw [positionMap, run_base, run_name, map_run, if_pos htracked]
    rfl

/-- **Mappings follow the text.** To a tracked document only fragments without maps have been
written. Then its mappings stand in the order of their places, and these lie in its text and not
behind the cursor. The next such fragment adds one mapping for each line that its text stands on.
The one for line `i` is at the place where this line of the fragment begins: behind what stood on
the line of the cursor for the first, and at the start of a line for any other. -/
theorem mappings_run_of_create {files : FileStore} {name : Text} {o : DocumentOptions}
    {edits : List Edit} (hcreate : create files name o = .ok d) (hd : d.isTracked = true)
    (hplain : ∀ e ∈ edits, e.IsPlain) :
    ∃ m, (d.run edits).positionMap = some m ∧
      (m.mappings.Pairwise fun a b => a.generated ≤ b.generated) ∧
      (∀ b ∈ m.mappings, b.generated ≤ (d.run edits).cursor ∧
        (d.run edits).lines.Has b.generated) ∧
      ∀ e f, e.fragment? = some f → f.map = none →
        let start := (d.run edits).cursor
        let written := (d.run edits).write f.content
        ∃ added, ((d.run edits).apply e).positionMap =
            some { m with mappings := m.mappings ++ added } ∧
          added.length = written.cursor.line - start.line + 1 ∧
          ∀ i b, added[i]? = some b →
            let left := if i = 0 then (d.run edits).lines.current else []
            b.generated = ⟨start.line + i, left.length⟩ ∧
              ∃ t, (Lines.ofText f.content).toList[i]? = some t ∧
                written.lines.toList[start.line + i - 1]? = some (left ++ t) := by
  obtain ⟨follow, hfollow, hmap⟩ := exists_follow_of_create hcreate hd
  have hcarries := carries_run d.lines.carries_nil hplain
  rw [List.nil_append] at hcarries
  have hplaced : ∀ b ∈ (d.recorded edits).map follow, (d.run edits).lines.Has b.generated := by
    intro b hb
    obtain ⟨a, ha, rfl⟩ := List.mem_map.1 hb
    rw [hfollow]
    exact hcarries.placed a ha
  refine ⟨_, hmap edits, ?_, fun b hb => ⟨(hplaced b hb).le_endPosition, hplaced b hb⟩, ?_⟩
  · rw [List.pairwise_map]
    simp only [hfollow]
    exact hcarries.ordered
  · intro e f hf hnone
    refine ⟨(f.mappings (d.run edits).cursor).map follow, ?_, ?_, fun i b hb => ?_⟩
    · have hnext := hmap (edits ++ [e])
      rw [run_append, recorded_append, List.map_append] at hnext
      rw [← Edit.mappings_of_fragment? hf, ← List.append_nil (e.mappings _)]
      exact hnext
    · rw [List.length_map, length_mappings_of_map_eq_none hnone]
    · rw [List.getElem?_map, Option.map_eq_some_iff] at hb
      obtain ⟨a, ha, rfl⟩ := hb
      rw [hfollow]
      exact mappings_getElem?_of_map_eq_none hnone ha

/-- A fragment of two lines that begins within a line, in a document made from a generated one. -/
theorem mappings_run_of_create_within_line :
    let base : PositionMap := ⟨some ['b'], none, [⟨⟨1, 0⟩, some ⟨['a'], 7, 1⟩, none⟩]⟩
    let d : Document := ⟨['o'], Lines.empty, some (.empty ['o'] none), some base, .inline⟩
    let edits : List Edit := [.writeFile ['b'] ['x', '\r', '\n', 'y'], .write ['#']]
    let e : Edit := .writeFragment ['s'] ['p', '\r', 'q'] ⟨3, 4⟩
    ∃ m, (d.run edits).positionMap = some m ∧
      (m.mappings.Pairwise fun a b => a.generated ≤ b.generated) ∧
      ∃ added, ((d.run edits).apply e).positionMap =
          some { m with mappings := m.mappings ++ added } ∧
        added.length = 2 ∧ (∀ b, added[0]? = some b → b.generated = ⟨3, 1⟩) ∧
        ∀ b, added[1]? = some b → b.generated = ⟨4, 0⟩ := by
  intro base d edits e
  have hcreate : create ⟨[], []⟩ ['o'] { previous := some (.decoded base) } = .ok d := rfl
  have hplain : ∀ x ∈ edits, x.IsPlain := by decide
  obtain ⟨m, hm, hordered, -, hnext⟩ := mappings_run_of_create hcreate rfl hplain
  obtain ⟨added, hadded, hlength, hplaces⟩ :=
    hnext e ⟨['s'], ['p', '\r', 'q'], ⟨3, 4⟩, none⟩ rfl rfl
  exact ⟨m, hm, hordered, added, hadded, hlength, fun b hb => (hplaces 0 b hb).1,
    fun b hb => (hplaces 1 b hb).1⟩

end Document

end Provenance
