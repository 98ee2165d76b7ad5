import Provenance.Document.Basic
import Provenance.Proofs.Except
import Provenance.Proofs.Lines
import Provenance.Proofs.PositionMap.Composition
import Provenance.Proofs.PositionMap.Lookup

/-!
# What writing records

Every mapping of a document is recorded by a fragment, at the place where the fragment was written.

* `Fragment.mappings` : the mappings that a fragment leaves at a place;
  `Document.map_append` : writing a fragment adds exactly these;
* `Edit`, `Document.run` : the ways to write on a document and a sequence of them;
* `Document.recorded` : the mappings that a sequence adds; `Document.run_induction` : what stays
  true of them and the lines. `Document.map_run` says that they are added, and
  `Document.cursor_le_of_mem_recorded` that none of them lies before the place where it began.
-/

namespace Provenance

/-! ## One fragment -/

namespace Mapping

/-- The mapping for the start of line `i` of a fragment without a map. -/
def lineStart (source : Text) (start anchor : Position) (i : Nat) : Mapping where
  generated := ⟨start.line + i, if i = 0 then start.column else 0⟩
  origin := some ⟨source, anchor.line + i, if i = 0 then anchor.column else 0⟩
  name := none

end Mapping

/-- The mappings that a fragment leaves when it is written at `start`. -/
def Fragment.mappings (f : Fragment) (start : Position) : List Mapping :=
  match f.map with
  | some embedded => embedded.mappings.map (Mapping.carried embedded f.source start)
  | none =>
    (List.range (Lines.ofText f.content).count).map (Mapping.lineStart f.source start f.anchor)

theorem Document.map_append (d : Document) (f : Fragment) :
    (d.append f).map =
      d.map.map fun m => { m with mappings := m.mappings ++ f.mappings d.cursor } := by
  unfold Document.append Document.write Fragment.mappings
  cases f.map <;> rfl

/-! ## Edits -/

/-- A way to write on a document. -/
inductive Edit where
  | write (t : Text)
  | writeLine (t : Text)
  | append (f : Fragment)
  | writeFragment (source content : Text) (anchor : Position)
  | writeFile (source content : Text)

namespace Edit

def fragment? : Edit → Option Fragment
  | write _ => none
  | writeLine _ => none
  | append f => some f
  | writeFragment source content anchor => some (Fragment.ofContent source content anchor)
  | writeFile source content => some (Fragment.ofContent source content ⟨1, 0⟩)

def lines : Edit → Lines
  | write t => Lines.ofText t
  | writeLine t => Lines.ofText (t ++ ['\n'])
  | append f => Lines.ofText f.content
  | writeFragment source content anchor =>
    Lines.ofText (Fragment.ofContent source content anchor).content
  | writeFile source content =>
    Lines.ofText (Fragment.ofContent source content ⟨1, 0⟩).content ++ Lines.ofText ['\n']

def written : List Edit → Lines
  | [] => Lines.empty
  | e :: edits => e.lines ++ written edits

/-- The mappings that are recorded when it is written at `start`. -/
def mappings (e : Edit) (start : Position) : List Mapping :=
  match e.fragment? with
  | some f => f.mappings start
  | none => []

theorem mappings_of_fragment? {e : Edit} {f : Fragment} (h : e.fragment? = some f)
    (start : Position) : e.mappings start = f.mappings start := by
  rw [mappings, h]

end Edit

namespace Document

def apply (d : Document) : Edit → Document
  | .write t => d.write t
  | .writeLine t => d.writeLine t
  | .append f => d.append f
  | .writeFragment source content anchor => d.writeFragment source content anchor
  | .writeFile source content => d.writeFile source content

def run (d : Document) (edits : List Edit) : Document := edits.foldl apply d

theorem apply_lines (d : Document) (e : Edit) : (d.apply e).lines = d.lines ++ e.lines := by
  cases e with
  | writeFile source content => exact Lines.append_assoc _ _ _
  | _ => rfl

theorem apply_name (d : Document) (e : Edit) : (d.apply e).name = d.name := by cases e <;> rfl

theorem apply_base (d : Document) (e : Edit) : (d.apply e).base = d.base := by cases e <;> rfl

theorem apply_map (d : Document) (e : Edit) : (d.apply e).map =
    d.map.map fun m => { m with mappings := m.mappings ++ e.mappings d.cursor } := by
  have hkeep : d.map = d.map.map fun m => { m with mappings := m.mappings ++ [] } := by
    simp
  cases e with
  | write t => exact hkeep
  | writeLine t => exact hkeep
  | append f => exact d.map_append f
  | writeFragment source content anchor => exact d.map_append _
  | writeFile source content => exact d.map_append _

theorem cursor_apply (d : Document) (e : Edit) :
    (d.apply e).cursor = e.lines.endPosition.within d.cursor := by
  have h := Lines.endPosition_append d.lines e.lines
  rw [← apply_lines] at h
  exact h

theorem cursor_le_cursor_apply (d : Document) (e : Edit) : d.cursor ≤ (d.apply e).cursor := by
  rw [cursor_apply]
  exact Position.le_within e.lines.one_le_line_endPosition

theorem cursor_apply_writeFile (d : Document) (source content : Text) :
    (d.apply (.writeFile source content)).cursor =
      ⟨((Lines.ofText (Fragment.ofContent source content ⟨1, 0⟩).content).endPosition.within
        d.cursor).line + 1, 0⟩ := by
  have hend : (Lines.ofText ['\n']).endPosition = ⟨2, 0⟩ := rfl
  have hone := Lines.one_le_line_endPosition
    (Lines.ofText (Fragment.ofContent source content ⟨1, 0⟩).content)
  rw [cursor_apply, Edit.lines, Lines.endPosition_append, hend]
  generalize (Lines.ofText (Fragment.ofContent source content ⟨1, 0⟩).content).endPosition = p at *
  have hline : p.line + 2 - 1 ≠ 1 := by omega
  simp only [Position.within, if_neg hline, if_neg (show ¬2 = 1 by decide)]
  congr 1
  omega

/-! ## Runs -/

theorem run_nil (d : Document) : d.run [] = d := rfl

theorem run_cons (d : Document) (e : Edit) (edits : List Edit) :
    d.run (e :: edits) = (d.apply e).run edits := rfl

theorem run_append (d : Document) (before after : List Edit) :
    d.run (before ++ after) = (d.run before).run after := List.foldl_append

theorem run_name (d : Document) (edits : List Edit) : (d.run edits).name = d.name := by
  induction edits generalizing d with
  | nil => rfl
  | cons e edits ih => rw [run_cons, ih, apply_name]

theorem run_base (d : Document) (edits : List Edit) : (d.run edits).base = d.base := by
  induction edits generalizing d with
  | nil => rfl
  | cons e edits ih => rw [run_cons, ih, apply_base]

theorem run_lines (d : Document) (edits : List Edit) :
    (d.run edits).lines = d.lines ++ Edit.written edits := by
  induction edits generalizing d with
  | nil => exact (Lines.append_empty _).symm
  | cons e edits ih => rw [run_cons, ih, apply_lines, Edit.written, Lines.append_assoc]

theorem cursor_le_cursor_run (d : Document) (edits : List Edit) :
    d.cursor ≤ (d.run edits).cursor := by
  induction edits generalizing d with
  | nil => exact Position.le_refl _
  | cons e edits ih => exact Position.le_trans (d.cursor_le_cursor_apply e) (ih _)

def recorded (d : Document) : List Edit → List Mapping
  | [] => []
  | e :: edits => e.mappings d.cursor ++ (d.apply e).recorded edits

/-- **A run records the mappings of its fragments**, each at the place where it is written. -/
theorem map_run (d : Document) (edits : List Edit) : (d.run edits).map =
    d.map.map fun m => { m with mappings := m.mappings ++ d.recorded edits } := by
  induction edits generalizing d with
  | nil => simp [run, recorded]
  | cons e edits ih =>
    rw [run_cons, ih, apply_map, recorded, Option.map_map]
    congr 1
    funext m
    simp only [Function.comp_apply, List.append_assoc]

theorem exists_positionMap_run {d : Document} (h : d.isTracked = true) (edits : List Edit) :
    ∃ m, (d.run edits).positionMap = some m := by
  obtain ⟨m, hm⟩ := Option.isSome_iff_exists.1 h
  rw [positionMap, map_run, hm]
  exact ⟨_, rfl⟩

/-- What every edit of a kind keeps true of the lines and of the mappings so far, a run of such edits
keeps true. -/
theorem run_induction {P : Lines → List Mapping → Prop} {Kind : Edit → Prop}
    (hstep : ∀ (d : Document) ms e, Kind e → P d.lines ms →
      P (d.apply e).lines (ms ++ e.mappings d.cursor))
    {d : Document} {ms : List Mapping} {edits : List Edit} (hedits : ∀ e ∈ edits, Kind e)
    (h : P d.lines ms) : P (d.run edits).lines (ms ++ d.recorded edits) := by
  induction edits generalizing d ms with
  | nil =>
    rw [recorded, List.append_nil]
    exact h
  | cons e edits ih =>
    rw [List.forall_mem_cons] at hedits
    rw [run_cons, recorded, ← List.append_assoc]
    exact ih hedits.2 (hstep d ms e hedits.1 h)

theorem create_eq_ok {files : FileStore} {name : Text} {o : DocumentOptions} {d : Document}
    (h : create files name o = .ok d) :
    ∃ base, o.previous.mapM (PreviousMap.resolve files name) = .ok base ∧
      d = ⟨name, Lines.empty, if o.tracked || base.isSome then
        some (PositionMap.empty name o.sourceRoot) else none, base, o.comment⟩ := by
  obtain ⟨base, hbase, hd⟩ := Except.bind_eq_ok.1 h
  exact ⟨base, hbase, (Except.ok.inj hd).symm⟩

/-- A document is tracked if this was chosen, or if it was begun with the map of its input. -/
theorem isTracked_of_create {files : FileStore} {name : Text} {o : DocumentOptions} {d : Document}
    (h : create files name o = .ok d) : d.isTracked = (o.tracked || o.previous.isSome) := by
  obtain ⟨base, hbase, rfl⟩ := create_eq_ok h
  have hsome : base.isSome = o.previous.isSome := by
    cases hprevious : o.previous with
    | none =>
      rw [hprevious] at hbase
      rw [← Except.ok.inj hbase]
      rfl
    | some previous =>
      rw [hprevious] at hbase
      obtain ⟨m, -, rfl⟩ := Except.map_eq_ok.1 hbase
      rfl
  rw [isTracked, hsome]
  cases o.tracked || o.previous.isSome <;> rfl

theorem positionMap_run_of_create {files : FileStore} {name : Text} {o : DocumentOptions}
    {d : Document} (hcreate : create files name o = .ok d) (htracked : o.tracked = true)
    (hprevious : o.previous = none) (edits : List Edit) :
    (d.run edits).positionMap = some ⟨some name, o.sourceRoot, d.recorded edits⟩ := by
  rw [create, hprevious] at hcreate
  obtain rfl := Except.ok.inj hcreate
  rw [positionMap, run_base, map_run, htracked]
  rfl

theorem recorded_append (d : Document) (before after : List Edit) :
    d.recorded (before ++ after) = d.recorded before ++ (d.run before).recorded after := by
  induction before generalizing d with
  | nil => rfl
  | cons e before ih =>
    rw [List.cons_append, recorded, ih, recorded, run_cons, List.append_assoc]

theorem mem_recorded_iff {d : Document} {edits : List Edit} {b : Mapping} :
    b ∈ d.recorded edits ↔ ∃ before e after, edits = before ++ e :: after ∧
      b ∈ e.mappings (d.run before).cursor := by
  constructor
  · intro hb
    induction edits generalizing d with
    | nil => simp [recorded] at hb
    | cons e edits ih =>
      rcases List.mem_append.1 hb with hb | hb
      · exact ⟨[], e, edits, rfl, hb⟩
      · obtain ⟨before, x, after, rfl, hx⟩ := ih hb
        exact ⟨e :: before, x, after, rfl, hx⟩
  · rintro ⟨before, e, after, rfl, hb⟩
    rw [recorded_append, recorded]
    exact List.mem_append_right _ (List.mem_append_left _ hb)

end Document

/-! ## Where mappings are recorded -/

/-- The map of a fragment, if there is one, counts lines from 1. -/
def Fragment.FromOne (f : Fragment) : Prop :=
  ∀ m, f.map = some m → ∀ b ∈ m.mappings, 1 ≤ b.generated.line

theorem Mapping.generated_lineStart (source : Text) (start anchor : Position) (i : Nat) :
    (lineStart source start anchor i).generated = (⟨i + 1, 0⟩ : Position).within start := by
  simp [lineStart, Position.within]

theorem Mapping.start_le_lineStart (source : Text) (start anchor : Position) (i : Nat) :
    start ≤ (lineStart source start anchor i).generated := by
  rw [generated_lineStart]
  exact Position.le_within (Nat.le_add_left 1 i)

theorem Fragment.start_le_of_mem_mappings {f : Fragment} (hf : f.FromOne) {start : Position}
    {b : Mapping} (hb : b ∈ f.mappings start) : start ≤ b.generated := by
  unfold Fragment.mappings at hb
  split at hb
  · next embedded hm =>
    obtain ⟨a, ha, rfl⟩ := List.mem_map.1 hb
    exact Position.le_within (hf embedded hm a ha)
  · obtain ⟨i, -, rfl⟩ := List.mem_map.1 hb
    exact Mapping.start_le_lineStart _ _ _ _

/-- The line starts of a fragment without a map do not lie behind its end. -/
theorem Fragment.le_end_of_mem_mappings {f : Fragment} (hf : f.map = none) {start : Position}
    {b : Mapping} (hb : b ∈ f.mappings start) :
    b.generated ≤ (Lines.ofText f.content).endPosition.within start := by
  rw [Fragment.mappings, hf] at hb
  obtain ⟨i, hi, rfl⟩ := List.mem_map.1 hb
  have hi : i < (Lines.ofText f.content).endPosition.line := List.mem_range.1 hi
  generalize (Lines.ofText f.content).endPosition = p at hi ⊢
  simp only [Mapping.lineStart, Position.le_iff, Position.within]
  split <;> split <;> omega

namespace Document

theorem cursor_le_of_mem_recorded {d : Document} {edits : List Edit}
    (h : ∀ e ∈ edits, ∀ f, e.fragment? = some f → f.FromOne) {b : Mapping}
    (hb : b ∈ d.recorded edits) : d.cursor ≤ b.generated := by
  obtain ⟨before, e, after, rfl, he⟩ := mem_recorded_iff.1 hb
  refine Position.le_trans (d.cursor_le_cursor_run before) ?_
  cases hf : e.fragment? with
  | none => simp [Edit.mappings, hf] at he
  | some f =>
    rw [Edit.mappings_of_fragment? hf] at he
    exact Fragment.start_le_of_mem_mappings (h e (by simp) f hf) he

end Document

end Provenance
