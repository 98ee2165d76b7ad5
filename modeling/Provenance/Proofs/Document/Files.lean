import Provenance.Proofs.Document.Attribution
import Provenance.Proofs.Excerpt.Window

/-!
# Documents made of whole files

A file is written on lines that it does not share with what follows. So a document of files and of
texts without a source needs no more mappings than it has lines, its map can be written whenever
its text is not too long, and a message about a place in the text of a file is shown with the line
of the file that stands there.

* `Edit.IsFileOrText` : the edits that such a document is made with;
* `Lines.Bounds` : lines that bound the mappings and their origins; `Document.bounds_apply` : an
  edit keeps it so, and `Document.bounds_run` : a run of them does;
* `Document.writable_positionMap` : the map can be written if the text is not too long;
* `Document.exists_locate_of_writeFile` : the line of the file for each place that is not in front
  of the start of a line;
* `Document.locate_render_of_writeFile` : what the excerpt for such a place shows.
-/

namespace Provenance

/-- A text without a source is written, or a whole file without a map of its own. -/
def Edit.IsFileOrText : Edit → Prop
  | .write _ => True
  | .writeLine _ => True
  | .writeFile _ content => (MapComment.decode content).map = none
  | _ => False

namespace Edit

instance : DecidablePred IsFileOrText
  | write _ => inferInstanceAs (Decidable True)
  | writeLine _ => inferInstanceAs (Decidable True)
  | append _ => inferInstanceAs (Decidable False)
  | writeFragment _ _ _ => inferInstanceAs (Decidable False)
  | writeFile _ content => inferInstanceAs (Decidable ((MapComment.decode content).map = none))

theorem IsFileOrText.isPlain {e : Edit} (h : e.IsFileOrText) : e.IsPlain := by
  cases e with
  | write t => simp [IsPlain, fragment?]
  | writeLine t => simp [IsPlain, fragment?]
  | append f => exact h.elim
  | writeFragment source content anchor => exact h.elim
  | writeFile source content =>
    rintro f ⟨⟩
    exact h

theorem fragment?_writeFile {content : Text} (h : (MapComment.decode content).map = none)
    (source : Text) :
    (writeFile source content).fragment? = some ⟨source, content, ⟨1, 0⟩, none⟩ := by
  rw [fragment?, Fragment.ofContent_of_map_eq_none h]

theorem closed_lines_writeFile {content : Text} (h : (MapComment.decode content).map = none)
    (source : Text) : (writeFile source content).lines.closed = (Lines.ofText content).toList := by
  have hend : Lines.ofText ['\n'] = ⟨[[]], []⟩ := rfl
  rw [lines, Fragment.ofContent_of_map_eq_none h, hend, Lines.append_mk_cons, List.append_nil]
  rfl

end Edit

/-! ## Sizes -/

namespace Lines

/-- The mappings are no more than the lines that have ended, and each points to the start of a line
that is no further down in its source. -/
structure Bounds (l : Lines) (ms : List Mapping) : Prop where
  count : ms.length ≤ l.closed.length
  origin : ∀ b ∈ ms, ∀ o ∈ b.origin, 1 ≤ o.line ∧ o.line ≤ l.closed.length ∧ o.column = 0

theorem bounds_nil (l : Lines) : l.Bounds [] := ⟨Nat.zero_le _, by simp⟩

theorem Bounds.append {a b : Lines} {ms added : List Mapping} (ha : a.Bounds ms)
    (hb : b.Bounds added) : (a ++ b).Bounds (ms ++ added) := by
  have hcount := length_closed_append a b
  refine ⟨?_, fun x hx o ho => ?_⟩
  · rw [List.length_append, hcount]
    exact Nat.add_le_add ha.count hb.count
  · rw [hcount]
    rcases List.mem_append.1 hx with hx | hx
    · obtain ⟨hline, hle, hcolumn⟩ := ha.origin x hx o ho
      exact ⟨hline, Nat.le_add_right_of_le hle, hcolumn⟩
    · obtain ⟨hline, hle, hcolumn⟩ := hb.origin x hx o ho
      exact ⟨hline, Nat.le_add_left_of_le hle, hcolumn⟩

end Lines

/-- What is written bounds the mappings that it leaves. -/
theorem Edit.IsFileOrText.bounds_lines {e : Edit} (h : e.IsFileOrText) (start : Position) :
    e.lines.Bounds (e.mappings start) := by
  cases e with
  | write t => exact Lines.bounds_nil _
  | writeLine t => exact Lines.bounds_nil _
  | append f => exact h.elim
  | writeFragment source content anchor => exact h.elim
  | writeFile source content =>
    have hcount : (Edit.writeFile source content).lines.closed.length =
        (Lines.ofText content).count := by
      rw [closed_lines_writeFile h, Lines.length_toList]
    rw [mappings_of_fragment? (fragment?_writeFile h source), Fragment.mappings_of_map_eq_none rfl]
    refine ⟨Nat.le_of_eq ?_, fun b hb o ho => ?_⟩
    · rw [List.length_map, List.length_range, hcount]
    · obtain ⟨i, hi, rfl⟩ := List.mem_map.1 hb
      obtain rfl := Option.some.inj ho
      rw [hcount, Nat.add_comm 1 i]
      exact ⟨Nat.le_add_left 1 i, List.mem_range.1 hi, ite_self 0⟩

namespace Document

variable {d : Document} {ms : List Mapping}

theorem bounds_apply (h : d.lines.Bounds ms) {e : Edit} (he : e.IsFileOrText) :
    (d.apply e).lines.Bounds (ms ++ e.mappings d.cursor) := by
  rw [apply_lines]
  exact h.append (he.bounds_lines d.cursor)

theorem bounds_run (h : d.lines.Bounds ms) {edits : List Edit}
    (hedits : ∀ e ∈ edits, e.IsFileOrText) :
    (d.run edits).lines.Bounds (ms ++ d.recorded edits) :=
  run_induction (fun _ _ _ he h => bounds_apply h he) hedits h

/-- Mappings that lie in a text, and that it bounds, can be written if it is not too long. -/
theorem writable_of_length_content_lt {m : PositionMap} (hcarries : d.lines.Carries m.mappings)
    (hbounds : d.lines.Bounds m.mappings) (hlength : d.content.length < Word.quarter) :
    m.Writable := by
  have hclosed := Nat.lt_of_le_of_lt d.lines.length_closed_le_length_toText hlength
  refine ⟨fun b hb => ?_, Nat.lt_of_le_of_lt hbounds.count hclosed⟩
  obtain ⟨hline, t, ht, hcolumn⟩ := hcarries.placed b hb
  have hwidth := (Lines.infix_toText (List.mem_of_getElem? ht)).length_le
  refine ⟨hline, Nat.lt_of_le_of_lt (Nat.le_trans hcolumn hwidth) hlength, fun o ho => ?_⟩
  obtain ⟨hone, hle, hzero⟩ := hbounds.origin b hb o ho
  exact ⟨hone, Nat.lt_of_le_of_lt hle hclosed, by rw [hzero]; decide⟩

/-- The map of a document of files and texts can be written if the text is not too long. -/
theorem writable_positionMap {edits : List Edit} (hedits : ∀ e ∈ edits, e.IsFileOrText)
    (hlength : (d.run edits).content.length < Word.quarter) (file sourceRoot : Option Text) :
    PositionMap.Writable ⟨file, sourceRoot, d.recorded edits⟩ :=
  writable_of_length_content_lt (d := d.run edits)
    (carries_run d.lines.carries_nil fun e he => (hedits e he).isPlain)
    (bounds_run d.lines.bounds_nil hedits) hlength

/-! ## The lines of a file -/

variable {before after : List Edit} {source content : Text} {i : Nat}

/-- A line of a file ends the line of the document that it stands on. -/
theorem getElem?_run_writeFile (d : Document) (hmap : (MapComment.decode content).map = none)
    (source : Text) (before after : List Edit) {t : Text}
    (ht : (Lines.ofText content).toList[i]? = some t) :
    (d.run (before ++ .writeFile source content :: after)).lines.toList[
        (d.run before).cursor.line + i - 1]? =
      some ((if i = 0 then (d.run before).lines.current else []) ++ t) := by
  rw [← Edit.closed_lines_writeFile hmap source] at ht
  have hline := Lines.getElem?_append_right (a := (d.run before).lines)
    (Lines.getElem?_append_closed (Edit.written after) ht)
  rw [run_append, run_cons, run_lines, apply_lines, Lines.append_assoc, ← hline,
    ← Lines.endPosition_line_add]
  rfl

/-- Whatever stands behind the start of a line of a file is located on that line of the file. -/
theorem exists_locate_of_writeFile
    (hedits : ∀ e ∈ before ++ .writeFile source content :: after, e.IsFileOrText)
    (hi : i < (Lines.ofText content).count) {c : Nat}
    (hc : (if i = 0 then (d.run before).cursor.column else 0) ≤ c) (file : Option Text)
    (document workdir : Text) :
    ∃ column, (Locator.mk document (some
        ⟨file, none, d.recorded (before ++ .writeFile source content :: after)⟩)).locate workdir
          ⟨(d.run before).cursor.line + i, c⟩ =
      ⟨Locator.absolute ⟨document, none⟩ workdir source, i + 1, column⟩ := by
  have hmap : (MapComment.decode content).map = none := hedits (.writeFile source content) (by simp)
  obtain ⟨k, rfl⟩ := Nat.exists_eq_add_of_le hc
  -- The file ends below all of its lines, so what follows is written below them.
  have hnext : (⟨i + 1, k⟩ : Position).within (d.run before).cursor <
      ((d.run before).apply (.writeFile source content)).cursor := by
    have hlast : ((Lines.ofText content).endPosition.within (d.run before).cursor).line =
        (d.run before).cursor.line + (Lines.ofText content).count - 1 := rfl
    rw [Position.within_succ, cursor_apply_writeFile, Fragment.ofContent_of_map_eq_none hmap, Position.lt_iff, hlast]
    exact Or.inl (show _ + i < _ + _ - 1 + 1 by omega)
  have hgoverns := d.governs_lineStart_of_lt (fun e he => (hedits e he).isPlain)
    (Edit.fragment?_writeFile hmap source) hi hnext
  rw [Position.within_succ] at hgoverns
  have horigin := PositionMap.originFor_of_governs
    (m := ⟨file, none, d.recorded (before ++ .writeFile source content :: after)⟩) rfl hgoverns rfl
  rw [Nat.add_comm i 1]
  exact ⟨_, Locator.locate_of_originFor horigin document workdir⟩

/-- **An excerpt shows the right line.** To a tracked document without a source root and a map of
its input, texts without a source and whole files without maps have been written. Line `i` of a
file stands in the document from a column on to the end of a line. For a place that is not in front
of this column, there is an excerpt. It is about line `i` of the file, numbered from 1, and shows
that line as it stands in the document. -/
theorem locate_render_of_writeFile {files disk : FileStore} {context : SourceContext}
    {name document : Text} {o : DocumentOptions} (hcreate : create files name o = .ok d)
    (htracked : o.tracked = true) (hroot : o.sourceRoot = none) (hprevious : o.previous = none)
    (hedits : ∀ e ∈ before ++ .writeFile source content :: after, e.IsFileOrText)
    (hlength : (d.run (before ++ .writeFile source content :: after)).content.length < Word.quarter)
    (hread : context.read disk (Locator.absolute ⟨document, none⟩ disk.workdirPath source) =
      .ok content) (hi : i < (Lines.ofText content).count) :
    let all := d.run (before ++ .writeFile source content :: after)
    let start := (d.run before).cursor
    let line := start.line + i
    let column := if i = 0 then start.column else 0
    ∃ t, all.lines.toList[line - 1]? = some t ∧ column ≤ t.length ∧
      (Lines.ofText content).toList[i]? = some (t.drop column) ∧
      ∀ c, column ≤ c → ∀ (message : Text) (options : ExcerptOptions),
        ∃ e, Excerpt.locate context disk document all.render message ⟨line, c⟩ options = .ok e ∧
          e.line = i + 1 ∧ ⟨i + 1, Excerpt.shown (t.drop column)⟩ ∈ e.lines ∧
          ∀ x ∈ e.lines, x.number = i + 1 → x.text = Excerpt.shown (t.drop column) := by
  intro all start line column
  have hmap : (MapComment.decode content).map = none := hedits (.writeFile source content) (by simp)
  obtain ⟨t, ht⟩ : ∃ t, (Lines.ofText content).toList[i]? = some t := by
    rw [← Lines.length_toList] at hi
    exact ⟨_, List.getElem?_eq_getElem hi⟩
  have hleft : (if i = 0 then (d.run before).lines.current else []).length = column := by
    simp only [column]
    split <;> rfl
  refine ⟨_, d.getElem?_run_writeFile hmap source before after ht, ?_, ?_, ?_⟩
  · rw [List.length_append, hleft]
    exact Nat.le_add_right _ _
  · rw [← hleft, List.drop_left, ht]
  · intro c hc message options
    rw [← hleft, List.drop_left]
    have hpositionMap := positionMap_run_of_create hcreate htracked hprevious
      (before ++ .writeFile source content :: after)
    rw [hroot] at hpositionMap
    obtain ⟨_, hlocate⟩ := exists_locate_of_writeFile hedits hi hc (some name) document
      disk.workdirPath
    rw [← locate_renderWith ⟨all.comment⟩ hpositionMap
      (writable_positionMap hedits hlength _ _)] at hlocate
    have hexcerpt := Excerpt.locate_eq_ok hlocate hread (Nat.le_add_left 1 i) hi message options
    refine ⟨_, hexcerpt, rfl, Excerpt.mem_window_self ht _, fun x hx hnumber => ?_⟩
    rw [Excerpt.eq_of_mem_window hx (Excerpt.mem_window_self ht _) hnumber]

/-- A file that begins within a line, and a place behind the end of that line. -/
theorem locate_render_of_writeFile_within_line :
    let d : Document := ⟨['o'], Lines.empty, some (.empty ['o'] none), none, .block⟩
    let content := "x\t\r\n\ty".toList
    let edits : List Edit := [.write ['#'], .writeFile ['b'] content, .writeFile ['c'] ['z']]
    let context : SourceContext := ⟨[⟨"/w/d/b".toList, some content⟩]⟩
    ∃ e, Excerpt.locate context ⟨[], [['w']]⟩ "d/o".toList (d.run edits).render ['!'] ⟨1, 9⟩ ⟨0⟩ =
        .ok e ∧
      e.line = 1 ∧ ⟨1, "x ".toList⟩ ∈ e.lines := by
  intro d content edits context
  have hcreate : create ⟨[], []⟩ ['o'] { tracked := true, comment := .block } = .ok d := rfl
  have hedits : ∀ e ∈ [Edit.write ['#']] ++ .writeFile ['b'] content :: [.writeFile ['c'] ['z']],
      e.IsFileOrText := by decide
  have hread : context.read ⟨[], [['w']]⟩ (Locator.absolute ⟨"d/o".toList, none⟩
      (FileStore.workdirPath ⟨[], [['w']]⟩) ['b']) = .ok content := rfl
  obtain ⟨t, ht, -, -, hshown⟩ := locate_render_of_writeFile (i := 0) hcreate rfl rfl rfl hedits
    (by decide) hread (by decide)
  have hline : (d.run edits).lines.toList[0]? = some "#x\t".toList := by decide
  obtain rfl := Option.some.inj (ht.symm.trans hline)
  obtain ⟨e, he, hnumber, hmem, -⟩ := hshown 9 (by decide) ['!'] ⟨0⟩
  exact ⟨e, he, hnumber, hmem⟩

end Document

end Provenance
