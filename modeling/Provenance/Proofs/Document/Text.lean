import Provenance.Proofs.Document.Rendering

/-!
# The text of a document

A document says what was written on it, piece by piece. Its options have no part in this.

* `Edit.pieces` : the texts that an edit writes; `Document.content_run` : what a run of edits adds
  to a document, its line ends unified piece by piece;
* `Document.isClean_run`, `Document.cursor_eq_of_isClean` : the lines hold no line ends, and so the
  cursor can be read off the text;
* `Document.content_run_of_create` : the text, the lines and the cursor of every document, and when
  a text may be written in two parts;
* `Document.content_run_eq_of_create` : the text does not depend on the options, and what rendering
  adds to it can be taken off again.
-/

namespace Provenance

/-! ## What edits write -/

namespace Edit

def pieces : Edit → List Text
  | write t => [t]
  | writeLine t => [t ++ ['\n']]
  | append f => [f.content]
  | writeFragment _ content _ => [(MapComment.decode content).content]
  | writeFile _ content => [(MapComment.decode content).content, ['\n']]

theorem toText_lines (e : Edit) : e.lines.toText = e.pieces.flatMap Text.unified := by
  cases e with
  | writeFile source content =>
    rw [lines, Lines.toText_append, Lines.toText_ofText, Lines.toText_ofText]
    rfl
  | _ => simp only [lines, pieces, Lines.toText_ofText, List.flatMap_singleton] <;> rfl

theorem isClean_lines (e : Edit) : e.lines.IsClean := by
  cases e with
  | writeFile source content => exact (Lines.isClean_ofText _).append (Lines.isClean_ofText _)
  | _ => exact Lines.isClean_ofText _

theorem toText_written (edits : List Edit) :
    (written edits).toText = (edits.flatMap pieces).flatMap Text.unified := by
  induction edits with
  | nil => rfl
  | cons e edits ih =>
    rw [written, Lines.toText_append, toText_lines, ih, List.flatMap_cons, List.flatMap_append]

theorem isClean_written (edits : List Edit) : (written edits).IsClean := by
  induction edits with
  | nil => exact Lines.isClean_empty
  | cons e edits ih => exact e.isClean_lines.append ih

end Edit

namespace Document

/-! ## Text and cursor -/

theorem content_run (d : Document) (edits : List Edit) :
    (d.run edits).content = d.content ++ (edits.flatMap Edit.pieces).flatMap Text.unified := by
  rw [content, run_lines, Lines.toText_append, Edit.toText_written]
  rfl

theorem isClean_run {d : Document} (h : d.lines.IsClean) (edits : List Edit) :
    (d.run edits).lines.IsClean := by
  rw [run_lines]
  exact h.append (Edit.isClean_written edits)

theorem cursor_eq_of_isClean {d : Document} (h : d.lines.IsClean) :
    d.cursor =
      ⟨1 + d.content.count '\n', (d.content.reverse.takeWhile (· != '\n')).length⟩ :=
  Lines.endPosition_eq_of_isClean h

/-- Writing two texts one after the other is writing them at once, unless a `\r\n` is cut between
them. -/
theorem content_run_write_write_iff (d : Document) (before after : List Edit) (a b : Text) :
    (d.run (before ++ .write (a ++ b) :: after)).content =
      (d.run (before ++ .write a :: .write b :: after)).content ↔ ¬Text.CutsLineEnd a b := by
  have hjoined : (d.run (before ++ .write (a ++ b) :: after)).content =
      (d.run before).content ++ Text.unified (a ++ b) ++ (Edit.written after).toText := by
    rw [run_append, run_cons, content, run_lines, apply_lines, Lines.toText_append,
      Lines.toText_append, Edit.lines, Lines.toText_ofText]
    rfl
  have hparts : (d.run (before ++ .write a :: .write b :: after)).content =
      (d.run before).content ++ (Text.unified a ++ Text.unified b) ++
        (Edit.written after).toText := by
    rw [run_append, run_cons, run_cons, content, run_lines, apply_lines, apply_lines,
      Lines.toText_append, Lines.toText_append, Lines.toText_append, Edit.lines, Edit.lines,
      Lines.toText_ofText, Lines.toText_ofText, List.append_assoc (d.run before).lines.toText]
    rfl
  rw [hjoined, hparts, List.append_cancel_right_eq, List.append_cancel_left_eq,
    Text.unified_append_iff]

theorem lines_of_create {files : FileStore} {name : Text} {o : DocumentOptions} {d : Document}
    (hcreate : create files name o = .ok d) : d.lines = Lines.empty := by
  obtain ⟨base, -, rfl⟩ := create_eq_ok hcreate
  rfl

/-- **The text of a document.** It is what was written on it, with the line ends of each piece
unified. No line holds a line end, and the cursor stands behind the last character. A text may be
written in two parts anywhere, unless a `\r\n` is cut between them; then the text is another one. -/
theorem content_run_of_create {files : FileStore} {name : Text} {o : DocumentOptions}
    {d : Document} (hcreate : create files name o = .ok d) :
    (∀ edits : List Edit,
      let text := (edits.flatMap Edit.pieces).flatMap Text.unified
      (d.run edits).content = text ∧
        (∀ t ∈ (d.run edits).lines.toList, '\r' ∉ t ∧ '\n' ∉ t) ∧
        (d.run edits).cursor =
          ⟨1 + text.count '\n', (text.reverse.takeWhile (· != '\n')).length⟩) ∧
      ∀ (before after : List Edit) (a b : Text),
        ((d.run (before ++ .write (a ++ b) :: after)).content =
            (d.run (before ++ .write a :: .write b :: after)).content ↔ ¬Text.CutsLineEnd a b) ∧
          (¬Text.CutsLineEnd a b → (d.run (before ++ .write (a ++ b) :: after)).cursor =
            (d.run (before ++ .write a :: .write b :: after)).cursor) := by
  have hlines := lines_of_create hcreate
  have hclean : ∀ edits, (d.run edits).lines.IsClean := by
    refine isClean_run ?_
    rw [hlines]
    exact Lines.isClean_empty
  refine ⟨fun edits => ?_, fun before after a b => ?_⟩
  · have hcontent := d.content_run edits
    rw [content, content, hlines] at hcontent
    have hcursor := cursor_eq_of_isClean (hclean edits)
    rw [content, hcontent] at hcursor
    exact ⟨hcontent, hclean edits, hcursor⟩
  · have hcontent := d.content_run_write_write_iff before after a b
    refine ⟨hcontent, fun hcut => ?_⟩
    rw [cursor_eq_of_isClean (hclean _), cursor_eq_of_isClean (hclean _), hcontent.2 hcut]

/-- A `\r` that the end of its line makes one line end with, one that the end of its file does not,
and a `\r\n` that is cut between two texts. -/
theorem content_run_of_create_cut :
    let d : Document := ⟨['o'], Lines.empty, some (.empty ['o'] none), none, .inline⟩
    let edits : List Edit :=
      [.write "a\r\nb".toList, .writeLine "c\r".toList, .writeFile ['f'] "\nd\r".toList]
    (d.run edits).content = "a\nbc\n\nd\n\n".toList ∧ (d.run edits).cursor = ⟨6, 0⟩ ∧
      (d.run [.write "a\r\nb".toList]).content ≠
        (d.run [.write "a\r".toList, .write "\nb".toList]).content := by
  intro d edits
  have hcreate : create ⟨[], []⟩ ['o'] { tracked := true } = .ok d := rfl
  obtain ⟨hrun, hparts⟩ := content_run_of_create hcreate
  obtain ⟨hcontent, -, hcursor⟩ := hrun edits
  have hcut := (hparts [] [] "a\r".toList "\nb".toList).1
  exact ⟨hcontent, hcursor, fun heq => hcut.1 heq (by decide)⟩

/-! ## The text and the options -/

theorem positionMap_run_eq_none {d : Document} (h : d.isTracked = false) (edits : List Edit) :
    (d.run edits).positionMap = none := by
  have hmap : d.map = none := by simpa [isTracked] using h
  rw [positionMap, map_run, hmap]
  rfl

/-- What rendering adds to a text can be taken off it again. -/
theorem strip_renderWith {d : Document} {m : PositionMap} (o : RenderOptions)
    (hm : d.positionMap = some m) :
    MapComment.strip (d.renderWith o) = Text.trimEnd d.content := by
  rw [renderWith_eq o hm, MapComment.strip_append_write]

/-- **Options have no part in the text.** Whatever two documents were begun with, the same edits
give them the same text and the same cursor. Where positions are not tracked, the text is what is
rendered; where they are, it is left, but for the blanks at its end, when the annotation is taken
off what is rendered in any style. -/
theorem content_run_eq_of_create {files files' : FileStore} {name name' : Text}
    {o o' : DocumentOptions} {d d' : Document} (hcreate : create files name o = .ok d)
    (hcreate' : create files' name' o' = .ok d') (edits : List Edit) :
    (d.run edits).content = (d'.run edits).content ∧
      (d.run edits).cursor = (d'.run edits).cursor ∧
      (d.isTracked = false → (d.run edits).render = (d.run edits).content) ∧
      (d.isTracked = true → ∀ style : CommentStyle,
        MapComment.strip ((d.run edits).renderWith ⟨style⟩) =
          Text.trimEnd (d.run edits).content) := by
  have hlines : (d.run edits).lines = (d'.run edits).lines := by
    rw [run_lines, run_lines, lines_of_create hcreate, lines_of_create hcreate']
  refine ⟨by rw [content, content, hlines], by rw [cursor, cursor, hlines], fun hd => ?_,
    fun hd style => ?_⟩
  · exact renderWith_eq_content _ (positionMap_run_eq_none hd edits)
  · obtain ⟨m, hm⟩ := exists_positionMap_run hd edits
    exact strip_renderWith ⟨style⟩ hm

/-- A document with a source root and the map of its input beside one that is not tracked. What is
written ends with an annotation whose payload is no map, and so it stays in the text. -/
theorem content_run_eq_of_create_traced :
    let base : PositionMap := ⟨none, none, [⟨⟨1, 0⟩, some ⟨['a'], 7, 1⟩, some ['x']⟩]⟩
    let d : Document :=
      ⟨['o'], Lines.empty, some (.empty ['o'] (some ['r'])), some base, .block⟩
    let d' : Document := ⟨['p'], Lines.empty, none, none, .inline⟩
    let t := "//# sourceMappingURL=data:application/json;base64,e30= \n".toList
    let edits : List Edit := [.write ['#'], .writeFile ['f'] ('x' :: '\r' :: t)]
    (d.run edits).content = (d'.run edits).content ∧ (d.run edits).cursor = (d'.run edits).cursor ∧
      (d'.run edits).render = (d'.run edits).content ∧
      MapComment.strip ((d.run edits).renderWith ⟨.inline⟩) =
        Text.trimEnd (d.run edits).content := by
  intro base d d' t edits
  let o : DocumentOptions := ⟨false, .block, some ['r'], some (.decoded base)⟩
  have hcreate : create ⟨[], []⟩ ['o'] o = .ok d := rfl
  have hcreate' : create ⟨[], []⟩ ['p'] {} = .ok d' := rfl
  obtain ⟨hcontent, hcursor, -, hstrip⟩ := content_run_eq_of_create hcreate hcreate' edits
  obtain ⟨-, -, hrender, -⟩ := content_run_eq_of_create hcreate' hcreate edits
  exact ⟨hcontent, hcursor, hrender rfl, hstrip rfl .inline⟩

end Document

end Provenance
