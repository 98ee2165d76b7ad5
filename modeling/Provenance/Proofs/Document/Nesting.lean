import Provenance.Proofs.Document.Recording
import Provenance.Proofs.Document.Rendering
import Provenance.Proofs.PositionMap.Reading

/-!
# Documents within documents

A document that is written line by line and file by file records mappings only for the starts of
lines, and so does one whose files are themselves rendered documents. A rendered document is
trimmed, but its map is not: its last mappings may lie behind its text, and what is written next
then stands on their lines.

* `Mapping.StartsLine` : a mapping for the start of a line, with an origin;
  `PositionMap.startsLine_of_ofText_toText` : these are read as such;
* `Bundled` : the documents that are written so, nested to any depth;
* `Document.originFor_generated_eq_none_iff` : when generated text is attributed to no source;
* `Document.originFor_generated_after_nested` : a generated line that is attributed to one.
-/

namespace Provenance

/-! ## Mappings for the starts of lines -/

/-- A mapping for the start of a line, with an origin. -/
structure Mapping.StartsLine (m : Mapping) : Prop where
  line : 1 ≤ m.generated.line
  column : m.generated.column = 0
  origin : m.origin ≠ none

namespace Totals

theorem advance_of_startsLine {t : Totals} (sources names : List Text) {m : Mapping}
    (ht : t.column = 0) (hm : m.StartsLine) :
    ∃ fields, fields ≠ [] ∧ (t.advance sources names m).1 = 0 :: fields ∧
      (t.advance sources names m).2.column = 0 := by
  have hsigned : Word.signed m.generated.column = 0 := by
    rw [hm.column]
    rfl
  obtain ⟨column, hcolumn, h⟩ := advance_cases t sources names m
  rw [hsigned] at hcolumn
  have hfirst : column - t.column = 0 := by omega
  rcases h with ⟨ho, -⟩ | ⟨o, -, source, originLine, originColumn, -, -, -, h⟩
  · exact absurd ho hm.origin
  · rcases h with ⟨-, h⟩ | ⟨n, -, name, -, h⟩ <;> rw [h, hfirst] <;>
      exact ⟨_, List.cons_ne_nil _ _, rfl, hcolumn⟩

end Totals

namespace PositionMap

variable {sources names : List Text}

/-- The segment of a mapping for the start of a line: no column, and more fields. -/
def PieceStartsLine (piece : Text) : Prop :=
  ∃ fields, fields ≠ [] ∧ piece = (0 :: fields).flatMap Vlq.encode

theorem pieceStartsLine_of_mem_writtenPieces {ms : List Mapping} {t : Totals} (ht : t.column = 0)
    (hms : ∀ m ∈ ms, m.StartsLine) {piece : Nat × Text}
    (h : piece ∈ writtenPieces sources names t ms) : PieceStartsLine piece.2 := by
  induction ms generalizing t with
  | nil => simp [writtenPieces] at h
  | cons m ms ih =>
    rw [List.forall_mem_cons] at hms
    obtain ⟨fields, hne, hfields, hnext⟩ := Totals.advance_of_startsLine sources names
      (Totals.enter_column_eq_zero ht m.generated.line) hms.1
    rw [writtenPieces, List.mem_cons] at h
    rcases h with rfl | h
    · exact ⟨fields, hne, by rw [hfields]⟩
    · exact ih hnext hms.2 h

theorem startsLine_of_mem_readSegments {pieces : List (Nat × Text)} {index : Nat} {t : Totals}
    {ms : List Mapping} (ht : t.column = 0) (hline : 1 ≤ t.line)
    (hpieces : ∀ piece ∈ pieces, PieceStartsLine piece.2)
    (h : readSegments sources names index t pieces = .ok ms) {m : Mapping} (hm : m ∈ ms) :
    m.StartsLine := by
  induction pieces generalizing index t ms with
  | nil =>
    obtain rfl := Except.ok.inj h
    simp at hm
  | cons piece rest ih =>
    rw [List.forall_mem_cons] at hpieces
    obtain ⟨e, next, more, hread, hrest, rfl⟩ := readSegments_cons_eq_ok h
    have henter := t.le_enter_line piece.1
    have hzero := Totals.enter_column_eq_zero ht piece.1
    obtain ⟨column, others, hd, hel, hec, heo, hnl, hnc⟩ := Totals.read_eq_ok hread
    obtain ⟨fields, hne, hpiece⟩ := hpieces.1
    rw [hpiece] at hd
    obtain ⟨rfl, rfl⟩ := List.cons.inj (Vlq.eq_of_decode_flatMap_encode hd)
    rcases List.mem_cons.1 hm with rfl | hm
    · exact ⟨by omega, by omega, fun ho => hne (heo.1 ho)⟩
    · exact ih (by omega) (by omega) hpieces.2 hrest hm

/-- Mappings for the starts of lines are read as such, whatever their numbers are. -/
theorem startsLine_of_ofText_toText {m m' : PositionMap} (hm : ∀ e ∈ m.mappings, e.StartsLine)
    (h : ofText m.toText = .ok m') {e : Mapping} (he : e ∈ m'.mappings) : e.StartsLine := by
  have hordered : ∀ e ∈ m.ordered, e.StartsLine := fun e he => hm e (m.mem_ordered.1 he)
  have hpieces : pieces m.toSourceMap.mappings = _ :=
    piecesFrom_segments m.toSourceMap.sources m.toSourceMap.names {} false m.pairwise_line_ordered
      fun e he => (hordered e he).line
  obtain ⟨s, hs, hread⟩ := ofText_eq_ok h
  rw [toText, m.parse?_render_toSourceMap] at hs
  obtain rfl := Option.some.inj hs
  replace hread := readSegments_of_ofSourceMap hread
  rw [hpieces] at hread
  exact startsLine_of_mem_readSegments rfl (Nat.le_refl 1)
    (fun piece => pieceStartsLine_of_mem_writtenPieces rfl hordered) hread he

/-- Where all mappings start lines, a line without a mapping is attributed to no source. -/
theorem originFor_eq_none_iff_of_startsLine {m : PositionMap} (h : ∀ e ∈ m.mappings, e.StartsLine)
    (line column : Nat) :
    m.originFor ⟨line, column⟩ = none ↔ ∀ e ∈ m.mappings, e.generated.line ≠ line := by
  have hmapping : m.originFor ⟨line, column⟩ = none ↔ m.mappingFor ⟨line, column⟩ = none := by
    rw [originFor, Option.map_eq_none_iff, Option.bind_eq_none_iff]
    refine ⟨fun hall => ?_, fun hnone e he => by simp [hnone] at he⟩
    rw [Option.eq_none_iff_forall_ne_some]
    intro e he
    exact (h e (mappingFor_eq_some_iff.1 he).mem).origin (hall e he)
  rw [hmapping, mappingFor_eq_none_iff]
  refine ⟨fun hall e he hline => hall e he hline ?_,
    fun hall e he hline => absurd hline (hall e he)⟩
  rw [Position.le_iff, (h e he).column]
  exact Or.inr ⟨hline, Nat.zero_le _⟩

end PositionMap

/-! ## Whole lines -/

namespace Lines

theorem closed_append_ne_nil {a b : Lines} (h : b.closed ≠ [] ∧ b.current = []) :
    (a ++ b).closed ≠ [] ∧ (a ++ b).current = [] := by
  obtain ⟨closed, current⟩ := b
  cases closed with
  | nil => exact absurd rfl h.1
  | cons first more => exact ⟨by simp, h.2⟩

theorem closed_ofText_concat (t : Text) :
    (ofText (t ++ ['\n'])).closed ≠ [] ∧ (ofText (t ++ ['\n'])).current = [] := by
  fun_induction ofText t with
  | case1 => exact ⟨List.cons_ne_nil _ _, rfl⟩
  | case2 rest ih => exact closed_append_ne_nil ih
  | case3 rest hrest ih =>
    cases rest with
    | nil => exact ⟨List.cons_ne_nil _ _, rfl⟩
    | cons c rest =>
      have hc : c ≠ '\n' := fun h => hrest rest (by rw [h])
      rw [List.cons_append, List.cons_append, ofText]
      · exact closed_append_ne_nil ih
      · intro more hmore
        exact hc (List.cons.inj hmore).1
  | case4 rest ih => exact closed_append_ne_nil ih
  | case5 c rest _ hcr hlf ih =>
    rw [List.cons_append, ofText]
    · exact closed_append_ne_nil ih
    · exact fun _ hc _ => hcr hc
    · exact hcr
    · exact hlf

end Lines

namespace Edit

/-- An edit that ends its line and records mappings only for the starts of lines. -/
def IsWhole : Edit → Prop
  | writeLine _ => True
  | writeFile _ content => ∀ m, (MapComment.decode content).map = some m →
    ∀ e ∈ m.mappings, e.StartsLine
  | _ => False

theorem closed_lines_of_isWhole {e : Edit} (h : e.IsWhole) :
    e.lines.closed ≠ [] ∧ e.lines.current = [] := by
  cases e with
  | writeLine t => exact Lines.closed_ofText_concat t
  | writeFile source content => exact Lines.closed_append_ne_nil ⟨List.cons_ne_nil _ _, rfl⟩
  | _ => exact absurd h id

theorem fromOne_of_isWhole {e : Edit} (h : e.IsWhole) {f : Fragment} (hf : e.fragment? = some f) :
    f.FromOne := by
  cases e with
  | writeLine t => simp [fragment?] at hf
  | writeFile source content =>
    obtain rfl := Option.some.inj hf
    exact fun m hm b hb => (h m hm b hb).line
  | _ => exact absurd h id

theorem startsLine_of_mem_mappings {e : Edit} (h : e.IsWhole) {start : Position}
    (hline : 1 ≤ start.line) (hcolumn : start.column = 0) {b : Mapping}
    (hb : b ∈ e.mappings start) : b.StartsLine := by
  cases e with
  | writeLine t => simp [mappings, fragment?] at hb
  | writeFile source content =>
    rw [mappings_of_fragment? rfl, Fragment.mappings] at hb
    split at hb
    · next embedded hm =>
      obtain ⟨a, ha, rfl⟩ := List.mem_map.1 hb
      have hstarts := h embedded hm a ha
      refine ⟨?_, ?_, ?_⟩
      · exact Nat.le_trans hline (Position.line_le_of_le (Position.le_within hstarts.line))
      · simp [Mapping.carried, Position.within, hstarts.column, hcolumn]
      · simp [Mapping.carried, hstarts.origin]
    · obtain ⟨i, -, rfl⟩ := List.mem_map.1 hb
      refine ⟨?_, ?_, ?_⟩
      · exact Nat.le_trans hline (Nat.le_add_right _ i)
      · simp [Mapping.lineStart, hcolumn]
      · simp [Mapping.lineStart]
  | _ => exact absurd h id

end Edit

namespace Document

variable {d : Document} {edits : List Edit}

theorem cursor_apply_of_isWhole {e : Edit} (h : e.IsWhole) :
    d.cursor.line < (d.apply e).cursor.line ∧ (d.apply e).cursor.column = 0 := by
  obtain ⟨hclosed, hcurrent⟩ := Edit.closed_lines_of_isWhole h
  have hpos := List.length_pos_iff.2 hclosed
  have hline : e.lines.endPosition.line ≠ 1 := by
    show e.lines.closed.length + 1 ≠ 1
    omega
  rw [cursor_apply, Position.within, if_neg hline]
  refine ⟨?_, by rw [Lines.endPosition, hcurrent]; rfl⟩
  have hone := e.lines.one_le_line_endPosition
  simp only
  omega

theorem cursor_run_of_isWhole (hcolumn : d.cursor.column = 0) (h : ∀ e ∈ edits, e.IsWhole) :
    (d.run edits).cursor.column = 0 := by
  induction edits generalizing d with
  | nil => exact hcolumn
  | cons e edits ih =>
    rw [List.forall_mem_cons] at h
    exact ih (cursor_apply_of_isWhole h.1).2 h.2

theorem startsLine_of_mem_recorded (hcolumn : d.cursor.column = 0) (h : ∀ e ∈ edits, e.IsWhole)
    {b : Mapping} (hb : b ∈ d.recorded edits) : b.StartsLine := by
  obtain ⟨before, e, after, rfl, he⟩ := mem_recorded_iff.1 hb
  exact Edit.startsLine_of_mem_mappings (h e (by simp)) (Nat.le_add_left 1 _)
    (cursor_run_of_isWhole hcolumn fun x hx => h x (by simp [hx])) he

/-- A mapping of whole edits that does not lie before the cursor was carried over from the map of a
fragment. -/
theorem exists_nested_of_mem_recorded (h : ∀ e ∈ edits, e.IsWhole) {b : Mapping}
    (hb : b ∈ d.recorded edits) (hline : (d.run edits).cursor.line ≤ b.generated.line) :
    ∃ front source content back nested, edits = front ++ .writeFile source content :: back ∧
      (MapComment.decode content).map = some nested ∧ ∃ e ∈ nested.mappings,
        b.generated.line = (d.run front).cursor.line + e.generated.line - 1 := by
  obtain ⟨front, e, back, rfl, he⟩ := mem_recorded_iff.1 hb
  have hwhole := h e (by simp)
  cases e with
  | writeLine t => simp [Edit.mappings, Edit.fragment?] at he
  | writeFile source content =>
    cases hnested : (MapComment.decode content).map with
    | some nested =>
      rw [Edit.mappings_of_fragment? rfl, Fragment.mappings] at he
      simp only [Fragment.ofContent, hnested] at he
      obtain ⟨a, ha, rfl⟩ := List.mem_map.1 he
      exact ⟨front, source, content, back, nested, rfl, hnested, a, ha, rfl⟩
    | none =>
      -- The last mapping of such a file is for its last line, and the file ends one line below it.
      rw [Edit.mappings_of_fragment? rfl] at he
      have hend := Position.line_le_of_le (Fragment.le_end_of_mem_mappings hnested he)
      have hcursor := Position.line_le_of_le
        (((d.run front).apply (.writeFile source content)).cursor_le_cursor_run back)
      rw [run_append, run_cons] at hline
      rw [cursor_apply_writeFile] at hcursor
      simp only at hcursor
      omega
  | _ => exact absurd hwhole id

theorem cursor_le_of_mem_recorded_of_isWhole (h : ∀ e ∈ edits, e.IsWhole) {b : Mapping}
    (hb : b ∈ d.recorded edits) : d.cursor.line ≤ b.generated.line :=
  Position.line_le_of_le
    (cursor_le_of_mem_recorded (fun e he _ hf => Edit.fromOne_of_isWhole (h e he) hf) hb)

end Document

/-! ## Bundles -/

/-- The documents that are written line by line and file by file, where a file is a source without
a map or another such document, rendered. -/
inductive Bundled : Document → Prop where
  | create {files : FileStore} {name : Text} {o : DocumentOptions} {d : Document}
    (hcreate : Document.create files name o = .ok d) (htracked : o.tracked = true)
    (hprevious : o.previous = none) : Bundled d
  | writeLine {d : Document} (t : Text) (hd : Bundled d) : Bundled (d.writeLine t)
  | writePlain {d : Document} (source : Text) {content : Text} (hd : Bundled d)
    (hcontent : (MapComment.decode content).map = none) : Bundled (d.writeFile source content)
  | writeNested {d inner : Document} (source : Text) (hd : Bundled d) (hinner : Bundled inner) :
    Bundled (d.writeFile source inner.render)

theorem Bundled.empty (name : Text) :
    Bundled ⟨name, Lines.empty, some (.empty name none), none, .inline⟩ :=
  have hcreate : Document.create ⟨[], []⟩ name { tracked := true } = .ok _ := rfl
  .create hcreate rfl rfl

def Edit.Bundles : Edit → Prop
  | writeLine _ => True
  | writeFile _ content =>
    (MapComment.decode content).map = none ∨ ∃ inner, Bundled inner ∧ inner.render = content
  | _ => False

/-- What holds of every such document: its mappings start lines, and so does its cursor. -/
structure Document.Aligned (d : Document) : Prop where
  base : d.base = none
  column : d.cursor.column = 0
  map : ∃ m, d.map = some m ∧ ∀ e ∈ m.mappings, e.StartsLine

namespace Document

variable {d inner : Document}

theorem Aligned.apply (hd : d.Aligned) {e : Edit} (he : e.IsWhole) : (d.apply e).Aligned := by
  obtain ⟨m, hm, hstarts⟩ := hd.map
  refine ⟨by rw [apply_base, hd.base], (cursor_apply_of_isWhole he).2, _,
    by rw [apply_map, hm]; rfl, ?_⟩
  intro b hb
  rcases List.mem_append.1 hb with hb | hb
  · exact hstarts b hb
  · exact Edit.startsLine_of_mem_mappings he (Nat.le_add_left 1 _) hd.column hb

theorem Aligned.isWhole_writeFile (hd : inner.Aligned) (source : Text) :
    (Edit.writeFile source inner.render).IsWhole := by
  intro m' hm' e he
  obtain ⟨m, hm, hstarts⟩ := hd.map
  have hmap : inner.positionMap = some m := by
    rw [positionMap, hm, hd.base]
    rfl
  exact PositionMap.startsLine_of_ofText_toText hstarts
    (ofText_toText_of_decode_renderWith _ hmap hm') he

theorem aligned_create {files : FileStore} {name : Text} {o : DocumentOptions}
    (hcreate : create files name o = .ok d) (htracked : o.tracked = true)
    (hprevious : o.previous = none) : d.Aligned := by
  rw [create, hprevious] at hcreate
  obtain rfl := Except.ok.inj hcreate
  rw [htracked]
  exact ⟨rfl, rfl, PositionMap.empty name o.sourceRoot, rfl, by simp [PositionMap.empty]⟩

end Document

theorem Edit.isWhole_writeFile_of_map_eq_none {content : Text}
    (h : (MapComment.decode content).map = none) (source : Text) :
    (Edit.writeFile source content).IsWhole := by
  intro m hm
  rw [h] at hm
  simp at hm

/-- The induction over all levels of nesting. -/
theorem Bundled.aligned {d : Document} (h : Bundled d) : d.Aligned := by
  induction h with
  | create hcreate htracked hprevious => exact Document.aligned_create hcreate htracked hprevious
  | writeLine t _ ih => exact ih.apply (e := .writeLine t) trivial
  | writePlain source _ hcontent ih =>
    exact ih.apply (Edit.isWhole_writeFile_of_map_eq_none hcontent source)
  | writeNested source _ _ ih ihinner => exact ih.apply (ihinner.isWhole_writeFile source)

theorem Edit.Bundles.isWhole {e : Edit} (h : e.Bundles) : e.IsWhole := by
  cases e with
  | writeLine t => trivial
  | writeFile source content =>
    rcases h with h | ⟨inner, hinner, rfl⟩
    · exact isWhole_writeFile_of_map_eq_none h source
    · exact hinner.aligned.isWhole_writeFile source
  | _ => exact absurd h id

namespace Document

section Generated

variable {d : Document} {before after : List Edit} {t : Text} {m : PositionMap} {line : Nat}

theorem originFor_eq_none_iff_of_isWhole (hcolumn : d.cursor.column = 0)
    (hwhole : ∀ e ∈ before ++ .writeLine t :: after, e.IsWhole)
    (hm : m.mappings = d.recorded (before ++ .writeLine t :: after))
    (hfirst : (d.run before).cursor.line ≤ line)
    (hlast : line < ((d.run before).writeLine t).cursor.line) (column : Nat) :
    m.originFor ⟨line, column⟩ = none ↔
      ∀ front source content back nested, before = front ++ .writeFile source content :: back →
        (MapComment.decode content).map = some nested →
          ∀ e ∈ nested.mappings, (d.run front).cursor.line + e.generated.line - 1 ≠ line := by
  have hstarts : ∀ b ∈ m.mappings, b.StartsLine := by
    rw [hm]
    exact fun b => startsLine_of_mem_recorded hcolumn hwhole
  rw [PositionMap.originFor_eq_none_iff_of_startsLine hstarts, hm]
  constructor
  · rintro hall front source content back nested rfl hnested e he
    apply hall (e.carried nested source (d.run front).cursor)
    refine mem_recorded_iff.2 ⟨front, _, back ++ .writeLine t :: after, List.append_assoc _ _ _, ?_⟩
    rw [Edit.mappings_of_fragment? rfl, Fragment.mappings]
    simp only [Fragment.ofContent, hnested]
    exact List.mem_map_of_mem he
  · intro hall b hb
    simp only [recorded_append, recorded, List.mem_append] at hb
    -- Recorded before the line, with it, or behind it: only the first can lie on it.
    rcases hb with hb | hb | hb
    · rintro rfl
      obtain ⟨front, source, content, back, nested, hsplit, hnested, e, he, hline⟩ :=
        exists_nested_of_mem_recorded (fun e he => hwhole e (by simp [he])) hb hfirst
      exact hall front source content back nested hsplit hnested e he hline.symm
    · simp [Edit.mappings, Edit.fragment?] at hb
    · have hle := cursor_le_of_mem_recorded_of_isWhole (fun e he => hwhole e (by simp [he])) hb
      have hlast : line < ((d.run before).apply (.writeLine t)).cursor.line := hlast
      omega

/-- A nested document whose map stays within its text has no part in the lines behind it. -/
theorem originFor_eq_none_of_within (hcolumn : d.cursor.column = 0)
    (hwhole : ∀ e ∈ before ++ .writeLine t :: after, e.IsWhole)
    (hm : m.mappings = d.recorded (before ++ .writeLine t :: after))
    (hfirst : (d.run before).cursor.line ≤ line)
    (hlast : line < ((d.run before).writeLine t).cursor.line)
    (hwithin : ∀ source content nested, .writeFile source content ∈ before →
      (MapComment.decode content).map = some nested → ∀ e ∈ nested.mappings,
        e.generated.line ≤ (Lines.ofText (MapComment.decode content).content).count)
    (column : Nat) : m.originFor ⟨line, column⟩ = none := by
  refine (originFor_eq_none_iff_of_isWhole hcolumn hwhole hm hfirst hlast column).2 ?_
  rintro front source content back nested rfl hnested e he
  have hline := hwithin source content nested (by simp) hnested e he
  have hnext := Position.line_le_of_le
    (((d.run front).apply (.writeFile source content)).cursor_le_cursor_run back)
  rw [run_append, run_cons] at hfirst
  rw [cursor_apply_writeFile] at hnext
  simp only [Position.within, Lines.endPosition, Fragment.ofContent] at hnext
  omega

end Generated

/-- **When generated text is attributed to no source.** Of a document that is written line by line
and file by file, nested to any depth, a generated line is attributed to no source exactly if none
of the documents written into it before has a mapping that lies behind its own text, on that
line. -/
theorem originFor_generated_eq_none_iff {files : FileStore} {name : Text} {o : DocumentOptions}
    {d : Document} {before after : List Edit} {t : Text} {m : PositionMap} {line : Nat}
    (hcreate : create files name o = .ok d) (htracked : o.tracked = true)
    (hprevious : o.previous = none) (hedits : ∀ e ∈ before ++ .writeLine t :: after, e.Bundles)
    (hm : (d.run (before ++ .writeLine t :: after)).positionMap = some m)
    (hfirst : (d.run before).cursor.line ≤ line)
    (hlast : line < ((d.run before).writeLine t).cursor.line) (column : Nat) :
    m.originFor ⟨line, column⟩ = none ↔
      ∀ front source content back nested, before = front ++ .writeFile source content :: back →
        (MapComment.decode content).map = some nested →
          ∀ e ∈ nested.mappings, (d.run front).cursor.line + e.generated.line - 1 ≠ line := by
  have hrecorded := positionMap_run_of_create hcreate htracked hprevious
    (before ++ .writeLine t :: after)
  obtain rfl := Option.some.inj (hm.symm.trans hrecorded)
  exact originFor_eq_none_iff_of_isWhole (aligned_create hcreate htracked hprevious).column
    (fun e he => (hedits e he).isWhole) rfl hfirst hlast column

/-- A generated line behind a document that has no blank line at its end. -/
theorem originFor_generated_behind_nested :
    let inner := Document.writeFile ⟨['i'], Lines.empty, some (.empty ['i'] none), none, .inline⟩
      ['a'] ['x']
    let d : Document := ⟨['o'], Lines.empty, some (.empty ['o'] none), none, .inline⟩
    ∃ m, (d.run [.writeFile ['i'] inner.render, .writeLine ['g']]).positionMap = some m ∧
      m.originFor ⟨2, 0⟩ = none := by
  intro inner d
  have hcreate : create ⟨[], []⟩ ['o'] { tracked := true } = .ok d := rfl
  have hmap : inner.positionMap =
      some ⟨some ['i'], none, [⟨⟨1, 0⟩, some ⟨['a'], 1, 0⟩, none⟩]⟩ := rfl
  have hdecode : MapComment.decode inner.render =
      ⟨['x'], some ⟨some ['i'], none, [⟨⟨1, 0⟩, some ⟨['a'], 1, 0⟩, none⟩]⟩⟩ := by
    rw [render, decode_renderWith ⟨inner.comment⟩ hmap
      (PositionMap.ofText_toText_of_pairwise (by decide) (by decide))]
    rfl
  have hinner : Bundled inner :=
    .writePlain ['a'] (.empty ['i']) rfl
  have hedits : ∀ e ∈ [Edit.writeFile ['i'] inner.render] ++ [.writeLine ['g']], e.Bundles := by
    simp only [List.singleton_append, List.forall_mem_cons]
    exact ⟨Or.inr ⟨inner, hinner, rfl⟩, trivial, by simp⟩
  have hcursor : (d.run [.writeFile ['i'] inner.render]).cursor = ⟨2, 0⟩ := by
    rw [run_cons, run_nil, cursor_apply_writeFile, Fragment.ofContent, hdecode]
    rfl
  have hline : (d.run [.writeFile ['i'] inner.render]).cursor.line = 2 := by rw [hcursor]
  have hlast := (cursor_apply_of_isWhole (d := d.run [.writeFile ['i'] inner.render])
    (e := .writeLine ['g']) trivial).1
  rw [hline] at hlast
  have hm := positionMap_run_of_create hcreate rfl rfl
    ([.writeFile ['i'] inner.render] ++ [.writeLine ['g']])
  refine ⟨_, hm, (originFor_generated_eq_none_iff hcreate rfl rfl hedits hm
    (Nat.le_of_eq hline) hlast 0).2 ?_⟩
  intro front source content back nested hsplit hnested e he
  cases front with
  | nil =>
    obtain ⟨-, rfl⟩ := Edit.writeFile.inj (List.cons.inj hsplit).1
    rw [hdecode] at hnested
    obtain rfl := Option.some.inj hnested
    obtain rfl := List.mem_singleton.1 he
    decide
  | cons x front => simp at hsplit

/-- A generated line behind a document whose text, when it is trimmed, loses a line that has a
mapping. -/
theorem originFor_generated_after_nested :
    let inner := Document.writeFile ⟨['i'], Lines.empty, some (.empty ['i'] none), none, .inline⟩
      ['a'] ['x', '\n']
    let before := Document.writeFile ⟨['o'], Lines.empty, some (.empty ['o'] none), none, .inline⟩
      ['i'] inner.render
    Bundled before ∧ before.cursor = ⟨2, 0⟩ ∧ ∃ m, (before.writeLine ['g']).positionMap = some m ∧
      m.originFor ⟨2, 0⟩ = some ⟨['a'], 2, 0⟩ := by
  intro inner before
  have hinner : inner.positionMap = some ⟨some ['i'], none,
      [⟨⟨1, 0⟩, some ⟨['a'], 1, 0⟩, none⟩, ⟨⟨2, 0⟩, some ⟨['a'], 2, 0⟩, none⟩]⟩ := rfl
  have hfragment : Fragment.ofContent ['i'] inner.render ⟨1, 0⟩ = ⟨['i'], ['x'], ⟨1, 0⟩,
      some ⟨some ['i'], none,
        [⟨⟨1, 0⟩, some ⟨['a'], 1, 0⟩, none⟩, ⟨⟨2, 0⟩, some ⟨['a'], 2, 0⟩, none⟩]⟩⟩ := by
    rw [Fragment.ofContent, render, decode_renderWith ⟨inner.comment⟩ hinner
      (PositionMap.ofText_toText_of_pairwise (by decide) (by decide))]
    rfl
  have hbundled : Bundled before :=
    .writeNested ['i'] (.empty ['o']) (.writePlain ['a'] (.empty ['i']) rfl)
  have hbefore : before = Document.write (Document.append _ _) ['\n'] :=
    congrArg (fun f => Document.write (Document.append _ f) ['\n']) hfragment
  refine ⟨hbundled, ?_, ?_⟩
  · rw [hbefore]
    rfl
  · rw [hbefore]
    refine ⟨_, rfl, PositionMap.originFor_of_governs rfl
      (e := ⟨⟨2, 0⟩, some ⟨['a'], 2, 0⟩, none⟩) ?_ rfl⟩
    exact ⟨rfl, Position.le_refl _, rfl, by decide⟩

end Document

end Provenance
