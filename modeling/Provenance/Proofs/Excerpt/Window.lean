import Mathlib.Data.List.Nodup
import Mathlib.Data.List.Sort
import Provenance.Excerpt

/-!
# The lines of an excerpt

* `Excerpt.mem_window_iff` : the lines that an excerpt shows are those of the text that are near
  enough, each with its number and without tabs; `Excerpt.numbers_eq_filter` : their numbers;
* `Excerpt.eq_of_mem_window` : there is no more than one line with a number;
* `Excerpt.Surrounds` : the lines of a text around one of them; `Excerpt.surrounds_window`;
* `Excerpt.locate_cases` : when there is an excerpt and when there is none;
  `Excerpt.locate_fails_or_surrounds` : why there is none, and what is shown otherwise.
-/

namespace Provenance.Excerpt

variable {text : Text} {line linesAround : Nat} {x y : ExcerptLine}

theorem mem_numbers_iff {count n : Nat} :
    n ∈ numbers count line linesAround ↔
      1 ≤ n ∧ line - linesAround ≤ n ∧ n ≤ line + linesAround ∧ n ≤ count := by
  simp only [numbers, List.mem_range'_1]
  omega

theorem mem_window_iff :
    x ∈ window text line linesAround ↔
      1 ≤ x.number ∧ line - linesAround ≤ x.number ∧ x.number ≤ line + linesAround ∧
        ∃ t, (Lines.ofText text).toList[x.number - 1]? = some t ∧ x.text = shown t := by
  rw [window, List.mem_pmap]
  constructor
  · rintro ⟨n, hn, rfl⟩
    obtain ⟨hone, hfirst, hlast, -⟩ := mem_numbers_iff.1 hn
    exact ⟨hone, hfirst, hlast, _, List.getElem?_eq_getElem (pred_lt_of_mem_numbers hn), rfl⟩
  · obtain ⟨n, shownText⟩ := x
    rintro ⟨hone, hfirst, hlast, t, ht, rfl⟩
    obtain ⟨hlt, hget⟩ := List.getElem?_eq_some_iff.1 ht
    have hn := mem_numbers_iff.2 ⟨hone, hfirst, hlast, Nat.le_of_pred_lt hlt⟩
    exact ⟨n, hn, congrArg (ExcerptLine.mk n ∘ shown) hget⟩

theorem eq_of_mem_window (hx : x ∈ window text line linesAround)
    (hy : y ∈ window text line linesAround) (h : x.number = y.number) : x = y := by
  obtain ⟨-, -, -, t, ht, hxt⟩ := mem_window_iff.1 hx
  obtain ⟨-, -, -, s, hs, hys⟩ := mem_window_iff.1 hy
  rw [h, hs] at ht
  obtain rfl := Option.some.inj ht
  obtain ⟨number, text⟩ := x
  obtain rfl : number = y.number := h
  obtain rfl : text = y.text := hxt.trans hys.symm
  rfl

theorem mem_window_self {i : Nat} {t : Text} (ht : (Lines.ofText text).toList[i]? = some t)
    (linesAround : Nat) : ⟨i + 1, shown t⟩ ∈ window text (i + 1) linesAround :=
  mem_window_iff.2 ⟨Nat.le_add_left 1 i, Nat.sub_le _ _, Nat.le_add_right _ _, t, ht, rfl⟩

/-! ## The numbers of the lines -/

theorem map_number_window (text : Text) (line linesAround : Nat) :
    (window text line linesAround).map ExcerptLine.number =
      numbers (Lines.ofText text).count line linesAround := by
  rw [← Lines.length_toList, window, List.map_pmap, List.pmap_eq_map, List.map_id']

/-- The numbers that follow one another are those of the text that are near enough. -/
theorem numbers_eq_filter (count line linesAround : Nat) :
    numbers count line linesAround =
      (List.range' 1 count).filter fun n : Nat => ((n : Int) - line).natAbs ≤ linesAround := by
  apply List.Pairwise.eq_of_mem_iff (r := (· < ·))
  · exact List.pairwise_lt_range' 1
  · exact (List.pairwise_lt_range' 1).filter _
  · intro n
    rw [mem_numbers_iff, List.mem_filter, List.mem_range'_1, decide_eq_true_eq]
    omega

/-- The lines of a text that are no more than `linesAround` away from one of them. -/
structure Surrounds (text : Text) (line linesAround : Nat) (lines : List ExcerptLine) : Prop where
  /-- The numbers of the lines are those of the text that are near enough, each once and in
  order. -/
  numbers : lines.map ExcerptLine.number =
    (List.range' 1 (Lines.ofText text).count).filter fun n : Nat =>
      ((n : Int) - line).natAbs ≤ linesAround
  /-- They follow one another, from the first that is near enough to the last. -/
  follow : lines.map ExcerptLine.number =
    List.range' (max (line - linesAround) 1)
      (min (line + linesAround) (Lines.ofText text).count + 1 - max (line - linesAround) 1)
  /-- The line in question is one of them, and only once. -/
  once : (lines.map ExcerptLine.number).count line = 1
  /-- The text has each of the lines, and it is shown in as many columns, with a blank for every
  tab. -/
  texts : ∀ x ∈ lines, ∃ h : x.number - 1 < (Lines.ofText text).toList.length,
    x.text = shown (Lines.ofText text).toList[x.number - 1] ∧
      x.text.length = (Lines.ofText text).toList[x.number - 1].length

theorem surrounds_window (hline : 1 ≤ line) (hcount : line ≤ (Lines.ofText text).count)
    (linesAround : Nat) : Surrounds text line linesAround (window text line linesAround) where
  numbers := by rw [map_number_window, numbers_eq_filter]
  follow := map_number_window text line linesAround
  once := by
    rw [map_number_window]
    apply List.count_eq_one_of_mem (List.nodup_range' 1)
    exact mem_numbers_iff.2 ⟨hline, Nat.sub_le _ _, Nat.le_add_right _ _, hcount⟩
  texts := by
    intro x hx
    obtain ⟨-, -, -, t, ht, hxt⟩ := mem_window_iff.1 hx
    obtain ⟨h, rfl⟩ := List.getElem?_eq_some_iff.1 ht
    exact ⟨h, hxt, by rw [hxt, shown, List.length_map]⟩

/-! ## When there is an excerpt -/

variable {context : SourceContext} {files : FileStore} {document content : Text} {p : Position}

/-- There is an excerpt if the source of the position can be read and has its line. -/
theorem locate_eq_ok {found : Origin}
    (hfound : (Locator.ofContent document content).locate files.workdirPath p = found)
    (hread : context.read files found.source = .ok text) (hline : 1 ≤ found.line)
    (hcount : found.line ≤ (Lines.ofText text).count) (message : Text) (o : ExcerptOptions) :
    locate context files document content message p o =
      .ok ⟨message, found.source, found.line, found.column,
        window text found.line o.linesAround⟩ := by
  have hin : ¬(found.line = 0 ∨ (Lines.ofText text).count < found.line) := by omega
  rw [locate, hfound]
  simp only [hread]
  rw [if_neg hin]

/-- All that there is for a position: two kinds of errors, or an excerpt. -/
theorem locate_cases (context : SourceContext) {found : Origin}
    (hfound : (Locator.ofContent document content).locate files.workdirPath p = found)
    (message : Text) (o : ExcerptOptions) :
    (∃ fault, context.read files found.source = .error fault ∧
        locate context files document content message p o =
          .error (.sourceUnavailable found.source)) ∨
      ∃ text, context.read files found.source = .ok text ∧
        ((found.line = 0 ∨ (Lines.ofText text).count < found.line) ∧
            locate context files document content message p o =
              .error (.lineOutOfRange found.source found.line (Lines.ofText text).count) ∨
          (1 ≤ found.line ∧ found.line ≤ (Lines.ofText text).count) ∧
            locate context files document content message p o =
              .ok ⟨message, found.source, found.line, found.column,
                window text found.line o.linesAround⟩) := by
  cases hread : context.read files found.source with
  | error fault =>
    refine Or.inl ⟨fault, rfl, ?_⟩
    rw [locate, hfound]
    simp only [hread]
  | ok text =>
    refine Or.inr ⟨text, rfl, ?_⟩
    by_cases hout : found.line = 0 ∨ (Lines.ofText text).count < found.line
    · refine Or.inl ⟨hout, ?_⟩
      rw [locate, hfound]
      simp only [hread]
      rw [if_pos hout]
    · have hin : 1 ≤ found.line ∧ found.line ≤ (Lines.ofText text).count := by omega
      exact Or.inr ⟨hin, locate_eq_ok hfound hread hin.1 hin.2 message o⟩

theorem locate_eq_sourceUnavailable_iff {found : Origin}
    (hfound : (Locator.ofContent document content).locate files.workdirPath p = found)
    {message path : Text} {o : ExcerptOptions} :
    locate context files document content message p o = .error (.sourceUnavailable path) ↔
      path = found.source ∧ ∃ fault, context.read files found.source = .error fault := by
  rcases locate_cases context hfound message o with
    ⟨fault, hread, h⟩ | ⟨text, hread, ⟨-, h⟩ | ⟨-, h⟩⟩
  · simp [h, hread, eq_comm]
  · simp [h, hread]
  · simp [h, hread]

theorem locate_eq_lineOutOfRange_iff {found : Origin}
    (hfound : (Locator.ofContent document content).locate files.workdirPath p = found)
    {message path : Text} {o : ExcerptOptions} {lineCount : Nat} :
    locate context files document content message p o =
        .error (.lineOutOfRange path line lineCount) ↔
      path = found.source ∧ line = found.line ∧
        ∃ text, context.read files found.source = .ok text ∧
          lineCount = (Lines.ofText text).count ∧ (line = 0 ∨ lineCount < line) := by
  rcases locate_cases context hfound message o with
    ⟨fault, hread, h⟩ | ⟨text, hread, ⟨hout, h⟩ | ⟨hin, h⟩⟩
  · simp [h, hread]
  · rw [h, hread]
    constructor
    · rintro ⟨⟩
      exact ⟨rfl, rfl, text, rfl, rfl, hout⟩
    · rintro ⟨rfl, rfl, _, ⟨⟩, rfl, -⟩
      rfl
  · rw [h, hread]
    constructor
    · exact nofun
    · rintro ⟨-, rfl, _, ⟨⟩, rfl, hout⟩
      omega

/-- **What an excerpt shows.** There is none exactly if the source of the position cannot be read,
or it is read and does not have the line; the error tells the source, and the line and how many
there are. Otherwise there is one, and its lines are those of the source around the line. -/
theorem locate_fails_or_surrounds (context : SourceContext) (files : FileStore)
    (document content message : Text) (p : Position) (o : ExcerptOptions) :
    let found := (Locator.ofContent document content).locate files.workdirPath p
    let result := locate context files document content message p o
    (∀ path, result = .error (.sourceUnavailable path) ↔
      path = found.source ∧ ∃ fault, context.read files found.source = .error fault) ∧
    (∀ path line lineCount, result = .error (.lineOutOfRange path line lineCount) ↔
      path = found.source ∧ line = found.line ∧
        ∃ text, context.read files found.source = .ok text ∧
          lineCount = (Lines.ofText text).count ∧ (line = 0 ∨ lineCount < line)) ∧
    ∀ text, context.read files found.source = .ok text →
      ¬(found.line = 0 ∨ (Lines.ofText text).count < found.line) →
      ∃ e, result = .ok e ∧ e.message = message ∧ e.source = found.source ∧ e.line = found.line ∧
        e.column = found.column ∧ Surrounds text found.line o.linesAround e.lines := by
  intro found result
  have hfound : (Locator.ofContent document content).locate files.workdirPath p = found := rfl
  refine ⟨fun path => locate_eq_sourceUnavailable_iff hfound,
    fun path line lineCount => locate_eq_lineOutOfRange_iff hfound, fun text hread hin => ?_⟩
  have hline : 1 ≤ found.line ∧ found.line ≤ (Lines.ofText text).count := by omega
  exact ⟨_, locate_eq_ok hfound hread hline.1 hline.2 message o, rfl, rfl, rfl, rfl,
    surrounds_window hline.1 hline.2 o.linesAround⟩

/-- A line near the beginning of a source with three kinds of line ends. -/
theorem locate_fails_or_surrounds_clipped :
    let text := "a\tb\r\nc\n\t\td\re\n".toList
    let context : SourceContext := ⟨[⟨"/d".toList, some text⟩]⟩
    context.read ⟨[], []⟩ "/d".toList = .ok text ∧ ¬(2 = 0 ∨ (Lines.ofText text).count < 2) ∧
      ∃ e, locate context ⟨[], []⟩ "/d".toList ['q'] ['!'] ⟨2, 5⟩ ⟨2⟩ = .ok e ∧ e.line = 2 ∧
        e.lines.map ExcerptLine.number = [1, 2, 3, 4] ∧ Surrounds text 2 2 e.lines := by
  intro text context
  have hread : context.read ⟨[], []⟩ "/d".toList = .ok text := rfl
  have hin : ¬(2 = 0 ∨ (Lines.ofText text).count < 2) := by decide
  obtain ⟨-, -, hshown⟩ :=
    locate_fails_or_surrounds context ⟨[], []⟩ "/d".toList ['q'] ['!'] ⟨2, 5⟩ ⟨2⟩
  obtain ⟨e, he, -, -, hline, -, hlines⟩ := hshown text hread hin
  exact ⟨hread, hin, e, he, hline, hlines.numbers.trans (by decide), hlines⟩

end Provenance.Excerpt
