import Provenance.Excerpt

/-!
# The pointer below a line

A row of an excerpt begins with a gutter, which holds the number of the line: a blank, the number in
at least `ExcerptLine.numberWidth` columns, and a bar. The pointer takes each gutter for one of the
least width.

* `ExcerptLine.gutter` : what a row begins with; `ExcerptLine.row_eq`, `ExcerptLine.length_gutter`;
* `Excerpt.rows_eq` : a line's row, with the pointer directly below it if it is the one in question;
* `Excerpt.length_gutter_add_column` : how far the pointer stops in front of the column;
* `Excerpt.idxOf_pointer_eq_iff` : the pointer stands below the column if the number has no more
  than five digits; `Excerpt.idxOf_pointer_ne_six_digits` : one with six digits.
-/

namespace Provenance

namespace ExcerptLine

/-- What stands in front of the text in the row of a line. -/
def gutter (l : ExcerptLine) : Text :=
  let number := Text.ofNat l.number
  ' ' :: List.replicate (numberWidth - number.length) ' ' ++ number ++ [' ', '|']

theorem row_eq (l : ExcerptLine) : l.row = l.gutter ++ l.text := by
  simp only [row, gutter, List.cons_append, List.append_assoc]

/-- A number that is too wide for its column makes the gutter wider. -/
theorem length_gutter (l : ExcerptLine) :
    l.gutter.length = max numberWidth (Text.ofNat l.number).length + 3 := by
  simp only [gutter, List.cons_append, List.length_cons, List.length_append, List.length_replicate,
    List.length_nil]
  omega

/-- The character of the text in a column stands behind the gutter by as much. -/
theorem getElem?_row (l : ExcerptLine) (column : Nat) :
    l.row[l.gutter.length + column]? = l.text[column]? := by
  rw [row_eq, List.getElem?_append_right (Nat.le_add_right _ _), Nat.add_sub_cancel_left]

theorem length_number_le_iff (l : ExcerptLine) :
    (Text.ofNat l.number).length ≤ numberWidth ↔ l.number < 100000 := by
  have h := Nat.length_toDigits_le_iff (b := 10) (n := l.number) (k := numberWidth)
    (by decide) (by decide)
  rwa [show (10 : Nat) ^ numberWidth = 100000 from rfl] at h

end ExcerptLine

namespace Excerpt

variable {e : Excerpt} {l : ExcerptLine} {above below : List ExcerptLine}

/-! ## Rows -/

/-- The row of the line in question comes behind the rows of the lines above it, and the pointer
directly behind that row. -/
theorem rows_eq (hlines : e.lines = above ++ l :: below) (hl : l.number = e.line) :
    ∃ rest, e.rows = { e with lines := above }.rows ++ l.row :: pointer e.column :: rest := by
  simp only [rows, hlines, List.flatMap_append, List.flatMap_cons, if_pos hl, List.cons_append,
    List.nil_append]
  exact ⟨_, rfl⟩

/-! ## Columns -/

theorem idxOf_pointer (column : Nat) : (pointer column).idxOf '^' = column + 8 := by
  have hdash : '^' ∉ List.replicate (column + (ExcerptLine.numberWidth + 3)) '-' := by
    intro h
    exact absurd (List.eq_of_mem_replicate h) (by decide)
  rw [pointer, List.idxOf_append, if_neg hdash, List.length_replicate, List.idxOf_cons_self,
    Nat.zero_add, ExcerptLine.numberWidth]

/-- The pointer stops in front of a column by as much as the number is too wide. -/
theorem length_gutter_add_column (l : ExcerptLine) (column : Nat) :
    l.gutter.length + column = (pointer column).idxOf '^' +
      ((Text.ofNat l.number).length - ExcerptLine.numberWidth) := by
  rw [idxOf_pointer, l.length_gutter, ExcerptLine.numberWidth]
  omega

/-- **Where the pointer stands.** The pointer comes directly behind the row of the line in question.
Its end is below the character of the text that the column names if the number of the line has no
more than five digits. Each digit more moves the text to the right, but not the pointer. -/
theorem idxOf_pointer_eq_iff (hlines : e.lines = above ++ l :: below) (hl : l.number = e.line)
    (hcolumn : e.column < l.text.length) :
    (∃ rest, e.rows = { e with lines := above }.rows ++ l.row :: pointer e.column :: rest) ∧
      l.row = l.gutter ++ l.text ∧
      l.row[l.gutter.length + e.column]? = some l.text[e.column] ∧
      l.gutter.length + e.column =
        (pointer e.column).idxOf '^' + ((Text.ofNat l.number).length - 5) ∧
      ((pointer e.column).idxOf '^' = l.gutter.length + e.column ↔ l.number < 100000) := by
  have hgap := length_gutter_add_column l e.column
  refine ⟨rows_eq hlines hl, l.row_eq, ?_, hgap, ?_⟩
  · rw [l.getElem?_row, List.getElem?_eq_getElem hcolumn]
  · rw [hgap, ← l.length_number_le_iff]
    omega

/-- The widest number that leaves the gutter as it is, for a line that is shown twice. -/
theorem idxOf_pointer_eq_five_digits :
    let l : ExcerptLine := ⟨99999, "a^ é".toList⟩
    let e : Excerpt := ⟨['m'], ['s'], 99999, 3, [l, ⟨99998, []⟩, l]⟩
    l.number = e.line ∧ e.column < l.text.length ∧ l.row = " 99999 |a^ é".toList ∧
      (∃ rest, e.rows = { e with lines := [l, ⟨99998, []⟩] }.rows ++
        l.row :: pointer e.column :: rest) ∧
      l.row[l.gutter.length + e.column]? = some 'é' ∧
      (pointer e.column).idxOf '^' = l.gutter.length + e.column := by
  intro l e
  have hlines : e.lines = [l, ⟨99998, []⟩] ++ l :: [] := rfl
  have hcolumn : e.column < l.text.length := by decide
  obtain ⟨hrows, -, hplace, -, hbelow⟩ := idxOf_pointer_eq_iff hlines rfl hcolumn
  exact ⟨rfl, hcolumn, by decide, hrows, hplace, hbelow.2 (by decide)⟩

/-- A number with six digits: the pointer ends below the bar. -/
theorem idxOf_pointer_ne_six_digits :
    let l : ExcerptLine := ⟨100000, ['x']⟩
    let e : Excerpt := ⟨['m'], ['s'], 100000, 0, [l]⟩
    e.rows = ["m at s :".toList, " 100000 |x".toList, "--------^".toList] ∧
      l.number = e.line ∧ e.column < l.text.length ∧ (pointer e.column).idxOf '^' = 8 ∧
      " 100000 |x".toList[8]? = some '|' ∧ " 100000 |x".toList[9]? = some 'x' ∧
      (pointer e.column).idxOf '^' ≠ l.gutter.length + e.column := by
  decide

end Excerpt

end Provenance
