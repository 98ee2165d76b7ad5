import Provenance.Lines
import Provenance.PositionMap.Composition

/-!
# The lines of a text

* `Text.unified` : a text with one `\n` for every line end; `Lines.toText_ofText` : what is left of
  a text when it is cut into lines and joined again. `Text.unified_append_iff` : two texts are
  unified one by one unless a `\r\n` is cut between them;
* `Lines.IsClean` : no line holds a line end; `Lines.isClean_ofText` : this is so for the lines of a
  text, and writing keeps it so;
* `Lines.endPosition` : where a text ends; `Lines.endPosition_append` : moved to where another one
  ends, and `Lines.endPosition_eq_of_isClean` : read off the joined text;
* `Lines.exists_getElem?_append_left`, `Lines.getElem?_append_right` : the lines of a text, and
  those of the text that goes on in its last line;
* `Lines.Has` : the places in a text, which stay in it when it goes on.
-/

namespace Provenance

/-! ## Line ends -/

namespace Text

/-- A text with one `\n` for every `\r\n`, lone `\r` and `\n`. -/
def unified : Text → Text
  | [] => []
  | '\r' :: '\n' :: rest => '\n' :: unified rest
  | '\r' :: rest => '\n' :: unified rest
  | c :: rest => c :: unified rest

/-- A `\r\n` is cut in two between the texts. -/
def CutsLineEnd (a b : Text) : Prop := a.getLast? = some '\r' ∧ b.head? = some '\n'

instance (a b : Text) : Decidable (CutsLineEnd a b) := inferInstanceAs (Decidable (_ ∧ _))

theorem CutsLineEnd.cons {a b : Text} (h : CutsLineEnd a b) (c : Char) : CutsLineEnd (c :: a) b :=
  ⟨by rw [List.getLast?_cons, h.1, Option.getD_some], h.2⟩

theorem unified_return {t : Text} (h : t.head? ≠ some '\n') :
    unified ('\r' :: t) = '\n' :: unified t := by
  rw [unified]
  rintro rest rfl
  exact h rfl

theorem unified_cons {c : Char} (h : c ≠ '\r') (t : Text) : unified (c :: t) = c :: unified t := by
  rw [unified]
  · exact fun _ hc _ => h hc
  · exact h

theorem unified_append {a b : Text} (h : ¬CutsLineEnd a b) :
    unified (a ++ b) = unified a ++ unified b := by
  fun_induction unified a with
  | case1 => rfl
  | case2 rest ih =>
    rw [List.cons_append, List.cons_append, unified, ih fun hcut => h ((hcut.cons _).cons _),
      List.cons_append]
  | case3 rest hrest ih =>
    have hhead : (rest ++ b).head? ≠ some '\n' := by
      cases rest with
      | nil => exact fun hb => h ⟨rfl, hb⟩
      | cons c rest =>
        intro hc
        exact hrest rest (by rw [Option.some.inj hc])
    rw [List.cons_append, unified_return hhead, ih fun hcut => h (hcut.cons _), List.cons_append]
  | case4 c rest _ hc ih =>
    rw [List.cons_append, unified_cons hc, ih fun hcut => h (hcut.cons _), List.cons_append]

theorem length_unified_append {a b : Text} (h : CutsLineEnd a b) :
    (unified (a ++ b)).length + 1 = (unified a ++ unified b).length := by
  obtain ⟨front, rfl⟩ := List.getLast?_eq_some_iff.1 h.1
  obtain ⟨rest, rfl⟩ := List.head?_eq_some_iff.1 h.2
  have hfront : ∀ t, unified (front ++ '\r' :: t) = unified front ++ unified ('\r' :: t) :=
    fun t => unified_append fun hcut => by simp [CutsLineEnd] at hcut
  have hnext : unified ('\n' :: rest) = '\n' :: unified rest := unified_cons (by decide) rest
  rw [List.append_assoc, List.singleton_append, hfront, hfront, hnext]
  simp only [unified, List.length_append, List.length_cons, List.length_nil]
  omega

theorem unified_append_iff {a b : Text} :
    unified (a ++ b) = unified a ++ unified b ↔ ¬CutsLineEnd a b := by
  refine ⟨fun heq hcut => ?_, unified_append⟩
  have hlength := length_unified_append hcut
  rw [heq] at hlength
  omega

end Text

namespace Lines

theorem toText_ofText (t : Text) : (ofText t).toText = Text.unified t := by
  have hend : lineEnd.toText = ['\n'] := rfl
  fun_induction ofText t with
  | case1 => rfl
  | case2 rest ih => rw [toText_append, ih, hend, Text.unified, List.singleton_append]
  | case3 rest hrest ih =>
    rw [toText_append, ih, hend, Text.unified, List.singleton_append]
    exact hrest
  | case4 rest ih =>
    rw [toText_append, ih, hend, Text.unified_cons (by decide), List.singleton_append]
  | case5 c rest hcrlf hcr hlf ih =>
    rw [toText_append, ih, Text.unified_cons hcr]
    rfl

/-! ## Lines without line ends -/

/-- No line holds a character that ends lines. -/
def IsClean (l : Lines) : Prop := ∀ t ∈ l.toList, '\r' ∉ t ∧ '\n' ∉ t

theorem toList_append (a b : Lines) :
    (a ++ b).toList = a.closed ++ b.toList.modifyHead (a.current ++ ·) := by
  obtain ⟨closed, current⟩ := b
  cases closed <;> simp [toList]

theorem exists_toList_eq_cons (l : Lines) : ∃ first more, l.toList = first :: more := by
  cases h : l.toList with
  | nil => simp [toList] at h
  | cons first more => exact ⟨first, more, rfl⟩

theorem isClean_empty : empty.IsClean := by simp [IsClean, toList, empty]

theorem IsClean.append {a b : Lines} (ha : a.IsClean) (hb : b.IsClean) : (a ++ b).IsClean := by
  obtain ⟨first, more, hlist⟩ := b.exists_toList_eq_cons
  have hcurrent := ha a.current (by simp [toList])
  have hfirst := hb first (by simp [hlist])
  intro t ht
  rw [toList_append, hlist, List.modifyHead_cons, List.mem_append, List.mem_cons] at ht
  rcases ht with ht | rfl | ht
  · exact ha t (by simp [toList, ht])
  · simp only [List.mem_append, not_or]
    exact ⟨⟨hcurrent.1, hfirst.1⟩, hcurrent.2, hfirst.2⟩
  · exact hb t (by simp [hlist, ht])

theorem isClean_ofText (t : Text) : (ofText t).IsClean := by
  have hend : lineEnd.IsClean := by simp [IsClean, toList, lineEnd]
  fun_induction ofText t with
  | case1 => exact isClean_empty
  | case2 rest ih => exact hend.append ih
  | case3 rest hrest ih => exact hend.append ih
  | case4 rest ih => exact hend.append ih
  | case5 c rest hcrlf hcr hlf ih =>
    refine IsClean.append ?_ ih
    simp only [IsClean, toList, List.nil_append, List.mem_singleton, forall_eq]
    exact ⟨fun h => hcr h.symm, fun h => hlf h.symm⟩

/-! ## Where a text ends -/

def endPosition (l : Lines) : Position := ⟨l.count, l.current.length⟩

theorem one_le_line_endPosition (l : Lines) : 1 ≤ l.endPosition.line := Nat.le_add_left 1 _

theorem endPosition_line_add (l : Lines) (i : Nat) :
    l.endPosition.line + i - 1 = l.closed.length + i := by
  simp only [endPosition, count]
  omega

theorem length_closed_append (a b : Lines) :
    (a ++ b).closed.length = a.closed.length + b.closed.length := by
  have hcount := count_append a b
  unfold count at hcount
  omega

theorem endPosition_append (a b : Lines) :
    (a ++ b).endPosition = b.endPosition.within a.endPosition := by
  obtain ⟨closed, current⟩ := b
  cases closed with
  | nil => simp [endPosition, count, Position.within]
  | cons first more =>
    have hne : ¬(Lines.mk (first :: more) current).endPosition.line = 1 := by
      simp [endPosition, count]
    rw [Position.within, if_neg hne]
    simp only [append_mk_cons, endPosition, count, List.length_append, List.length_cons]
    congr 1
    omega

theorem infix_toText {l : Lines} {t : Text} (h : t ∈ l.toList) : t <:+: l.toText := by
  rcases List.mem_append.1 h with h | h
  · obtain ⟨front, rest, hsplit⟩ := List.append_of_mem h
    refine ⟨front.flatMap (· ++ ['\n']), '\n' :: rest.flatMap (· ++ ['\n']) ++ l.current, ?_⟩
    simp [toText, hsplit]
  · rw [List.mem_singleton.1 h]
    exact (List.suffix_append _ _).isInfix

theorem length_closed_le_length_toText (l : Lines) : l.closed.length ≤ l.toText.length := by
  obtain ⟨closed, current⟩ := l
  induction closed with
  | nil => exact Nat.zero_le _
  | cons t closed ih =>
    simp only [toText, List.flatMap_cons, List.length_append, List.length_cons,
      List.length_nil] at ih ⊢
    omega

theorem count_toText {l : Lines} (h : l.IsClean) : l.toText.count '\n' = l.closed.length := by
  obtain ⟨closed, current⟩ := l
  have hcount : ∀ t ∈ closed ++ [current], t.count '\n' = 0 := fun t ht =>
    List.count_eq_zero.2 (h t ht).2
  rw [List.forall_mem_append, List.forall_mem_singleton] at hcount
  simp only [toText, List.count_append, hcount.2, Nat.add_zero]
  induction closed with
  | nil => rfl
  | cons t closed ih =>
    have hrest := List.forall_mem_cons.1 hcount.1
    rw [List.flatMap_cons, List.count_append, List.count_append, hrest.1,
      ih (fun s hs => h s (List.mem_cons_of_mem _ hs)) ⟨hrest.2, hcount.2⟩, List.length_cons,
      List.count_singleton_self]
    omega

theorem takeWhile_reverse_toText {l : Lines} (h : l.IsClean) :
    l.toText.reverse.takeWhile (· != '\n') = l.current.reverse := by
  have hrun : ∀ c ∈ l.current.reverse, (c != '\n') = true := by
    intro c hc
    have hcurrent := (h l.current (by simp [toList])).2
    rw [bne_iff_ne]
    rintro rfl
    exact hcurrent (List.mem_reverse.1 hc)
  rw [toText, List.reverse_append, List.takeWhile_append_of_pos hrun]
  rcases List.eq_nil_or_concat l.closed with hnil | ⟨front, t, hconcat⟩
  · rw [hnil]
    exact List.append_nil _
  · rw [hconcat]
    simp

/-- The end of a text, read off its line ends. -/
theorem endPosition_eq_of_isClean {l : Lines} (h : l.IsClean) :
    l.endPosition =
      ⟨1 + l.toText.count '\n', (l.toText.reverse.takeWhile (· != '\n')).length⟩ := by
  rw [count_toText h, takeWhile_reverse_toText h, List.length_reverse, Nat.add_comm]
  rfl

/-! ## One line -/

/-- A line of the text that goes on. Only the first has something in front of it. -/
theorem getElem?_append_right {a b : Lines} {i : Nat} {t : Text} (h : b.toList[i]? = some t) :
    (a ++ b).toList[a.closed.length + i]? = some ((if i = 0 then a.current else []) ++ t) := by
  rw [toList_append, List.getElem?_append_right (Nat.le_add_right _ _), Nat.add_sub_cancel_left,
    List.getElem?_modifyHead]
  cases i <;> simp [h]

theorem line_cases {l : Lines} {i : Nat} {t : Text} (h : l.toList[i]? = some t) :
    l.closed[i]? = some t ∨ i = l.closed.length ∧ l.current = t := by
  rw [toList, List.getElem?_append] at h
  split at h
  · exact Or.inl h
  · next hi =>
    cases hz : i - l.closed.length with
    | zero => exact Or.inr ⟨by omega, by simpa [hz] using h⟩
    | succ k => simp [hz] at h

theorem getElem?_append_closed {a : Lines} (b : Lines) {i : Nat} {t : Text}
    (h : a.closed[i]? = some t) : (a ++ b).toList[i]? = some t := by
  rw [toList_append, List.getElem?_append_left (List.getElem?_eq_some_iff.1 h).1, h]

theorem exists_getElem?_append_left {a : Lines} (b : Lines) {i : Nat} {t : Text}
    (h : a.toList[i]? = some t) : ∃ right, (a ++ b).toList[i]? = some (t ++ right) := by
  rcases line_cases h with hclosed | ⟨rfl, rfl⟩
  · exact ⟨[], by rw [getElem?_append_closed b hclosed, List.append_nil]⟩
  · obtain ⟨first, more, hb⟩ := b.exists_toList_eq_cons
    refine ⟨first, ?_⟩
    have hfirst : b.toList[0]? = some first := by rw [hb, List.getElem?_cons_zero]
    exact getElem?_append_right hfirst

theorem lt_endPosition {l : Lines} {i k : Nat} {t : Text} (h : l.toList[i]? = some t)
    (hk : k < t.length) : (⟨i + 1, k⟩ : Position) < l.endPosition := by
  rw [Position.lt_iff]
  rcases line_cases h with hclosed | ⟨rfl, rfl⟩
  · exact Or.inl (Nat.succ_lt_succ (List.getElem?_eq_some_iff.1 hclosed).1)
  · exact Or.inr ⟨rfl, hk⟩

/-! ## Places in a text -/

/-- The place lies in the text: on one of its lines, and not behind the end of that. -/
structure Has (l : Lines) (p : Position) : Prop where
  line : 1 ≤ p.line
  column : ∃ t, l.toList[p.line - 1]? = some t ∧ p.column ≤ t.length

theorem Has.append {l : Lines} {p : Position} (h : l.Has p) (b : Lines) : (l ++ b).Has p := by
  obtain ⟨t, ht, hcolumn⟩ := h.column
  obtain ⟨right, hright⟩ := exists_getElem?_append_left b ht
  refine ⟨h.line, _, hright, ?_⟩
  rw [List.length_append]
  omega

theorem Has.le_endPosition {l : Lines} {p : Position} (h : l.Has p) : p ≤ l.endPosition := by
  obtain ⟨t, ht, hcolumn⟩ := h.column
  have hline := h.line
  rw [Position.le_iff]
  rcases line_cases ht with hclosed | ⟨hlast, rfl⟩
  · have hlt := (List.getElem?_eq_some_iff.1 hclosed).1
    exact Or.inl (show p.line < l.closed.length + 1 by omega)
  · exact Or.inr ⟨show p.line = l.closed.length + 1 by omega, hcolumn⟩

end Lines

end Provenance
