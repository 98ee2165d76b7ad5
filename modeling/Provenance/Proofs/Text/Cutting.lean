import Mathlib.Data.List.TakeWhile
import Provenance.Text.Basic

/-!
# Cutting and trimming texts

* `Text.takeWhile_eq_nil_of_head?`, `Text.dropWhile_eq_self_of_head?` : a run that does not begin;
  `Text.takeWhile_append_of_head?`, `Text.dropWhile_append_of_head?` : one that does not go on;
* `Text.eq_false_of_all_not` : a text none of whose characters satisfies a test;
* `Text.splitOn_append_of_not_mem` : cutting behind a word without separators;
* `Text.trimEnd_eq_self`, `Text.trimEnd_trimEnd`, `Text.trimEnd_append_blanks`,
  `Text.trimEnd_append`, `Text.head?_trimStart_append` : what trimming leaves;
  `Text.exists_eq_trimEnd_append` : what it takes.
-/

namespace Provenance.Text

theorem takeWhile_eq_nil_of_head? {p : Char → Bool} {t : Text} (h : ∀ c ∈ t.head?, p c = false) :
    t.takeWhile p = [] := by
  cases t with
  | nil => rfl
  | cons c t => rw [List.takeWhile_cons_of_neg (by simp [h c rfl])]

theorem dropWhile_eq_self_of_head? {p : Char → Bool} {t : Text} (h : ∀ c ∈ t.head?, p c = false) :
    t.dropWhile p = t := by
  cases t with
  | nil => rfl
  | cons c t => rw [List.dropWhile_cons_of_neg (by simp [h c rfl])]

theorem takeWhile_append_of_head? {p : Char → Bool} {u : Text} (h : ∀ c ∈ u.head?, p c = false)
    (t : Text) : (t ++ u).takeWhile p = t.takeWhile p := by
  induction t with
  | nil => exact takeWhile_eq_nil_of_head? h
  | cons c t ih => rw [List.cons_append, List.takeWhile_cons, List.takeWhile_cons, ih]

theorem dropWhile_append_of_head? {p : Char → Bool} {u : Text} (h : ∀ c ∈ u.head?, p c = false)
    (t : Text) : (t ++ u).dropWhile p = t.dropWhile p ++ u := by
  induction t with
  | nil => exact dropWhile_eq_self_of_head? h
  | cons c t ih =>
    rw [List.cons_append, List.dropWhile_cons, List.dropWhile_cons, ih]
    split <;> rfl

theorem eq_false_of_all_not {p : Char → Bool} {t : Text} (h : (t.all fun c => !p c) = true)
    {c : Char} (hc : c ∈ t) : p c = false := by
  simpa using List.all_eq_true.1 h c hc

theorem splitOn_append_of_not_mem {a : Char} {w : Text} (h : a ∉ w) (t : Text) :
    (w ++ t).splitOn a = (t.splitOn a).modifyHead (w ++ ·) := by
  induction w with
  | nil =>
    rw [List.nil_append]
    cases t.splitOn a <;> rfl
  | cons c w ih =>
    rw [List.mem_cons, not_or] at h
    rw [List.cons_append, List.splitOn_cons_eq_if_modifyHead, if_neg (by simpa using Ne.symm h.1),
      ih h.2]
    cases t.splitOn a <;> rfl

/-! ## Trimming -/

theorem trimEnd_eq_self {t : Text} (h : ∀ c ∈ t.getLast?, isBlank c = false) : trimEnd t = t := by
  rw [trimEnd, dropWhile_eq_self_of_head?, List.reverse_reverse]
  rwa [List.head?_reverse]

theorem not_blank_of_mem_getLast?_trimEnd {t : Text} {c : Char} (h : c ∈ (trimEnd t).getLast?) :
    isBlank c = false := by
  rw [trimEnd, List.getLast?_reverse] at h
  have hhead := List.head?_dropWhile_not isBlank t.reverse
  rw [Option.mem_def.1 h] at hhead
  simpa using hhead

theorem trimEnd_trimEnd (t : Text) : trimEnd (trimEnd t) = trimEnd t :=
  trimEnd_eq_self fun _ => not_blank_of_mem_getLast?_trimEnd

theorem trimEnd_append_blanks {blanks : Text} (h : ∀ c ∈ blanks, isBlank c = true) (t : Text) :
    trimEnd (t ++ blanks) = trimEnd t := by
  rw [trimEnd, List.reverse_append,
    List.dropWhile_append_of_pos fun c hc => h c (List.mem_reverse.1 hc), trimEnd]

theorem trimEnd_append {u : Text} (h : ∃ c ∈ u, isBlank c = false) (t : Text) :
    trimEnd (t ++ u) = t ++ trimEnd u := by
  have hne : (u.reverse.dropWhile isBlank).isEmpty = false := by
    rw [List.isEmpty_eq_false_iff, ne_eq, List.dropWhile_eq_nil_iff]
    obtain ⟨c, hc, hblank⟩ := h
    exact fun hall => absurd (hall c (List.mem_reverse.2 hc)) (by simp [hblank])
  rw [trimEnd, List.reverse_append, List.dropWhile_append, hne, if_neg Bool.false_ne_true,
    List.reverse_append, List.reverse_reverse, trimEnd]

theorem head?_trimStart_append {t : Text} (h : ∃ c ∈ t, isBlank c = false) (u : Text) :
    (trimStart (t ++ u)).head? = (trimStart t).head? := by
  have hne : t.dropWhile isBlank ≠ [] := by
    rw [ne_eq, List.dropWhile_eq_nil_iff]
    obtain ⟨c, hc, hblank⟩ := h
    exact fun hall => absurd (hall c hc) (by simp [hblank])
  rw [trimStart, List.dropWhile_append, List.isEmpty_eq_false_iff.2 hne,
    if_neg Bool.false_ne_true, List.head?_append, List.head?_eq_some_head hne, Option.some_or,
    trimStart, List.head?_eq_some_head hne]

theorem exists_eq_trimEnd_append (t : Text) :
    ∃ blanks, t = trimEnd t ++ blanks ∧ ∀ c ∈ blanks, isBlank c = true := by
  refine ⟨(t.reverse.takeWhile isBlank).reverse, ?_, fun c hc => ?_⟩
  · rw [trimEnd, ← List.reverse_append, List.takeWhile_append_dropWhile, List.reverse_reverse]
  · exact List.mem_takeWhile_imp (List.mem_reverse.1 hc)

end Provenance.Text
