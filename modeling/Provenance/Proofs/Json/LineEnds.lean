import Provenance.Json.Basic

/-!
# No token reaches over a line end

A line end stands between tokens and never in one, so what stands behind it is read by itself. If
that is no sequence of tokens, the whole text is none.

* `Json.LeavesLines` : what is left of a text behind a part without a line end; each of the readers
  of a token leaves that much;
* `Json.Token.scan_append_lineEnd` : a text whose last lines cannot be read.
-/

namespace Provenance.Json

/-- `rest` is what is left of `t` behind a part that holds no line end. -/
def LeavesLines (t rest : Text) : Prop := ∃ taken, t = taken ++ rest ∧ '\n' ∉ taken

namespace LeavesLines

variable {c : Char} {t u v front rest : Text}

theorem refl (t : Text) : LeavesLines t t := ⟨[], rfl, List.not_mem_nil⟩

theorem trans (h : LeavesLines t u) (h' : LeavesLines u v) : LeavesLines t v := by
  obtain ⟨taken, rfl, htaken⟩ := h
  obtain ⟨more, rfl, hmore⟩ := h'
  refine ⟨taken ++ more, (List.append_assoc _ _ _).symm, ?_⟩
  rw [List.mem_append, not_or]
  exact ⟨htaken, hmore⟩

theorem cons (hc : c ≠ '\n') (h : LeavesLines t rest) : LeavesLines (c :: t) rest := by
  obtain ⟨taken, rfl, htaken⟩ := h
  refine ⟨c :: taken, rfl, ?_⟩
  rw [List.mem_cons, not_or]
  exact ⟨Ne.symm hc, htaken⟩

theorem dropWhile {p : Char → Bool} (hp : p '\n' = false) (t : Text) :
    LeavesLines t (t.dropWhile p) := by
  refine ⟨t.takeWhile p, List.takeWhile_append_dropWhile.symm, fun hmem => ?_⟩
  have hline := List.all_eq_true.1 (List.all_takeWhile (p := p) (l := t)) _ hmem
  rw [hp] at hline
  exact Bool.false_ne_true hline

theorem exists_eq_append (h : LeavesLines (front ++ '\n' :: u) rest) :
    ∃ front', rest = front' ++ '\n' :: u := by
  obtain ⟨taken, heq, htaken⟩ := h
  rcases List.append_eq_append_iff.1 heq with ⟨more, rfl, hmore⟩ | ⟨front', rfl, hrest⟩
  · cases more with
    | nil => exact ⟨[], hmore.symm⟩
    | cons c more =>
      obtain ⟨rfl, -⟩ := List.cons.inj hmore
      exact absurd (List.mem_append_right _ List.mem_cons_self) htaken
  · exact ⟨front', hrest⟩

end LeavesLines

/-! ## Numerals -/

namespace Numeral

variable {t rest : Text}

theorem leaves_of_digits? {ds : Text} (h : digits? t = some (ds, rest)) : LeavesLines t rest := by
  unfold digits? at h
  split at h
  · exact absurd h nofun
  · cases h
    exact LeavesLines.dropWhile rfl t

theorem leaves_of_map_digits? {α : Type} {f : Text × Text → α × Text} {a : α}
    (h : (digits? t).map f = some (a, rest)) (hf : ∀ read, (f read).2 = read.2) :
    LeavesLines t rest := by
  obtain ⟨⟨ds, u⟩, hd, h⟩ := Option.map_eq_some_iff.1 h
  obtain rfl : u = rest := (hf (ds, u)).symm.trans (congrArg Prod.snd h)
  exact leaves_of_digits? hd

theorem leaves_of_whole? {n : Nat} (h : whole? t = some (n, rest)) : LeavesLines t rest := by
  unfold whole? at h
  split at h
  · cases h
    exact .cons (by decide) (.refl _)
  · exact leaves_of_map_digits? h fun _ => rfl

theorem leaves_of_fraction? {ds : Text} (h : fraction? t = some (ds, rest)) :
    LeavesLines t rest := by
  unfold fraction? at h
  split at h
  · exact .cons (by decide) (leaves_of_digits? h)
  · cases h
    exact .refl _

theorem leaves_of_power? {e : Int} (h : power? t = some (e, rest)) : LeavesLines t rest := by
  unfold power? at h
  split at h
  · exact .cons (by decide) (leaves_of_map_digits? h fun _ => rfl)
  · exact .cons (by decide) (leaves_of_map_digits? h fun _ => rfl)
  · exact leaves_of_map_digits? h fun _ => rfl

theorem leaves_of_exponent? {e : Option Int} (h : exponent? t = some (e, rest)) :
    LeavesLines t rest := by
  unfold exponent? at h
  split at h
  · split at h
    · next c _ hc =>
      obtain ⟨⟨k, u⟩, hk, h⟩ := Option.map_eq_some_iff.1 h
      cases h
      refine .cons ?_ (leaves_of_power? hk)
      rcases hc with rfl | rfl <;> decide
    · cases h
      exact .refl _
  · cases h
    exact .refl _

theorem leaves_of_readUnsigned? {b : Bool} {n : Numeral}
    (h : readUnsigned? b t = some (n, rest)) : LeavesLines t rest := by
  simp only [readUnsigned?, Option.bind_eq_bind, Option.bind_eq_some_iff] at h
  obtain ⟨⟨w, u⟩, hw, ⟨f, v⟩, hf, ⟨e, x⟩, he, h⟩ := h
  cases h
  exact ((leaves_of_whole? hw).trans (leaves_of_fraction? hf)).trans (leaves_of_exponent? he)

theorem leaves_of_read? {n : Numeral} (h : read? t = some (n, rest)) : LeavesLines t rest := by
  unfold read? at h
  split at h
  · exact .cons (by decide) (leaves_of_readUnsigned? h)
  · exact leaves_of_readUnsigned? h

end Numeral

/-! ## Quoted texts -/

namespace Quoted

theorem ne_lineEnd_of_hexValue? {c : Char} {n : Nat} (h : hexValue? c = some n) : c ≠ '\n' := by
  have hnone : hexValue? '\n' = none := by decide
  rintro rfl
  exact absurd (hnone.symm.trans h) nofun

/-- A control character in quotes has to be escaped, and no escape is written with one. -/
theorem leaves_of_pieces? {t rest : Text} {ps : List Piece} (h : pieces? t = some (ps, rest)) :
    LeavesLines t rest := by
  fun_induction pieces? t generalizing ps rest with
  | case1 => exact absurd h.symm (Option.some_ne_none _)
  | case2 =>
    cases h
    exact .cons (by decide) (.refl _)
  | case3 a b c d t ih =>
    simp only [Option.bind_eq_bind, Option.bind_eq_some_iff] at h
    obtain ⟨n, hn, ⟨more, u⟩, hu, h⟩ := h
    cases h
    simp only [code?, Option.bind_eq_bind, Option.bind_eq_some_iff] at hn
    obtain ⟨_, ha, _, hb, _, hc, _, hd, -⟩ := hn
    exact .cons (by decide) (.cons (by decide) (.cons (ne_lineEnd_of_hexValue? ha)
      (.cons (ne_lineEnd_of_hexValue? hb) (.cons (ne_lineEnd_of_hexValue? hc)
        (.cons (ne_lineEnd_of_hexValue? hd) (ih hu))))))
  | case4 name t _ ih =>
    simp only [Option.bind_eq_bind, Option.bind_eq_some_iff] at h
    obtain ⟨c, hc, ⟨more, u⟩, hu, h⟩ := h
    cases h
    refine .cons (by decide) (.cons ?_ (ih hu))
    rintro rfl
    exact absurd hc.symm (Option.some_ne_none c)
  | case5 => exact absurd h.symm (Option.some_ne_none _)
  | case6 c t _ _ _ hc ih =>
    simp only [Option.bind_eq_bind, Option.bind_eq_some_iff] at h
    obtain ⟨⟨more, u⟩, hu, h⟩ := h
    cases h
    refine .cons ?_ (ih hu)
    rintro rfl
    exact hc (by decide)

end Quoted

/-! ## Tokens -/

namespace Token

variable {t u rest : Text} {k : Token}

theorem leaves_of_next? (h : next? t = some (k, rest)) : LeavesLines t rest := by
  unfold next? at h
  split at h
  case h_7 | h_8 =>
    cases h
    exact .cons (by decide) (.cons (by decide) (.cons (by decide) (.cons (by decide) (.refl _))))
  case h_9 =>
    cases h
    exact .cons (by decide) (.cons (by decide) (.cons (by decide) (.cons (by decide)
      (.cons (by decide) (.refl _)))))
  case h_10 =>
    obtain ⟨⟨s, u⟩, hs, h⟩ := Option.map_eq_some_iff.1 h
    cases h
    obtain ⟨⟨ps, v⟩, hp, hv⟩ := Option.map_eq_some_iff.1 hs
    cases hv
    exact .cons (by decide) (Quoted.leaves_of_pieces? hp)
  case h_11 =>
    obtain ⟨⟨n, u⟩, hn, h⟩ := Option.map_eq_some_iff.1 h
    cases h
    exact Numeral.leaves_of_read? hn
  all_goals
    cases h
    exact .cons (by decide) (.refl _)

theorem scan_eq (t : Text) : scan t =
    if t.dropWhile isGap = [] then some []
    else (next? (t.dropWhile isGap)).bind fun (k, rest) => (scan rest).map (k :: ·) := by
  rw [scan]
  split
  · next hd => rw [if_pos hd]
  · next c more hd =>
    rw [if_neg (hd ▸ List.cons_ne_nil c more), hd]
    split
    · next hk => rw [hk, Option.bind_none]
    · next hk => rw [hk, Option.bind_some]

/-- **No token reaches over a line end.** A text is no sequence of tokens if what follows one of its
line ends is none. -/
theorem scan_append_lineEnd (hu : scan u = none) (t : Text) : scan (t ++ '\n' :: u) = none := by
  induction hn : t.length using Nat.strongRecOn generalizing t with
  | ind n ih =>
    rw [scan_eq]
    by_cases hgap : t.dropWhile isGap = []
    · have hdrop : (t ++ '\n' :: u).dropWhile isGap = u.dropWhile isGap := by
        rw [List.dropWhile_append, hgap]
        rfl
      rw [hdrop, ← scan_eq, hu]
    · have hdrop : (t ++ '\n' :: u).dropWhile isGap = t.dropWhile isGap ++ '\n' :: u := by
        rw [List.dropWhile_append, List.isEmpty_eq_false_iff.2 hgap, if_neg Bool.false_ne_true]
      rw [hdrop, if_neg (List.append_ne_nil_of_left_ne_nil hgap _)]
      cases hk : next? (t.dropWhile isGap ++ '\n' :: u) with
      | none => rfl
      | some found =>
        obtain ⟨k, rest⟩ := found
        obtain ⟨front, rfl⟩ := (leaves_of_next? hk).exists_eq_append
        have hlength := length_lt_of_next? hk
        have hsuffix := (List.dropWhile_suffix isGap (l := t)).length_le
        simp only [List.length_append, List.length_cons] at hlength
        have hrest := ih front.length (by omega) front rfl
        simp only [Option.bind_some, hrest, Option.map_none]

end Token

end Provenance.Json
