/-!
# Results that are not faults

What it takes for a step that may fail to give a result: that each of its parts gave one. A loop of
such steps fails at the first of them that does.
-/

namespace Provenance.Except

variable {ε ε' α β : Type} {x : Except ε α} {a : α} {b : β}

theorem bind_eq_ok {f : α → Except ε β} :
    (x >>= f) = .ok b ↔ ∃ a, x = .ok a ∧ f a = .ok b := by
  cases x <;> simp [bind, Except.bind]

theorem bind_eq_error {f : α → Except ε β} {e : ε} :
    (x >>= f) = .error e ↔ x = .error e ∨ ∃ a, x = .ok a ∧ f a = .error e := by
  cases x <;> simp [bind, Except.bind]

theorem map_eq_ok {f : α → β} : x.map f = .ok b ↔ ∃ a, x = .ok a ∧ f a = b := by
  cases x <;> simp [Except.map]

theorem mapError_ok (f : ε → ε') (a : α) : (Except.ok a).mapError f = .ok a := rfl

theorem mapError_eq_ok {f : ε → ε'} : x.mapError f = .ok a ↔ x = .ok a := by
  cases x with
  | error e => exact iff_of_false nofun nofun
  | ok b => rw [mapError_ok, Except.ok.injEq, Except.ok.injEq]

theorem mapError_eq_error {f : ε → ε'} {e : ε'} :
    x.mapError f = .error e ↔ ∃ e', x = .error e' ∧ f e' = e := by
  cases x with
  | error e' =>
    show Except.error (f e') = .error e ↔ _
    simp
  | ok a => exact iff_of_false nofun nofun

theorem map_eq_error {f : α → β} {e : ε} : x.map f = .error e ↔ x = .error e := by
  cases x <;> simp [Except.map]

/-- The first step that fails, with all in front of it done. -/
theorem foldlM_eq_error {f : β → α → Except ε β} {xs : List α} {e : ε} :
    xs.foldlM f b = .error e ↔
      ∃ before y after c,
        xs = before ++ y :: after ∧ before.foldlM f b = .ok c ∧ f c y = .error e := by
  induction xs generalizing b with
  | nil => simp [pure, Except.pure]
  | cons x xs ih =>
    rw [List.foldlM_cons, bind_eq_error]
    constructor
    · rintro (hx | ⟨c, hx, hrest⟩)
      · exact ⟨[], x, xs, b, rfl, rfl, hx⟩
      · obtain ⟨before, y, after, c', rfl, hbefore, hy⟩ := ih.1 hrest
        refine ⟨x :: before, y, after, c', rfl, ?_, hy⟩
        rw [List.foldlM_cons]
        exact bind_eq_ok.2 ⟨c, hx, hbefore⟩
    · rintro ⟨before, y, after, c, hxs, hbefore, hy⟩
      cases before with
      | nil =>
        obtain ⟨rfl, rfl⟩ := List.cons.inj hxs
        obtain rfl := Except.ok.inj hbefore
        exact .inl hy
      | cons _ before =>
        obtain ⟨rfl, rfl⟩ := List.cons.inj hxs
        rw [List.foldlM_cons] at hbefore
        obtain ⟨c', hx, hbefore⟩ := bind_eq_ok.1 hbefore
        exact .inr ⟨c', hx, ih.2 ⟨before, y, after, c, rfl, hbefore, hy⟩⟩

end Provenance.Except
