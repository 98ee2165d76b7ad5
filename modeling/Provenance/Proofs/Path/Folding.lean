import Provenance.Path

/-!
# Folding the segments of a path

Normal form keeps the segments of a path on a stack. Here the stack is followed along a path, from
any stack, so that a path can be taken in two parts.

* `Path.walk` : the stack behind a path; `Path.walk_append_slash` : a path in two parts;
* `Path.Kept` : what holds of the segments on a stack; `Path.Kept.walk` : along any path;
* `Path.foldl_push_reverse_walk` : a path that has been folded leads to where the path itself does;
* `Path.intercalate_concat`, `Path.walk_flatMap_append` : the text of segments.
-/

namespace Provenance.Path

/-! ## The stack behind a path -/

/-- The segments kept behind `path` where `kept` are kept in front of it, the last one first. -/
def walk (rooted : Bool) (kept : List Text) (path : Text) : List Text :=
  (path.splitOn '/').foldl (push rooted) kept

variable {rooted rooted' : Bool} {kept kept' segments : List Text} {s p q : Text}

theorem push_above_cons (rooted : Bool) (last : Text) (before : List Text) :
    push rooted (last :: before) above =
      if last = above then if rooted then last :: before else above :: last :: before
      else before := rfl

theorem push_name (hnil : s ≠ []) (hhere : s ≠ here) (habove : s ≠ above) :
    push rooted kept s = s :: kept := by
  rw [push, if_neg (not_or.2 ⟨hnil, hhere⟩), if_pos habove]

theorem walk_of_not_mem (h : '/' ∉ s) : walk rooted kept s = push rooted kept s := by
  rw [walk, List.splitOn_eq_singleton h]
  rfl

theorem walk_append_slash (p q : Text) :
    walk rooted kept (p ++ '/' :: q) = walk rooted (walk rooted kept p) q := by
  rw [walk, List.splitOn_append_cons_self, List.foldl_append]
  rfl

theorem walk_slash (q : Text) : walk rooted kept ('/' :: q) = walk rooted kept q :=
  walk_append_slash [] q

theorem walk_concat_slash (p : Text) : walk rooted kept (p ++ ['/']) = walk rooted kept p :=
  walk_append_slash p []

theorem walk_append_slashes {t : Text} (h : ∀ c ∈ t, c = '/') (p : Text) :
    walk rooted kept (p ++ t) = walk rooted kept p := by
  induction t generalizing p with
  | nil => rw [List.append_nil]
  | cons c t ih =>
    rw [List.forall_mem_cons] at h
    obtain ⟨rfl, h⟩ := h
    rw [List.append_cons, ih h, walk_concat_slash]

/-! ## The segments that are kept -/

/-- What holds of the segments that are kept: none of them folds away, and under a root none
climbs. -/
def Kept (rooted : Bool) (kept : List Text) : Prop :=
  ∀ s ∈ kept, s ≠ [] ∧ s ≠ here ∧ '/' ∉ s ∧ (rooted = true → s ≠ above)

theorem kept_nil : Kept rooted [] := fun _ h => absurd h List.not_mem_nil

/-- A step changes nothing, or it keeps one segment more, or it takes back the last one. -/
theorem push_cases (rooted : Bool) (kept : List Text) (s : Text) :
    push rooted kept s = kept ∨
      push rooted kept s = s :: kept ∧ s ≠ [] ∧ s ≠ here ∧ (s = above → rooted = false) ∨
        ∃ last, kept = last :: push rooted kept s := by
  by_cases hstay : s = [] ∨ s = here
  · rw [push, if_pos hstay]
    exact Or.inl rfl
  by_cases habove : s = above
  · subst habove
    cases kept with
    | nil =>
      cases rooted with
      | true => exact Or.inl rfl
      | false => exact Or.inr (Or.inl ⟨rfl, by decide, by decide, fun _ => rfl⟩)
    | cons last before =>
      by_cases hlast : last = above
      · rw [push_above_cons, if_pos hlast]
        cases rooted with
        | true => exact Or.inl rfl
        | false => exact Or.inr (Or.inl ⟨rfl, by decide, by decide, fun _ => rfl⟩)
      · rw [push_above_cons, if_neg hlast]
        exact Or.inr (Or.inr ⟨last, rfl⟩)
  · rw [not_or] at hstay
    exact Or.inr (Or.inl ⟨push_name hstay.1 hstay.2 habove, hstay.1, hstay.2,
      fun h => absurd h habove⟩)

theorem Kept.push (h : Kept rooted kept) (hs : '/' ∉ s) : Kept rooted (push rooted kept s) := by
  rcases push_cases rooted kept s with heq | ⟨heq, hnil, hhere, habove⟩ | ⟨last, heq⟩
  · rwa [heq]
  · rw [heq]
    refine List.forall_mem_cons.2 ⟨⟨hnil, hhere, hs, fun hroot ha => ?_⟩, h⟩
    simp [habove ha] at hroot
  · rw [heq] at h
    exact (List.forall_mem_cons.1 h).2

theorem mem_push (h : p ∈ push rooted kept s) : p ∈ kept ∨ p = s := by
  rcases push_cases rooted kept s with heq | ⟨heq, -⟩ | ⟨last, heq⟩
  · rw [heq] at h
    exact Or.inl h
  · rw [heq] at h
    exact (List.mem_cons.1 h).symm
  · rw [heq]
    exact Or.inl (List.mem_cons_of_mem _ h)

theorem of_mem_splitOn {a : Char} {t : Text} (h : s ∈ t.splitOn a) : a ∉ s ∧ s ⊆ t := by
  induction t generalizing s with
  | nil =>
    obtain rfl := List.mem_singleton.1 h
    exact ⟨List.not_mem_nil, List.nil_subset _⟩
  | cons c t ih =>
    obtain ⟨first, more, hsplit⟩ := List.exists_cons_of_ne_nil (List.splitOn_ne_nil a t)
    rw [List.splitOn_cons_eq_if_modifyHead] at h
    rw [hsplit] at h ih
    split at h
    · rcases List.mem_cons.1 h with rfl | h
      · exact ⟨List.not_mem_nil, List.nil_subset _⟩
      · exact ⟨(ih h).1, List.subset_cons_of_subset _ (ih h).2⟩
    · next hc =>
      rw [List.modifyHead_cons] at h
      rcases List.mem_cons.1 h with rfl | h
      · obtain ⟨hslash, hsub⟩ := ih List.mem_cons_self
        refine ⟨?_, List.cons_subset_cons c hsub⟩
        rw [List.mem_cons, not_or]
        exact ⟨fun hac => hc (by simp [hac]), hslash⟩
      · obtain ⟨hslash, hsub⟩ := ih (List.mem_cons_of_mem _ h)
        exact ⟨hslash, List.subset_cons_of_subset _ hsub⟩

theorem Kept.foldl_push (h : Kept rooted kept) (hs : ∀ s ∈ segments, '/' ∉ s) :
    Kept rooted (segments.foldl (Path.push rooted) kept) := by
  induction segments generalizing kept with
  | nil => exact h
  | cons s segments ih =>
    rw [List.forall_mem_cons] at hs
    exact ih (h.push hs.1) hs.2

theorem Kept.walk (h : Kept rooted kept) (p : Text) : Kept rooted (walk rooted kept p) :=
  h.foldl_push fun _ hs => (of_mem_splitOn hs).1

theorem mem_foldl_push (h : p ∈ segments.foldl (push rooted) kept) : p ∈ kept ∨ p ∈ segments := by
  induction segments generalizing kept with
  | nil => exact Or.inl h
  | cons s segments ih =>
    rcases ih h with h | h
    · rcases mem_push h with h | rfl
      · exact Or.inl h
      · exact Or.inr List.mem_cons_self
    · exact Or.inr (List.mem_cons_of_mem _ h)

theorem subset_of_mem_walk (h : s ∈ walk rooted [] p) : s ⊆ p := by
  rcases mem_foldl_push h with h | h
  · exact absurd h List.not_mem_nil
  · exact (of_mem_splitOn h).2

/-! ## Folding twice -/

/-- A segment folded into a stack that is then walked along, or walked along itself. -/
theorem foldl_push_reverse_push (h : Kept rooted' kept')
    (hroot : rooted' = true → rooted = true ∧ kept = []) (s : Text) :
    (push rooted' kept' s).reverse.foldl (push rooted) kept =
      push rooted (kept'.reverse.foldl (push rooted) kept) s := by
  by_cases hstay : s = [] ∨ s = here
  · rw [push, push, if_pos hstay, if_pos hstay]
  by_cases habove : s = above
  · subst habove
    cases kept' with
    | nil =>
      cases hr : rooted' with
      | false => rfl
      | true =>
        obtain ⟨rfl, rfl⟩ := hroot hr
        rfl
    | cons last before =>
      obtain ⟨⟨hnil, hhere, -, hclimb⟩, -⟩ := List.forall_mem_cons.1 h
      rw [push_above_cons]
      by_cases hlast : last = above
      · have hr : rooted' = false := by
          rw [← Bool.not_eq_true]
          exact fun hr => hclimb hr hlast
        rw [if_pos hlast, hr, if_neg Bool.false_ne_true, List.reverse_cons, List.foldl_append]
        rfl
      · -- A name and the `..` behind it cancel, wherever the walk has come to.
        rw [if_neg hlast, List.reverse_cons, List.foldl_append, List.foldl_cons, List.foldl_nil,
          push_name hnil hhere hlast, push_above_cons, if_neg hlast]
  · rw [not_or] at hstay
    rw [push_name hstay.1 hstay.2 habove, List.reverse_cons, List.foldl_append]
    rfl

theorem foldl_push_reverse_foldl_push (h : Kept rooted' kept')
    (hroot : rooted' = true → rooted = true ∧ kept = []) (hs : ∀ s ∈ segments, '/' ∉ s) :
    (segments.foldl (push rooted') kept').reverse.foldl (push rooted) kept =
      segments.foldl (push rooted) (kept'.reverse.foldl (push rooted) kept) := by
  induction segments generalizing kept' with
  | nil => rfl
  | cons s segments ih =>
    rw [List.forall_mem_cons] at hs
    rw [List.foldl_cons, ih (h.push hs.1) hs.2, foldl_push_reverse_push h hroot, List.foldl_cons]

/-- **Folding first changes nothing.** The segments that are kept of a path lead to where the path
leads: from anywhere if the path has no root, and from the root if it has one. -/
theorem foldl_push_reverse_walk (hroot : rooted' = true → rooted = true ∧ kept = []) (p : Text) :
    (walk rooted' [] p).reverse.foldl (push rooted) kept = walk rooted kept p :=
  foldl_push_reverse_foldl_push kept_nil hroot fun _ hs => (of_mem_splitOn hs).1

/-! ## The text of segments -/

theorem intercalate_concat (segments : List Text) (name : Text) :
    ['/'].intercalate (segments ++ [name]) = segments.flatMap (· ++ ['/']) ++ name := by
  induction segments with
  | nil => exact List.intercalate_singleton
  | cons s segments ih =>
    rw [List.cons_append, List.intercalate_cons_of_ne_nil (List.concat_ne_nil _ _), ih,
      List.flatMap_cons, ← List.append_assoc]

theorem walk_flatMap_append (h : ∀ s ∈ segments, '/' ∉ s) (q : Text) :
    walk rooted kept (segments.flatMap (· ++ ['/']) ++ q) =
      walk rooted (segments.foldl (push rooted) kept) q := by
  induction segments generalizing kept with
  | nil => rfl
  | cons s segments ih =>
    rw [List.forall_mem_cons] at h
    rw [List.flatMap_cons, List.append_assoc, List.append_assoc, List.singleton_append,
      walk_append_slash, walk_of_not_mem h.1, ih h.2, List.foldl_cons]

theorem walk_intercalate (h : ∀ s ∈ segments, '/' ∉ s) :
    walk rooted kept (['/'].intercalate segments) = segments.foldl (push rooted) kept := by
  rcases List.eq_nil_or_concat segments with rfl | ⟨front, name, rfl⟩
  · rfl
  · rw [List.concat_eq_append] at h ⊢
    rw [List.forall_mem_append, List.forall_mem_singleton] at h
    rw [intercalate_concat, walk_flatMap_append h.1, walk_of_not_mem h.2, List.foldl_append]
    rfl

end Provenance.Path
