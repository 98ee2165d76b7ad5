import Provenance.Proofs.Path.NormalForm

/-!
# Joining references

Joining puts a directory in front of a relative reference and brings the whole to its normal form.
What the directory contributes is its root and the segments that are kept of it.

* `Path.base` : what is put in front; `Path.join_eq_normalize` : what a join is the normal form of;
* `Path.IsPlain` : the relative references that a directory can be put in front of;
* `Path.IsHostless` : the directories that it cannot be done with;
* `Path.root_base_append`, `Path.kept_base_append` : the root and the segments of a join;
* `Path.join_normalize` : the reference may be brought to its normal form before it is joined.
-/

namespace Provenance.Path

variable {directory path x : Text}

/-! ## Plain references -/

/-- A relative reference that names no scheme and does not end in a separator. -/
structure IsPlain (path : Text) : Prop where
  ne_nil : path ≠ []
  first : path.head? ≠ some '/'
  last : path.getLast? ≠ some '/'
  colon : ':' ∉ path

instance (path : Text) : Decidable (IsPlain path) :=
  decidable_of_iff (path ≠ [] ∧ path.head? ≠ some '/' ∧ path.getLast? ≠ some '/' ∧ ':' ∉ path)
    ⟨fun h => ⟨h.1, h.2.1, h.2.2.1, h.2.2.2⟩, fun h => ⟨h.ne_nil, h.first, h.last, h.colon⟩⟩

theorem scheme?_of_colon_not_mem (h : ':' ∉ path) : scheme? path = none := by
  rw [Option.eq_none_iff_forall_ne_some]
  rintro ⟨scheme, rest⟩ hs
  rw [(scheme?_eq_some_iff.1 hs).2] at h
  simp at h

theorem isAbsolute_of_rooted (h : rooted path = true) : isAbsolute path = true := by
  rw [isAbsolute, Bool.or_eq_true, beq_iff_eq]
  refine (rooted_eq_true_iff.1 h).imp_right ?_
  rintro ⟨scheme, rest, hs, heq⟩
  rw [scheme?_eq_some_iff.2 ⟨hs, heq⟩]
  rfl

theorem mem_of_mem_intercalate {segments : List Text} {c : Char}
    (h : c ∈ ['/'].intercalate segments) : c = '/' ∨ ∃ s ∈ segments, c ∈ s := by
  rcases List.eq_nil_or_concat segments with rfl | ⟨front, last, rfl⟩
  · simp at h
  · rw [List.concat_eq_append] at h ⊢
    rw [intercalate_concat, List.mem_append, List.mem_flatMap] at h
    rcases h with ⟨s, hs, hc⟩ | h
    · rw [List.mem_append, List.mem_singleton] at hc
      rcases hc with hc | rfl
      · exact Or.inr ⟨s, List.mem_append_left _ hs, hc⟩
      · exact Or.inl rfl
    · exact Or.inr ⟨last, by simp, h⟩

namespace IsPlain

theorem rooted (h : IsPlain path) : rooted path = false := by
  rw [← Bool.not_eq_true, rooted_eq_true_iff, not_or]
  refine ⟨h.first, ?_⟩
  rintro ⟨scheme, rest, -, rfl⟩
  exact h.colon (by simp)

theorem isAbsolute (h : IsPlain path) : isAbsolute path = false := by
  rw [Path.isAbsolute, scheme?_of_colon_not_mem h.colon, beq_eq_false_iff_ne.2 h.first]
  rfl

theorem getLast?_append_ne (h : IsPlain path) (front : Text) :
    (front ++ path).getLast? ≠ some '/' := by
  have hlast := List.getLast?_eq_some_getLast h.ne_nil
  rw [List.getLast?_append, hlast, Option.some_or, ← hlast]
  exact h.last

theorem normalize_eq (h : IsPlain path) :
    normalize path = if ['/'].intercalate (kept path).reverse = [] then here
      else ['/'].intercalate (kept path).reverse := by
  have hroot : root path = [] := by
    rw [root, h.rooted, (splitAuthority_of_rooted h.rooted).1]
    rfl
  rw [Path.normalize_eq, hroot, tail_of_closes_eq_false (closes_eq_false h.last), List.nil_append]

theorem kept_eq (h : IsPlain path) : kept path = walk false [] path := by
  rw [kept, h.rooted, (splitAuthority_of_rooted h.rooted).1]

theorem normalize (h : IsPlain path) : IsPlain (normalize path) := by
  rw [h.normalize_eq]
  split
  · decide
  · next hne =>
    have hsegments := segment_of_mem_kept path
    refine ⟨hne, ?_, ?_, ?_⟩
    · rw [← tail_of_closes_eq_false (closes_eq_false h.last)]
      exact (splitAuthority_of_rooted (rooted_tail path)).2
    · exact (intercalate_ne_nil hsegments fun h => hne (by rw [h]; rfl)).2
    · intro hcolon
      rcases mem_of_mem_intercalate hcolon with h' | ⟨s, hs, hcolon⟩
      · exact absurd h' (by decide)
      · rw [List.mem_reverse, h.kept_eq] at hs
        exact h.colon (subset_of_mem_walk hs hcolon)

/-- Walking along a normal form leads to where the reference itself leads. -/
theorem walk_normalize (h : IsPlain path) (rooted : Bool) (stack : List Text) :
    walk rooted stack (Path.normalize path) = walk rooted stack path := by
  have hwalk : walk rooted stack (['/'].intercalate (kept path).reverse) =
      walk rooted stack path := by
    rw [walk_intercalate fun s hs => (segment_of_mem_kept path s hs).2, h.kept_eq,
      foldl_push_reverse_walk fun h => absurd h Bool.false_ne_true]
  rw [h.normalize_eq]
  split
  · next hnil =>
    rw [← hwalk, hnil]
    rfl
  · exact hwalk

end IsPlain

/-! ## What a directory contributes -/

/-- What is put in front of a relative reference to join it to a directory. -/
def base (directory : Text) : Text :=
  if directory = [] then [] else (directory.reverse.dropWhile (· == '/')).reverse ++ ['/']

theorem join_eq_normalize (hx : isAbsolute x = false) (hne : x ≠ []) (directory : Text) :
    join directory x = normalize (base directory ++ x) := by
  have hempty : x.isEmpty = false := List.isEmpty_eq_false_iff.2 hne
  rw [join, base, hx, hempty]
  cases directory with
  | nil => rfl
  | cons c directory => simp

theorem join_of_isAbsolute (hx : isAbsolute x = true) (directory : Text) :
    join directory x = normalize x := by
  rw [join, hx]
  rfl

theorem join_nil (directory : Text) : join directory [] = normalize directory := by
  cases directory <;> rfl

theorem exists_base_eq (hne : directory ≠ []) : ∃ front slashes, base directory = front ++ ['/'] ∧
    directory = front ++ slashes ∧ (∀ c ∈ slashes, c = '/') ∧ front.getLast? ≠ some '/' := by
  refine ⟨_, (directory.reverse.takeWhile (· == '/')).reverse, if_neg hne, ?_, ?_, ?_⟩
  · rw [← List.reverse_append, List.takeWhile_append_dropWhile, List.reverse_reverse]
  · intro c hc
    have hall := List.all_eq_true.1 (List.all_takeWhile (p := (· == '/')) (l := directory.reverse))
    simpa using hall c (List.mem_reverse.1 hc)
  · rw [List.getLast?_reverse]
    intro h
    have hhead := List.head?_dropWhile_not (· == '/') directory.reverse
    rw [h] at hhead
    simp at hhead

theorem walk_base (rooted : Bool) (stack : List Text) (directory : Text) :
    walk rooted stack (base directory) = walk rooted stack directory := by
  by_cases hne : directory = []
  · rw [base, if_pos hne, hne]
  · obtain ⟨front, slashes, hbase, hdirectory, hslashes, -⟩ := exists_base_eq hne
    rw [hbase, walk_concat_slash, hdirectory, walk_append_slashes hslashes]

theorem walk_base_append (rooted : Bool) (stack : List Text) (directory x : Text) :
    walk rooted stack (base directory ++ x) = walk rooted (walk rooted stack directory) x := by
  rw [← walk_base rooted stack directory]
  by_cases hne : directory = []
  · rw [base, if_pos hne]
    rfl
  · obtain ⟨front, slashes, hbase, -⟩ := exists_base_eq hne
    rw [hbase, walk_concat_slash, List.append_assoc, List.singleton_append, walk_append_slash]

/-! ## Hosts -/

/-- A URL with nothing between the separators behind its scheme and its path. -/
def IsHostless (path : Text) : Prop :=
  ∃ scheme rest, scheme? path = some (scheme, '/' :: '/' :: rest) ∧
    (rest = [] ∨ rest.head? = some '/')

theorem not_isHostless_base (h : ¬IsHostless directory) : ¬IsHostless (base directory) := by
  rintro ⟨scheme, rest, hs, hrest⟩
  obtain ⟨hscheme, heq⟩ := scheme?_eq_some_iff.1 hs
  by_cases hne : directory = []
  · rw [base, if_pos hne] at heq
    simp at heq
  · obtain ⟨front, slashes, hbase, hdirectory, -, hlast⟩ := exists_base_eq hne
    rw [hbase] at heq
    -- The last separator of `base directory` is the one put there, so what is left of `rest` in
    -- front of it stands in `directory` too.
    rcases List.eq_nil_or_concat rest with rfl | ⟨more, c, rfl⟩
    · have hsplit := heq.trans (List.append_assoc scheme [':', '/'] ['/']).symm
      rw [(List.append_singleton_inj.1 hsplit).1] at hlast
      simp at hlast
    · rw [List.concat_eq_append] at heq hrest
      obtain ⟨rfl, -⟩ : front = scheme ++ ':' :: '/' :: '/' :: more ∧ '/' = c := by
        rw [← List.append_singleton_inj, heq, List.append_assoc]
        rfl
      cases more with
      | nil => simp at hlast
      | cons a more =>
        apply h
        refine ⟨scheme, a :: more ++ slashes, ?_, by simpa using hrest⟩
        rw [hdirectory, scheme?_eq_some_iff, List.append_assoc]
        exact ⟨hscheme, rfl⟩

theorem splitAuthority_append_of_scheme? {scheme rest : Text}
    (hs : scheme? path = some (scheme, '/' :: '/' :: rest)) (hslash : '/' ∈ rest) (x : Text) :
    splitAuthority (path ++ x) = ((splitAuthority path).1, (splitAuthority path).2 ++ x) := by
  obtain ⟨hscheme, rfl⟩ := scheme?_eq_some_iff.1 hs
  obtain ⟨host, more, rfl, hhost⟩ := List.eq_append_cons_of_mem hslash
  have hall := bne_slash_of_not_mem hhost
  have hsx : scheme? (scheme ++ ':' :: '/' :: '/' :: (host ++ '/' :: more) ++ x) =
      some (scheme, '/' :: '/' :: (host ++ '/' :: (more ++ x))) := by
    refine scheme?_eq_some_iff.2 ⟨hscheme, ?_⟩
    simp
  rw [splitAuthority_of_scheme? hsx, splitAuthority_of_scheme? hs,
    List.takeWhile_append_of_pos hall, List.takeWhile_append_of_pos hall,
    List.dropWhile_append_of_pos hall, List.dropWhile_append_of_pos hall]
  simp

theorem splitAuthority_append_of_no_scheme
    (hnone : ∀ scheme rest, scheme? path ≠ some (scheme, '/' :: '/' :: rest)) (hpath : '/' ∈ path)
    (hx : x.head? ≠ some '/') : splitAuthority (path ++ x) = ([], path ++ x) := by
  rcases splitAuthority_cases (path ++ x) with ⟨scheme, rest, hs⟩ | ⟨-, h⟩
  · -- The scheme would end in front of the first separator of `path`.
    obtain ⟨hscheme, heq⟩ := scheme?_eq_some_iff.1 hs
    obtain ⟨first, more, rfl, hfirst⟩ := List.eq_append_cons_of_mem hpath
    have hcolon : '/' ∉ scheme ++ [':'] := by simp [hscheme.slash_not_mem]
    rw [List.append_assoc, List.cons_append] at heq
    obtain ⟨rfl, hmore⟩ := append_slash_inj (z := '/' :: rest) hfirst hcolon
      (heq.trans (List.append_cons ..))
    cases more with
    | nil =>
      rw [List.nil_append] at hmore
      rw [hmore] at hx
      exact absurd rfl hx
    | cons c more =>
      obtain ⟨rfl, -⟩ := List.cons.inj hmore
      refine absurd (scheme?_eq_some_iff.2 ⟨hscheme, ?_⟩) (hnone scheme more)
      rw [List.append_assoc, List.singleton_append]
  · exact h

theorem splitAuthority_base_append (h : ¬IsHostless directory) (hx : IsPlain x) :
    splitAuthority (base directory ++ x) =
      ((splitAuthority (base directory)).1, (splitAuthority (base directory)).2 ++ x) := by
  by_cases hne : directory = []
  · rw [base, if_pos hne]
    exact (splitAuthority_of_rooted hx.rooted).1
  have hhost := not_isHostless_base h
  obtain ⟨front, slashes, hbase, -⟩ := exists_base_eq hne
  rw [hbase] at hhost ⊢
  rcases splitAuthority_cases (front ++ ['/']) with ⟨scheme, rest, hs⟩ | ⟨hnone, hpath⟩
  · apply splitAuthority_append_of_scheme? hs
    rcases List.eq_nil_or_concat rest with rfl | ⟨more, c, rfl⟩
    · exact absurd ⟨scheme, [], hs, Or.inl rfl⟩ hhost
    · have heq := (scheme?_eq_some_iff.1 hs).2
      rw [List.concat_eq_append] at heq ⊢
      have hsplit := heq.trans (List.append_assoc scheme (':' :: '/' :: '/' :: more) [c]).symm
      obtain rfl := (List.append_singleton_inj.1 hsplit).2
      exact List.mem_append_right _ (List.mem_singleton_self _)
  · rw [hpath]
    exact splitAuthority_append_of_no_scheme hnone (by simp) hx.first

/-! ## The normal form of a join -/

section Base

variable (h : ¬IsHostless directory) (hx : IsPlain x)

include h hx

theorem rooted_base_append : rooted (base directory ++ x) = rooted (base directory) := by
  rw [rooted, splitAuthority_base_append h hx, rooted]
  cases hrest : (splitAuthority (base directory)).2 with
  | nil => simp [hx.first]
  | cons c rest => simp

theorem root_base_append : root (base directory ++ x) = root (base directory) := by
  rw [root, rooted_base_append h hx, splitAuthority_base_append h hx, root]

theorem kept_base_append : kept (base directory ++ x) =
    walk (rooted (base directory)) (kept (base directory)) x := by
  rw [kept, rooted_base_append h hx, splitAuthority_base_append h hx, kept]
  rcases List.eq_nil_or_concat (splitAuthority (base directory)).2 with hrest | ⟨more, c, hrest⟩
  · rw [hrest]
    rfl
  · rw [List.concat_eq_append] at hrest
    obtain rfl : c = '/' := by
      have hall := splitAuthority_append_eq (base directory)
      rw [hrest, ← List.append_assoc] at hall
      by_cases hne : directory = []
      · rw [base, if_pos hne] at hall
        simp at hall
      · obtain ⟨front, slashes, hbase, -⟩ := exists_base_eq hne
        exact (List.append_singleton_inj.1 (hall.trans hbase)).2
    rw [hrest, List.append_assoc, List.singleton_append, walk_append_slash, walk_concat_slash]

omit h in
theorem closes_base_append : closes (base directory ++ x) = false :=
  closes_eq_false (hx.getLast?_append_ne _)

end Base

/-- **Normal form below a directory.** A relative reference may be brought to its normal form before
a directory is put in front of it. -/
theorem join_normalize (h : ¬IsHostless directory) (hx : IsPlain x) :
    join directory (normalize x) = join directory x := by
  have hn := hx.normalize
  rw [join_eq_normalize hn.isAbsolute hn.ne_nil, join_eq_normalize hx.isAbsolute hx.ne_nil]
  apply normalize_congr
  · rw [root_base_append h hn, root_base_append h hx]
  · rw [kept_base_append h hn, kept_base_append h hx, hx.walk_normalize]
  · rw [closes_base_append hn, closes_base_append hx]

theorem head?_base_append (h : directory.head? = some '/') (x : Text) :
    (base directory ++ x).head? = some '/' := by
  have hne : directory ≠ [] := by
    rintro rfl
    exact Option.some_ne_none _ h.symm
  obtain ⟨front, slashes, hbase, rfl, -⟩ := exists_base_eq hne
  rw [hbase]
  cases front with
  | nil => rfl
  | cons c front => exact h

end Provenance.Path
