import Provenance.Proofs.Path.Joining
import Provenance.Proofs.Text.Cutting

/-!
# Directories of joined references

A file below a directory has a directory of its own. A reference can be joined to that, or first to
the directory of the file as it is known below, and the result to the directory above.

* `Path.dirname_cases` : a path is a name, or a name behind a directory;
* `Path.base_dirname_append` : the directory of a normal form is what stands in front of its name;
* `Path.base_dirname_join` : the directory of a file below a directory;
* `Path.join_join` : joining is associative over nested directories.
-/

namespace Provenance.Path

variable {directory name path front q s : Text}

/-! ## Names -/

theorem dirname_of_slash_not_mem (h : '/' ∉ name) : dirname name = [] := by
  have hall := bne_slash_of_not_mem (mt List.mem_reverse.1 h)
  rw [dirname, ← List.append_nil name.reverse, List.dropWhile_append_of_pos hall]
  rfl

theorem dirname_append_slash (h : '/' ∉ name) (front : Text) :
    dirname (front ++ '/' :: name) = if front = [] then ['/'] else front := by
  have hall := bne_slash_of_not_mem (mt List.mem_reverse.1 h)
  have hdrop : (front ++ '/' :: name).reverse.dropWhile (· != '/') = '/' :: front.reverse := by
    rw [List.reverse_append, List.reverse_cons, List.append_assoc,
      List.dropWhile_append_of_pos hall]
    rfl
  rw [dirname, hdrop]
  cases hfront : front.reverse with
  | nil =>
    rw [List.reverse_eq_nil_iff.1 hfront]
    rfl
  | cons c more =>
    have hne : front ≠ [] := by
      rintro rfl
      simp at hfront
    rw [if_neg hne, ← List.reverse_reverse front, hfront]
    rfl

theorem dirname_cases (path : Text) : ∃ name, '/' ∉ name ∧
    (path.splitOn '/').getLast? = some name ∧ (path = name ∧ dirname path = [] ∨
      ∃ front, path = front ++ '/' :: name ∧
        dirname path = if front = [] then ['/'] else front) := by
  by_cases h : '/' ∈ path
  · obtain ⟨name, front, hcut, hname⟩ := List.eq_append_cons_of_mem (List.mem_reverse.2 h)
    have hslash : '/' ∉ name.reverse := mt List.mem_reverse.1 hname
    obtain rfl : path = front.reverse ++ '/' :: name.reverse := by
      rw [← List.reverse_reverse path, hcut]
      simp
    refine ⟨name.reverse, hslash, ?_, Or.inr ⟨_, rfl, dirname_append_slash hslash _⟩⟩
    rw [List.splitOn_append_cons_self, List.splitOn_eq_singleton hslash, List.getLast?_concat]
  · refine ⟨path, h, ?_, Or.inl ⟨rfl, dirname_of_slash_not_mem h⟩⟩
    rw [List.splitOn_eq_singleton h]
    rfl

/-- The last segment of a path is pushed onto what its directory leads to. -/
theorem walk_eq_push_dirname (h : (path.splitOn '/').getLast? = some name) (rooted : Bool)
    (stack : List Text) :
    walk rooted stack path = push rooted (walk rooted stack (dirname path)) name := by
  obtain ⟨last, hslash, hlast, ⟨hpath, hdirname⟩ | ⟨front, hpath, hdirname⟩⟩ := dirname_cases path
  all_goals
    obtain rfl := Option.some.inj (h.symm.trans hlast)
    rw [hdirname]
  · rw [hpath, walk_of_not_mem hslash]
    rfl
  · rw [hpath, walk_append_slash, walk_of_not_mem hslash]
    split
    · next hnil =>
      rw [hnil]
      rfl
    · rfl

/-! ## The directory of a normal form -/

/-- What stands in front of a name, if it can be told from the directory that it is. -/
def IsTidy (q : Text) : Prop :=
  q = [] ∨ q = ['/'] ∨ ∃ front, q = front ++ ['/'] ∧ front ≠ [] ∧ front.getLast? ≠ some '/'

theorem base_dirname_append (h : '/' ∉ name) (hq : IsTidy q) :
    base (dirname (q ++ name)) = q := by
  rcases hq with rfl | rfl | ⟨front, rfl, hne, hlast⟩
  · rw [List.nil_append, dirname_of_slash_not_mem h]
    rfl
  · rw [List.singleton_append, ← List.nil_append ('/' :: name), dirname_append_slash h]
    rfl
  · have htrim : front.reverse.dropWhile (· == '/') = front.reverse := by
      apply Text.dropWhile_eq_self_of_head?
      intro c hc
      rw [List.head?_reverse] at hc
      rw [beq_eq_false_iff_ne]
      rintro rfl
      exact hlast hc
    rw [List.append_assoc, List.singleton_append, dirname_append_slash h, if_neg hne, base,
      if_neg hne, htrim, List.reverse_reverse]

theorem isTidy_root (h : ¬IsHostless path) : IsTidy (root path) := by
  rw [root]
  rcases splitAuthority_cases path with ⟨scheme, rest, hs⟩ | ⟨-, hpath⟩
  · have hrooted := rooted_eq_true_iff.2 (Or.inr ⟨scheme, rest, scheme?_eq_some_iff.1 hs⟩)
    -- Behind an empty host the root would end in three separators, and `base` takes them all off.
    have hhost : rest.takeWhile (· != '/') ≠ [] := by
      intro hnil
      apply h
      refine ⟨scheme, rest, hs, ?_⟩
      cases rest with
      | nil => exact Or.inl rfl
      | cons c rest =>
        by_cases hc : c = '/'
        · exact Or.inr (congrArg some hc)
        · rw [List.takeWhile_cons_of_pos (by simpa using hc)] at hnil
          exact absurd hnil (List.cons_ne_nil _ _)
    have hslash : '/' ∉ rest.takeWhile (· != '/') := by
      intro hmem
      have hall := List.all_eq_true.1 (List.all_takeWhile (p := (· != '/')) (l := rest))
      simpa using hall _ hmem
    rw [hrooted, if_pos rfl, splitAuthority_of_scheme? hs]
    refine Or.inr (Or.inr ⟨_, rfl, by simp, ?_⟩)
    have hlast := getLast?_append_ne hhost hslash (scheme ++ [':', '/', '/'])
    rwa [List.append_assoc] at hlast
  · rw [hpath]
    cases rooted path with
    | true => exact Or.inr (Or.inl rfl)
    | false => exact Or.inl rfl

theorem isTidy_root_append (h : ¬IsHostless path) {segments : List Text}
    (hs : ∀ s ∈ segments, s ≠ [] ∧ '/' ∉ s) :
    IsTidy (root path ++ segments.flatMap (· ++ ['/'])) := by
  rcases List.eq_nil_or_concat segments with rfl | ⟨front, last, rfl⟩
  · rw [List.flatMap_nil, List.append_nil]
    exact isTidy_root h
  · rw [List.concat_eq_append] at hs ⊢
    obtain ⟨hlast, hslash⟩ := hs last (by simp)
    refine Or.inr (Or.inr ⟨root path ++ front.flatMap (· ++ ['/']) ++ last, by simp, ?_, ?_⟩)
    · exact List.append_ne_nil_of_right_ne_nil _ hlast
    · exact getLast?_append_ne hlast hslash _

/-! ## Files below a directory -/

/-- A relative reference to a file: its last segment is a name. -/
structure IsFile (path : Text) : Prop where
  relative : isAbsolute path = false
  colon : ':' ∉ path
  name : ∀ name ∈ (path.splitOn '/').getLast?, name ≠ [] ∧ name ≠ here ∧ name ≠ above

/-- A reference that a file makes to a source: an absolute path, a URL, or a plain one. -/
def IsSource (s : Text) : Prop :=
  s.head? = some '/' ∨ (∃ scheme rest, IsScheme scheme ∧ s = scheme ++ ':' :: '/' :: '/' :: rest) ∨
    IsPlain s

theorem isSource_iff : IsSource s ↔ rooted s = true ∨ IsPlain s := by
  rw [IsSource, rooted_eq_true_iff, or_assoc]

instance (path : Text) : Decidable (IsFile path) :=
  decidable_of_iff (isAbsolute path = false ∧ ':' ∉ path ∧
      ∀ name ∈ (path.splitOn '/').getLast?, name ≠ [] ∧ name ≠ here ∧ name ≠ above)
    ⟨fun h => ⟨h.1, h.2.1, h.2.2⟩, fun h => ⟨h.relative, h.colon, h.name⟩⟩

instance (s : Text) : Decidable (IsSource s) := decidable_of_iff _ isSource_iff.symm

namespace IsFile

variable (h : IsFile path)

include h

theorem head?_ne : path.head? ≠ some '/' := by
  have hrelative := h.relative
  rw [isAbsolute, Bool.or_eq_false_iff, beq_eq_false_iff_ne] at hrelative
  exact hrelative.1

theorem isPlain : IsPlain path := by
  obtain ⟨name, hslash, hlast, hcut⟩ := dirname_cases path
  have hname := (h.name name hlast).1
  have hsplit : ∃ front, path = front ++ name := by
    rcases hcut with ⟨hpath, -⟩ | ⟨front, hpath, -⟩
    · exact ⟨[], hpath⟩
    · exact ⟨front ++ ['/'], by rw [hpath]; simp⟩
  obtain ⟨front, hpath⟩ := hsplit
  refine ⟨?_, h.head?_ne, ?_, h.colon⟩
  · rw [hpath]
    exact List.append_ne_nil_of_right_ne_nil _ hname
  · rw [hpath]
    exact getLast?_append_ne hname hslash front

/-- What is put behind the directory of a file is relative if the file is. -/
theorem isPlain_base_append (hs : IsPlain s) : IsPlain (base (dirname path) ++ s) := by
  obtain ⟨name, hslash, hlast, ⟨hpath, hdirname⟩ | ⟨front, hpath, hdirname⟩⟩ := dirname_cases path
  · rw [hdirname]
    exact hs
  · have hne : front ≠ [] := by
      rintro rfl
      exact h.head?_ne (congrArg List.head? hpath)
    obtain ⟨cut, slashes, hbase, hfront, hslashes, -⟩ := exists_base_eq hne
    -- A directory of separators alone would make the file absolute.
    have hcut : cut ≠ [] := by
      rintro rfl
      obtain ⟨c, more, hmore⟩ := List.exists_cons_of_ne_nil hne
      obtain rfl := hslashes c (by rw [← List.nil_append slashes, ← hfront, hmore]; simp)
      exact h.head?_ne (by rw [hpath, hmore]; rfl)
    have hhead : ∀ t, (cut ++ t).head? = cut.head? := fun t => by
      rw [List.head?_append, List.head?_eq_some_head hcut, Option.some_or]
    have hfirst := h.head?_ne
    rw [hpath, hfront, List.append_assoc, hhead] at hfirst
    rw [hdirname, if_neg hne, hbase]
    refine ⟨by simp, ?_, hs.getLast?_append_ne _, ?_⟩
    · rwa [List.append_assoc, hhead]
    · have hcolon := h.colon
      rw [hpath, hfront] at hcolon
      simp only [List.mem_append, not_or] at hcolon ⊢
      exact ⟨⟨hcolon.1.1, by decide⟩, hs.colon⟩

end IsFile

/-- The segments that are kept of the directory of `path` below `directory`. -/
def keptBelow (directory path : Text) : List Text :=
  walk (rooted (base directory)) (kept (base directory)) (dirname path)

theorem segment_of_mem_keptBelow (directory path : Text) :
    ∀ s ∈ (keptBelow directory path).reverse, s ≠ [] ∧ '/' ∉ s := by
  intro s hs
  have h := (kept_kept (base directory)).walk (dirname path) s (List.mem_reverse.1 hs)
  exact ⟨h.1, h.2.2.1⟩

theorem foldl_push_reverse_keptBelow (directory path : Text) :
    (keptBelow directory path).reverse.foldl (push (rooted (base directory))) [] =
      keptBelow directory path := by
  rw [keptBelow, kept, ← walk_append_slash]
  exact foldl_push_reverse_walk (fun h => ⟨h, rfl⟩) _

section Below

variable (hd : ¬IsHostless directory) (hf : IsFile path)

include hd hf

/-- Below a directory, a file has the directory that its own one leads to from there. -/
theorem base_dirname_join : base (dirname (join directory path)) =
    root (base directory) ++ (keptBelow directory path).reverse.flatMap (· ++ ['/']) := by
  obtain ⟨name, hslash, hlast, -⟩ := dirname_cases path
  obtain ⟨hnil, hhere, habove⟩ := hf.name name hlast
  have hplain := hf.isPlain
  have hkept : kept (base directory ++ path) = name :: keptBelow directory path := by
    rw [kept_base_append hd hplain, walk_eq_push_dirname hlast, push_name hnil hhere habove,
      keptBelow]
  have htail : tail (base directory ++ path) =
      (keptBelow directory path).reverse.flatMap (· ++ ['/']) ++ name := by
    rw [tail_of_closes_eq_false (closes_base_append hplain), hkept, List.reverse_cons,
      intercalate_concat]
  rw [join_eq_normalize hplain.isAbsolute hplain.ne_nil, normalize_eq, htail,
    root_base_append hd hplain, if_neg (by simp [hnil]), ← List.append_assoc]
  exact base_dirname_append hslash
    (isTidy_root_append (not_isHostless_base hd) (segment_of_mem_keptBelow directory path))

theorem join_join_of_isPlain (hs : IsPlain s) :
    join directory (join (dirname path) s) = join (dirname (join directory path)) s := by
  have hbelow := hf.isPlain_base_append hs
  have hsegments := segment_of_mem_keptBelow directory path
  have hrooted := rooted_flatMap_append hsegments hs.rooted
  rw [join_eq_normalize hs.isAbsolute hs.ne_nil, join_normalize hd hbelow,
    join_eq_normalize hbelow.isAbsolute hbelow.ne_nil, join_eq_normalize hs.isAbsolute hs.ne_nil,
    base_dirname_join hd hf, List.append_assoc]
  apply normalize_congr
  · rw [root_base_append hd hbelow, root_append hrooted]
  · rw [kept_base_append hd hbelow, walk_base_append, kept_append hrooted,
      walk_flatMap_append fun s hs => (hsegments s hs).2, foldl_push_reverse_keptBelow, keptBelow]
  · rw [closes_base_append hbelow, ← List.append_assoc, closes_eq_false (hs.getLast?_append_ne _)]

/-- **Joining is associative.** A reference that is joined to the directory of a file, and the
result to the directory that the file is below, ends up where it does when the file is joined
first. -/
theorem join_join (hs : IsSource s) :
    join directory (join (dirname path) s) = join (dirname (join directory path)) s := by
  rcases isSource_iff.1 hs with hs | hs
  · have hnormal : isAbsolute (normalize s) = true :=
      isAbsolute_of_rooted ((rooted_normalize s).trans hs)
    rw [join_of_isAbsolute (isAbsolute_of_rooted hs), join_of_isAbsolute hnormal,
      join_of_isAbsolute (isAbsolute_of_rooted hs), normalize_normalize]
  · exact join_join_of_isPlain hd hf hs

end Below

end Provenance.Path
