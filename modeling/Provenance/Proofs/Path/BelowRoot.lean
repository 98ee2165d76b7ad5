import Provenance.Proofs.Path.Canonical
import Provenance.Proofs.Path.Joining
import Provenance.Proofs.Text.Cutting

/-!
# Below the root of a directory

A relative reference that is joined to a directory with a root stays below that root, with however
many `..`. Only a URL with nothing behind its scheme is no directory that one can stay below: the
separators at its end are those that make it a URL, and joining takes them off.

* `Path.IsBare` : the URLs with nothing behind their scheme;
* `Path.authority_base_append` : what is put behind any other directory leaves its authority;
* `Path.isBelow_join_iff` : what stays below the root of a directory.
-/

namespace Provenance.Path

variable {directory x : Text}

/-- A URL with an empty host, of which nothing is left without the separators at its end. -/
def IsBare (directory : Text) : Prop :=
  ∃ scheme rest, scheme? directory = some (scheme, '/' :: '/' :: rest) ∧ ∀ c ∈ rest, c = '/'

theorem not_isBare_of_head? (h : directory.head? = some '/') : ¬IsBare directory := by
  rintro ⟨scheme, rest, hs, -⟩
  obtain ⟨⟨c, t, rfl, hc, -⟩, rfl⟩ := scheme?_eq_some_iff.1 hs
  obtain rfl : c = '/' := Option.some.inj h
  exact absurd hc (by decide)

theorem base_append_slashes {front slashes : Text} (hne : front ≠ [])
    (hlast : front.getLast? ≠ some '/') (h : ∀ c ∈ slashes, c = '/') :
    base (front ++ slashes) = front ++ ['/'] := by
  have hall : ∀ c ∈ slashes.reverse, (c == '/') = true := fun c hc =>
    beq_iff_eq.2 (h c (List.mem_reverse.1 hc))
  have hstop : ∀ c ∈ front.reverse.head?, (c == '/') = false := by
    intro c hc
    rw [List.head?_reverse] at hc
    rw [beq_eq_false_iff_ne]
    rintro rfl
    exact hlast hc
  rw [base, if_neg (List.append_ne_nil_of_left_ne_nil hne _), List.reverse_append,
    List.dropWhile_append_of_pos hall, Text.dropWhile_eq_self_of_head? hstop, List.reverse_reverse]

theorem base_of_isBare (h : IsBare directory) :
    ∃ scheme, IsScheme scheme ∧ base directory = scheme ++ [':'] ++ ['/'] := by
  obtain ⟨scheme, rest, hs, hrest⟩ := h
  obtain ⟨hscheme, rfl⟩ := scheme?_eq_some_iff.1 hs
  refine ⟨scheme, hscheme, ?_⟩
  rw [List.append_cons]
  apply base_append_slashes (List.concat_ne_nil _ _)
  · rw [List.getLast?_concat]
    decide
  · simpa using hrest

/-- Behind a URL that is not bare, one separator stands in front of what is put there. -/
theorem base_url_append {scheme front slashes : Text} (hne : front ≠ [])
    (hlast : front.getLast? ≠ some '/') (h : ∀ c ∈ slashes, c = '/') (x : Text) :
    base (scheme ++ ':' :: '/' :: '/' :: (front ++ slashes)) ++ x =
      scheme ++ ':' :: '/' :: '/' :: (front ++ '/' :: x) := by
  have hsplit : scheme ++ ':' :: '/' :: '/' :: (front ++ slashes) =
      scheme ++ [':', '/', '/'] ++ front ++ slashes := by simp
  have hlast' : (scheme ++ [':', '/', '/'] ++ front).getLast? ≠ some '/' := by
    rwa [List.getLast?_append, List.getLast?_eq_some_getLast hne, Option.some_or,
      ← List.getLast?_eq_some_getLast hne]
  rw [hsplit, base_append_slashes (List.append_ne_nil_of_right_ne_nil _ hne) hlast' h]
  simp

/-- What is put behind a directory with a root leaves its authority, unless that is bare. -/
theorem authority_base_append (hrooted : rooted directory = true) (h : ¬IsBare directory)
    (x : Text) : rooted (base directory ++ x) = true ∧
      (splitAuthority (base directory ++ x)).1 = (splitAuthority directory).1 := by
  rcases rooted_eq_true_iff.1 hrooted with hhead | ⟨scheme, rest, hscheme, rfl⟩
  · have hhead' := head?_base_append hhead x
    rw [splitAuthority_of_head? hhead, splitAuthority_of_head? hhead']
    exact ⟨rooted_eq_true_iff.2 (Or.inl hhead'), rfl⟩
  · have hs : ∀ rest, scheme? (scheme ++ ':' :: '/' :: '/' :: rest) =
        some (scheme, '/' :: '/' :: rest) := fun rest => scheme?_eq_some_iff.2 ⟨hscheme, rfl⟩
    obtain ⟨c, hc, hne⟩ : ∃ c ∈ rest, c ≠ '/' := by
      by_contra hall
      exact h ⟨scheme, rest, hs rest, fun c hc => by_contra fun hne => hall ⟨c, hc, hne⟩⟩
    obtain ⟨front, slashes, -, rfl, hslashes, hlast⟩ := exists_base_eq (List.ne_nil_of_mem hc)
    have hfront : front ≠ [] := by
      rintro rfl
      exact hne (hslashes c hc)
    -- The host ends at a separator, be it one of the directory or the one that joining puts.
    have hstop : ∀ c ∈ slashes.head?, (c != '/') = false := fun c hc => by
      simp [hslashes c (List.mem_of_mem_head? hc)]
    have hstop' : ∀ c ∈ ('/' :: x).head?, (c != '/') = false := by
      rintro c ⟨⟩
      rfl
    rw [base_url_append hfront hlast hslashes, splitAuthority_of_scheme? (hs _),
      splitAuthority_of_scheme? (hs _), Text.takeWhile_append_of_head? hstop,
      Text.takeWhile_append_of_head? hstop']
    exact ⟨rooted_eq_true_iff.2 (Or.inr ⟨scheme, _, hscheme, rfl⟩), rfl⟩

/-- **What stays below the root of a directory.** A relative reference that is joined to a directory
with a root stays below it, unless the directory is bare. -/
theorem isBelow_join_iff (hrooted : rooted directory = true) (hx : isAbsolute x = false) :
    IsBelow (splitAuthority directory).1 (join directory x) ↔ x = [] ∨ ¬IsBare directory := by
  by_cases hnil : x = []
  · rw [hnil, join_nil]
    exact iff_of_true (isBelow_normalize hrooted) (Or.inl rfl)
  rw [join_eq_normalize hx hnil]
  by_cases hbare : IsBare directory
  · refine iff_of_false ?_ (not_or.2 ⟨hnil, not_not.2 hbare⟩)
    obtain ⟨scheme, hscheme, hbase⟩ := base_of_isBare hbare
    have hhead : x.head? ≠ some '/' := by
      rw [isAbsolute, Bool.or_eq_false_iff, beq_eq_false_iff_ne] at hx
      exact hx.1
    have hslash : '/' ∉ scheme ++ [':'] := by simp [hscheme.slash_not_mem]
    have hrootless : rooted (base directory ++ x) = false := by
      rw [hbase, List.append_assoc]
      exact rooted_append_slash (List.concat_ne_nil _ _) hslash hhead
    rintro ⟨rest, heq, -⟩
    obtain ⟨scheme', rest', hs, -⟩ := hbare
    rw [splitAuthority_of_scheme? hs] at heq
    have hrooted' : rooted (normalize (base directory ++ x)) = true :=
      rooted_eq_true_iff.2 (Or.inr ⟨scheme', _, (scheme?_eq_some_iff.1 hs).1, by simpa using heq⟩)
    rw [rooted_normalize, hrootless] at hrooted'
    exact Bool.false_ne_true hrooted'
  · obtain ⟨hbelow, hauthority⟩ := authority_base_append hrooted hbare x
    rw [← hauthority]
    exact iff_of_true (isBelow_normalize hbelow) (Or.inr hbare)

/-- The root of a bare URL is lost, and with it everything that would keep a reference below it. -/
theorem not_isBelow_join_bare :
    let directory := "webpack:///".toList
    splitAuthority directory = ("webpack://".toList, ['/']) ∧
      join directory "a.js".toList = "webpack:/a.js".toList ∧
      join directory "../../a.js".toList = "../a.js".toList ∧
      ¬IsBelow "webpack://".toList (join directory "a.js".toList) := by
  intro directory
  have hjoin : join directory "a.js".toList = "webpack:/a.js".toList := by decide
  refine ⟨by decide, hjoin, by decide, ?_⟩
  rintro ⟨rest, heq, -⟩
  rw [hjoin] at heq
  simp at heq

end Provenance.Path
