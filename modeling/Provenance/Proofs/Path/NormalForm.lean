import Provenance.Proofs.Path.Folding

/-!
# Normal form

A reference has a root, which is its authority and the separator in front of its first segment, and
the segments that are kept. Its normal form is written from these, and has the same.

* `Path.scheme?_eq_some_iff` : the scheme that a reference begins with;
* `Path.root`, `Path.kept`, `Path.tail` : what makes up the normal form;
  `Path.normalize_eq` : it is written from these;
* `Path.root_append`, `Path.kept_append` : a text behind a root of its own;
* `Path.normalize_normalize` : normal form is reached in one step.
-/

namespace Provenance.Path

variable {path scheme rest f g s y z : Text} {segments : List Text}

/-! ## Schemes -/

def IsScheme (s : Text) : Prop :=
  ∃ c t, s = c :: t ∧ c.isAlpha = true ∧ ∀ d ∈ t, isSchemeChar d = true

theorem scheme?_eq_some_iff :
    scheme? path = some (scheme, rest) ↔ IsScheme scheme ∧ path = scheme ++ ':' :: rest := by
  constructor
  · intro h
    cases path with
    | nil => simp [scheme?] at h
    | cons c t =>
      have hsplit := List.takeWhile_append_dropWhile (p := isSchemeChar) (l := t)
      rw [scheme?] at h
      split at h
      · next hc =>
        split at h
        · next tail heq =>
          obtain ⟨rfl, rfl⟩ := Prod.mk.inj (Option.some.inj h)
          refine ⟨⟨c, _, rfl, hc, List.all_eq_true.1 List.all_takeWhile⟩, ?_⟩
          rw [heq] at hsplit
          rw [List.cons_append, hsplit]
        · simp at h
      · simp at h
  · rintro ⟨⟨c, t, rfl, hc, ht⟩, rfl⟩
    have hcolon : isSchemeChar ':' = false := by decide
    rw [List.cons_append, scheme?, if_pos hc, List.dropWhile_append_of_pos ht,
      List.takeWhile_append_of_pos ht, List.dropWhile_cons_of_neg (by simp [hcolon]),
      List.takeWhile_cons_of_neg (by simp [hcolon]), List.append_nil]
    rfl

theorem IsScheme.slash_not_mem (h : IsScheme s) : '/' ∉ s := by
  obtain ⟨c, t, rfl, hc, ht⟩ := h
  rw [List.mem_cons, not_or]
  constructor
  · rintro rfl
    exact absurd hc (by decide)
  · intro hmem
    exact absurd (ht _ hmem) (by decide)

/-- A text is cut at its first separator in one way. -/
theorem append_slash_inj (hf : '/' ∉ f) (hg : '/' ∉ g) (h : f ++ '/' :: y = g ++ '/' :: z) :
    f = g ∧ y = z := by
  have hsplit := congrArg (List.splitOn '/') h
  rw [List.splitOn_append_cons_self_of_not_mem hf, List.splitOn_append_cons_self_of_not_mem hg]
    at hsplit
  obtain rfl := (List.cons.inj hsplit).1
  exact ⟨rfl, (List.cons.inj (List.append_cancel_left h)).2⟩

theorem bne_slash_of_not_mem (h : '/' ∉ s) : ∀ c ∈ s, (c != '/') = true := by
  intro c hc
  rw [bne_iff_ne]
  rintro rfl
  exact h hc

/-! ## Authorities -/

theorem splitAuthority_of_scheme? (h : scheme? path = some (scheme, '/' :: '/' :: rest)) :
    splitAuthority path = (scheme ++ ':' :: '/' :: '/' :: rest.takeWhile (· != '/'),
      rest.dropWhile (· != '/')) := by
  rw [splitAuthority, h]
  rfl

/-- A reference is a URL with two separators behind its scheme, or it has no authority. -/
theorem splitAuthority_cases (path : Text) :
    (∃ scheme rest, scheme? path = some (scheme, '/' :: '/' :: rest)) ∨
      (∀ scheme rest, scheme? path ≠ some (scheme, '/' :: '/' :: rest)) ∧
        splitAuthority path = ([], path) := by
  by_cases h : ∃ scheme rest, scheme? path = some (scheme, '/' :: '/' :: rest)
  · exact Or.inl h
  · have hnone : ∀ scheme rest, scheme? path ≠ some (scheme, '/' :: '/' :: rest) :=
      fun scheme rest hs => h ⟨scheme, rest, hs⟩
    refine Or.inr ⟨hnone, ?_⟩
    unfold splitAuthority
    split
    · next hs => exact absurd hs (hnone _ _)
    · rfl

theorem splitAuthority_append_eq (path : Text) :
    (splitAuthority path).1 ++ (splitAuthority path).2 = path := by
  rcases splitAuthority_cases path with ⟨scheme, rest, h⟩ | ⟨-, h⟩
  · rw [splitAuthority_of_scheme? h, (scheme?_eq_some_iff.1 h).2]
    simp only [List.append_assoc, List.cons_append, List.takeWhile_append_dropWhile]
  · rw [h, List.nil_append]

/-! ## The parts of a normal form -/

/-- A reference has a root if it has an authority or begins with a separator. -/
def rooted (path : Text) : Bool :=
  decide ((splitAuthority path).1 ≠ []) || (splitAuthority path).2.head? == some '/'

/-- The part of a reference that nothing is above. -/
def root (path : Text) : Text := (splitAuthority path).1 ++ if rooted path then ['/'] else []

/-- The segments of a reference that do not fold away, the last one first. -/
def kept (path : Text) : List Text := walk (rooted path) [] (splitAuthority path).2

/-- The normal form of a reference ends in a separator. -/
def closes (path : Text) : Bool :=
  decide (1 < (splitAuthority path).2.length) && (splitAuthority path).2.getLast? == some '/' &&
    !(kept path).isEmpty

def tail (path : Text) : Text :=
  ['/'].intercalate (kept path).reverse ++ if closes path then ['/'] else []

theorem normalize_eq (path : Text) :
    normalize path = if root path ++ tail path = [] then here else root path ++ tail path := by
  have hcloses : closes path = (decide (1 < (splitAuthority path).2.length) &&
      (splitAuthority path).2.getLast? == some '/' && !(kept path).reverse.isEmpty) := by
    rw [closes, List.isEmpty_reverse]
  rw [tail, hcloses, ← List.append_assoc]
  rfl

theorem tail_of_closes_eq_false (h : closes path = false) :
    tail path = ['/'].intercalate (kept path).reverse := by
  rw [tail, h, if_neg Bool.false_ne_true, List.append_nil]

theorem normalize_congr {p q : Text} (hroot : root p = root q) (hkept : kept p = kept q)
    (hcloses : closes p = closes q) : normalize p = normalize q := by
  rw [normalize_eq, normalize_eq, tail, tail, hroot, hkept, hcloses]

theorem kept_kept (path : Text) : Kept (rooted path) (kept path) := kept_nil.walk _

theorem foldl_push_reverse_kept (path : Text) :
    (kept path).reverse.foldl (push (rooted path)) [] = kept path :=
  foldl_push_reverse_walk (fun h => ⟨h, rfl⟩) _

theorem closes_eq_false (h : path.getLast? ≠ some '/') : closes path = false := by
  have hlast : (splitAuthority path).2.getLast? ≠ some '/' := by
    intro hlast
    apply h
    rw [← splitAuthority_append_eq path, List.getLast?_append, hlast, Option.some_or]
  rw [closes, beq_eq_false_iff_ne.2 hlast, Bool.and_false, Bool.false_and]

/-! ## Without a root -/

theorem rooted_eq_true_iff : rooted path = true ↔ path.head? = some '/' ∨
    ∃ scheme rest, IsScheme scheme ∧ path = scheme ++ ':' :: '/' :: '/' :: rest := by
  simp only [← scheme?_eq_some_iff, rooted, Bool.or_eq_true, decide_eq_true_eq, beq_iff_eq]
  rcases splitAuthority_cases path with ⟨scheme, rest, h⟩ | ⟨hnone, h⟩
  · refine iff_of_true (Or.inl ?_) (Or.inr ⟨scheme, rest, h⟩)
    rw [splitAuthority_of_scheme? h]
    exact List.append_ne_nil_of_right_ne_nil _ (List.cons_ne_nil _ _)
  · have hno : ¬∃ scheme rest, scheme? path = some (scheme, '/' :: '/' :: rest) :=
      fun ⟨scheme, rest, hs⟩ => hnone scheme rest hs
    simp [h, hno]

theorem splitAuthority_of_rooted (h : rooted path = false) :
    splitAuthority path = ([], path) ∧ path.head? ≠ some '/' := by
  rw [← Bool.not_eq_true, rooted_eq_true_iff, not_or] at h
  rcases splitAuthority_cases path with ⟨scheme, rest, hs⟩ | ⟨-, hpath⟩
  · exact absurd ⟨scheme, rest, scheme?_eq_some_iff.1 hs⟩ h.2
  · exact ⟨hpath, h.1⟩

theorem head?_append_slash_ne (hne : f ≠ []) (hf : '/' ∉ f) (y : Text) :
    (f ++ '/' :: y).head? ≠ some '/' := by
  obtain ⟨c, t, rfl⟩ := List.exists_cons_of_ne_nil hne
  rw [List.mem_cons, not_or] at hf
  rw [List.cons_append, List.head?_cons, ne_eq, Option.some.injEq]
  exact Ne.symm hf.1

theorem getLast?_append_ne (hne : f ≠ []) (hf : '/' ∉ f) (y : Text) :
    (y ++ f).getLast? ≠ some '/' := by
  rw [List.getLast?_append, List.getLast?_eq_some_getLast hne, Option.some_or]
  exact fun h => hf (Option.some.inj h ▸ List.getLast_mem hne)

/-- A segment and a separator begin no URL: those have two separators behind their scheme. -/
theorem rooted_append_slash (hne : f ≠ []) (hf : '/' ∉ f) (hy : y.head? ≠ some '/') :
    rooted (f ++ '/' :: y) = false := by
  rw [← Bool.not_eq_true, rooted_eq_true_iff, not_or]
  refine ⟨head?_append_slash_ne hne hf y, ?_⟩
  rintro ⟨scheme, rest, hs, heq⟩
  have hslash : '/' ∉ scheme ++ [':'] := by
    simp [hs.slash_not_mem]
  obtain ⟨-, rfl⟩ := append_slash_inj (z := '/' :: rest) hf hslash (heq.trans (List.append_cons ..))
  exact hy rfl

theorem rooted_of_slash_not_mem (h : '/' ∉ path) : rooted path = false := by
  rw [← Bool.not_eq_true, rooted_eq_true_iff, not_or]
  constructor
  · exact fun hhead => h (List.mem_of_head? hhead)
  · rintro ⟨scheme, rest, -, rfl⟩
    simp at h

theorem head?_flatMap_append_ne (h : ∀ s ∈ segments, s ≠ [] ∧ '/' ∉ s) (hy : y.head? ≠ some '/') :
    (segments.flatMap (· ++ ['/']) ++ y).head? ≠ some '/' := by
  cases segments with
  | nil => exact hy
  | cons s segments =>
    obtain ⟨hne, hs⟩ := h s List.mem_cons_self
    rw [List.flatMap_cons, List.append_assoc, List.append_assoc]
    exact head?_append_slash_ne hne hs _

theorem rooted_flatMap_append (h : ∀ s ∈ segments, s ≠ [] ∧ '/' ∉ s) (hy : rooted y = false) :
    rooted (segments.flatMap (· ++ ['/']) ++ y) = false := by
  cases segments with
  | nil => exact hy
  | cons s segments =>
    obtain ⟨⟨hne, hs⟩, hmore⟩ := List.forall_mem_cons.1 h
    rw [List.flatMap_cons, List.append_assoc, List.append_assoc]
    exact rooted_append_slash hne hs
      (head?_flatMap_append_ne hmore (splitAuthority_of_rooted hy).2)

/-! ## Behind a root -/

theorem splitAuthority_root_append (path : Text) (hy : rooted y = false) :
    splitAuthority (root path ++ y) =
      ((splitAuthority path).1, (if rooted path then ['/'] else []) ++ y) := by
  rcases splitAuthority_cases path with ⟨scheme, rest, h⟩ | ⟨-, h⟩
  · have hrooted : rooted path = true :=
      rooted_eq_true_iff.2 (Or.inr ⟨scheme, rest, scheme?_eq_some_iff.1 h⟩)
    have hhost : ∀ c ∈ rest.takeWhile (· != '/'), (c != '/') = true :=
      List.all_eq_true.1 List.all_takeWhile
    have hscheme : scheme? (root path ++ y) =
        some (scheme, '/' :: '/' :: (rest.takeWhile (· != '/') ++ '/' :: y)) := by
      refine scheme?_eq_some_iff.2 ⟨(scheme?_eq_some_iff.1 h).1, ?_⟩
      rw [root, hrooted, splitAuthority_of_scheme? h]
      simp
    rw [splitAuthority_of_scheme? hscheme, splitAuthority_of_scheme? h, hrooted,
      List.takeWhile_append_of_pos hhost, List.dropWhile_append_of_pos hhost]
    simp
  · rw [root, h]
    cases rooted path with
    | true => rfl
    | false => exact (splitAuthority_of_rooted hy).1

variable (hy : rooted y = false)

include hy

theorem rooted_root_append (path : Text) : rooted (root path ++ y) = rooted path := by
  rw [rooted, splitAuthority_root_append path hy]
  by_cases h : (splitAuthority path).1 = []
  · cases hrooted : rooted path with
    | true => simp
    | false => simpa [h] using (splitAuthority_of_rooted hy).2
  · rw [rooted]
    simp [h]

theorem root_append (path : Text) : root (root path ++ y) = root path := by
  rw [root, rooted_root_append hy, splitAuthority_root_append path hy, root]

theorem kept_append (path : Text) : kept (root path ++ y) = walk (rooted path) [] y := by
  rw [kept, rooted_root_append hy, splitAuthority_root_append path hy]
  cases rooted path with
  | true => exact walk_slash y
  | false => rfl

omit hy

/-! ## Normal form of a normal form -/

theorem segment_of_mem_kept (path : Text) : ∀ s ∈ (kept path).reverse, s ≠ [] ∧ '/' ∉ s :=
  fun s hs =>
    have h := kept_kept path s (List.mem_reverse.1 hs)
    ⟨h.1, h.2.2.1⟩

theorem intercalate_ne_nil (h : ∀ s ∈ segments, s ≠ [] ∧ '/' ∉ s) (hne : segments ≠ []) :
    ['/'].intercalate segments ≠ [] ∧ (['/'].intercalate segments).getLast? ≠ some '/' := by
  rcases List.eq_nil_or_concat segments with rfl | ⟨front, last, rfl⟩
  · exact absurd rfl hne
  · rw [List.concat_eq_append] at h ⊢
    obtain ⟨hlast, hslash⟩ := h last (by simp)
    rw [intercalate_concat]
    exact ⟨List.append_ne_nil_of_right_ne_nil _ hlast, getLast?_append_ne hlast hslash _⟩

theorem rooted_tail (path : Text) : rooted (tail path) = false := by
  have hsegments := segment_of_mem_kept path
  have hempty : (kept path).reverse = [] → closes path = false := by
    intro h
    rw [closes, List.reverse_eq_nil_iff.1 h, List.isEmpty_nil, Bool.not_true, Bool.and_false]
  rw [tail]
  generalize (kept path).reverse = segments at hsegments hempty
  rcases List.eq_nil_or_concat segments with rfl | ⟨front, last, rfl⟩
  · rw [hempty rfl]
    rfl
  · rw [List.concat_eq_append] at hsegments ⊢
    rw [List.forall_mem_append, List.forall_mem_singleton] at hsegments
    obtain ⟨hfront, hne, hslash⟩ := hsegments
    rw [intercalate_concat, List.append_assoc]
    apply rooted_flatMap_append hfront
    cases closes path with
    | true => exact rooted_append_slash hne hslash (by simp)
    | false => exact rooted_of_slash_not_mem (by simpa using hslash)

theorem walk_tail (path : Text) : walk (rooted path) [] (tail path) = kept path := by
  have hwalk : walk (rooted path) [] (tail path) =
      walk (rooted path) [] (['/'].intercalate (kept path).reverse) := by
    rw [tail]
    split
    · exact walk_concat_slash _
    · rw [List.append_nil]
  rw [hwalk, walk_intercalate fun s hs => (segment_of_mem_kept path s hs).2,
    foldl_push_reverse_kept]

/-- A normal form ends in a separator if it is that of a reference whose normal form does. -/
theorem closes_root_append_tail (path : Text) : closes (root path ++ tail path) = closes path := by
  have htail := rooted_tail path
  -- Without a segment nothing closes; with one, it is the end of the text that tells.
  by_cases hkept : kept path = []
  · rw [closes, kept_append htail, walk_tail, closes, hkept, List.isEmpty_nil, Bool.not_true,
      Bool.and_false, Bool.and_false]
  obtain ⟨hne, hlast⟩ := intercalate_ne_nil (segment_of_mem_kept path)
    (mt List.reverse_eq_nil_iff.1 hkept)
  cases hcloses : closes path with
  | false =>
    apply closes_eq_false
    rw [tail_of_closes_eq_false hcloses, List.getLast?_append,
      List.getLast?_eq_some_getLast hne, Option.some_or, ← List.getLast?_eq_some_getLast hne]
    exact hlast
  | true =>
    have hpos := List.length_pos_iff.2 hne
    rw [closes, kept_append htail, walk_tail, splitAuthority_root_append path htail, tail, hcloses,
      if_pos rfl]
    simp only [← List.append_assoc, List.getLast?_concat, List.length_append, List.length_singleton]
    simp [hkept]
    omega

theorem rooted_normalize (path : Text) : rooted (normalize path) = rooted path := by
  rw [normalize_eq]
  split
  · next hnil =>
    rw [List.append_eq_nil_iff] at hnil
    cases hrooted : rooted path with
    | true => simp [root, hrooted] at hnil
    | false => rfl
  · exact rooted_root_append (rooted_tail path) path

/-- **Normal form is reached in one step.** -/
theorem normalize_normalize (path : Text) : normalize (normalize path) = normalize path := by
  rw [normalize_eq path]
  split
  · rfl
  · next hne =>
    have htail := rooted_tail path
    have hsame : tail (root path ++ tail path) = tail path := by
      rw [tail, kept_append htail, walk_tail, closes_root_append_tail, ← tail]
    rw [normalize_eq, root_append htail, hsame, if_neg hne]

theorem splitAuthority_of_head? (h : path.head? = some '/') : splitAuthority path = ([], path) := by
  rcases splitAuthority_cases path with ⟨scheme, rest, hs⟩ | ⟨-, hnone⟩
  · obtain ⟨⟨c, t, rfl, hc, -⟩, rfl⟩ := scheme?_eq_some_iff.1 hs
    obtain rfl : c = '/' := Option.some.inj h
    exact absurd hc (by decide)
  · exact hnone

end Provenance.Path
