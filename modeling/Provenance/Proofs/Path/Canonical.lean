import Provenance.Proofs.Path.NormalForm

/-!
# Normal form is canonical

Cut at its separators, a normal form shows the segments that are kept. In front of them stands the
separator of a root, if there is one, and behind them one that closes the path, if it did before.

* `Path.ClimbsFirst` : no name stands in front of what climbs; `Path.ClimbsFirst.walk` : so it is
  along any path;
* `Path.splitOn_tail`, `Path.exists_behind_normalize` : the segments of a normal form;
* `Path.isBelow_normalize` : a normal form stays below the root of the reference;
* `Path.separators_not_infix` : a text with separators that follow each other has an empty segment
  in its middle;
* `Path.normalize_canonical` : what a normal form looks like.
-/

namespace Provenance.Path

variable {rooted' : Bool} {stack segments : List Text} {path s t : Text}

/-! ## What climbs stands in front -/

/-- On a stack, which holds the last segment first, no name stands below what climbs. -/
def ClimbsFirst (stack : List Text) : Prop :=
  ∃ names n, stack = names ++ List.replicate n above ∧ above ∉ names

namespace ClimbsFirst

theorem nil : ClimbsFirst [] := ⟨[], 0, rfl, List.not_mem_nil⟩

theorem push (h : ClimbsFirst stack) (rooted' : Bool) (s : Text) :
    ClimbsFirst (push rooted' stack s) := by
  obtain ⟨names, n, rfl, hnames⟩ := h
  by_cases hstay : s = [] ∨ s = here
  · rw [Path.push, if_pos hstay]
    exact ⟨names, n, rfl, hnames⟩
  by_cases habove : s = above
  · subst habove
    cases names with
    | nil =>
      cases n with
      | zero =>
        cases rooted' with
        | true => exact nil
        | false => exact ⟨[], 1, rfl, hnames⟩
      | succ n =>
        rw [List.nil_append, List.replicate_succ, push_above_cons, if_pos rfl]
        cases rooted' with
        | true => exact ⟨[], n + 1, rfl, hnames⟩
        | false => exact ⟨[], n + 2, rfl, hnames⟩
    | cons last names =>
      rw [List.mem_cons, not_or] at hnames
      rw [List.cons_append, push_above_cons, if_neg (Ne.symm hnames.1)]
      exact ⟨names, n, rfl, hnames.2⟩
  · rw [not_or] at hstay
    rw [push_name hstay.1 hstay.2 habove]
    refine ⟨s :: names, n, rfl, ?_⟩
    rw [List.mem_cons, not_or]
    exact ⟨Ne.symm habove, hnames⟩

theorem foldl_push (h : ClimbsFirst stack) (rooted' : Bool) (segments : List Text) :
    ClimbsFirst (segments.foldl (Path.push rooted') stack) := by
  induction segments generalizing stack with
  | nil => exact h
  | cons s segments ih => exact ih (h.push rooted' s)

theorem walk (h : ClimbsFirst stack) (rooted' : Bool) (p : Text) :
    ClimbsFirst (walk rooted' stack p) := h.foldl_push rooted' _

/-- In the order of the path, what climbs stands in front of all names. -/
theorem exists_reverse_eq (h : ClimbsFirst stack) :
    ∃ n names, stack.reverse = List.replicate n above ++ names ∧ above ∉ names := by
  obtain ⟨names, n, rfl, hnames⟩ := h
  refine ⟨n, names.reverse, ?_, mt List.mem_reverse.1 hnames⟩
  rw [List.reverse_append, List.reverse_replicate]

end ClimbsFirst

/-! ## The segments of a normal form -/

/-- An empty segment where a separator stands at the end of a path. -/
def edge (b : Bool) : List Text := if b then [[]] else []

theorem normalize_ne_nil (path : Text) : normalize path ≠ [] := by
  rw [normalize_eq]
  split
  · exact List.cons_ne_nil _ _
  · assumption

theorem splitOn_slash_cons (t : Text) : ('/' :: t).splitOn '/' = [] :: t.splitOn '/' :=
  List.splitOn_append_cons_self [] t

theorem splitOn_tail (h : kept path ≠ []) :
    (tail path).splitOn '/' = (kept path).reverse ++ edge (closes path) := by
  have hsplit : (['/'].intercalate (kept path).reverse).splitOn '/' = (kept path).reverse :=
    List.splitOn_intercalate '/' (fun s hs => (segment_of_mem_kept path s hs).2)
      (mt List.reverse_eq_nil_iff.1 h)
  rw [tail]
  cases closes path with
  | true =>
    rw [if_pos rfl, List.splitOn_append_cons_self, hsplit]
    rfl
  | false =>
    rw [if_neg Bool.false_ne_true, List.append_nil, hsplit, edge, if_neg Bool.false_ne_true,
      List.append_nil]

theorem tail_ne_nil (h : kept path ≠ []) : tail path ≠ [] :=
  List.append_ne_nil_of_left_ne_nil (intercalate_ne_nil (segment_of_mem_kept path)
    (mt List.reverse_eq_nil_iff.1 h)).1 _

theorem tail_of_kept_eq_nil (h : kept path = []) : tail path = [] := by
  have hcloses : closes path = false := by
    rw [closes, h, List.isEmpty_nil, Bool.not_true, Bool.and_false]
  rw [tail_of_closes_eq_false hcloses, h]
  rfl

/-- A normal form has the authority of the reference. Behind that, it is `.` or a root where no
segment is kept, and else these segments between separators. -/
theorem exists_behind_normalize (path : Text) :
    ∃ rest, splitAuthority (normalize path) = ((splitAuthority path).1, rest) ∧
      (kept path = [] ∧ rooted path = false ∧ rest = here ∧ normalize path = here ∨
        kept path = [] ∧ rooted path = true ∧ rest = ['/'] ∨
        kept path ≠ [] ∧ rest = (if rooted path then ['/'] else []) ++ tail path ∧
          rest.splitOn '/' =
            edge (rooted path) ++ ((kept path).reverse ++ edge (closes path))) := by
  have hsplit := splitAuthority_root_append path (rooted_tail path)
  by_cases hkept : kept path = []
  · rw [normalize_eq, tail_of_kept_eq_nil hkept, List.append_nil]
    rw [tail_of_kept_eq_nil hkept, List.append_nil, List.append_nil] at hsplit
    cases hrooted : rooted path with
    | false =>
      have hauthority := (splitAuthority_of_rooted hrooted).1
      rw [root, hrooted, hauthority]
      exact ⟨here, rfl, Or.inl ⟨hkept, rfl, rfl, rfl⟩⟩
    | true =>
      have hroot : root path ≠ [] := by
        rw [root, hrooted]
        exact List.append_ne_nil_of_right_ne_nil _ (List.cons_ne_nil _ _)
      rw [hrooted] at hsplit
      rw [if_neg hroot, hsplit]
      exact ⟨['/'], rfl, Or.inr (Or.inl ⟨hkept, rfl, rfl⟩)⟩
  · refine ⟨(if rooted path then ['/'] else []) ++ tail path, ?_,
      Or.inr (Or.inr ⟨hkept, rfl, ?_⟩)⟩
    · have hne := List.append_ne_nil_of_right_ne_nil (root path) (tail_ne_nil hkept)
      rw [normalize_eq, if_neg hne, hsplit]
    · cases rooted path with
      | true =>
        rw [if_pos rfl, List.singleton_append, splitOn_slash_cons, splitOn_tail hkept]
        rfl
      | false => exact splitOn_tail hkept

/-! ## Separators -/

theorem separators_not_infix (h : [] ∉ (t.splitOn '/').tail.dropLast) : ¬['/', '/'] <:+: t := by
  rintro ⟨a, b, rfl⟩
  apply h
  obtain ⟨first, more, ha⟩ := List.exists_cons_of_ne_nil (List.splitOn_ne_nil '/' a)
  obtain ⟨front, last, hb⟩ :=
    (List.eq_nil_or_concat (b.splitOn '/')).resolve_left (List.splitOn_ne_nil '/' b)
  rw [List.append_assoc, List.cons_append, List.cons_append, List.nil_append,
    List.splitOn_append_cons_self, splitOn_slash_cons, ha, hb, List.cons_append, List.tail_cons,
    List.concat_eq_append, ← List.cons_append, ← List.append_assoc, List.dropLast_concat]
  exact List.mem_append_right _ List.mem_cons_self

theorem mem_of_mem_dropLast_append_edge {b : Bool} (h : s ∈ (segments ++ edge b).dropLast) :
    s ∈ segments := by
  cases b with
  | true =>
    rw [edge, if_pos rfl, List.dropLast_concat] at h
    exact h
  | false =>
    rw [edge, if_neg Bool.false_ne_true, List.append_nil] at h
    exact List.dropLast_subset _ h

/-- In the middle, only the segments themselves are left of segments between separators. -/
theorem mem_of_mem_middle {b b' : Bool} (hne : segments ≠ [])
    (h : s ∈ (edge b ++ (segments ++ edge b')).tail.dropLast) : s ∈ segments := by
  cases b with
  | true => exact mem_of_mem_dropLast_append_edge h
  | false =>
    obtain ⟨first, more, rfl⟩ := List.exists_cons_of_ne_nil hne
    exact List.mem_cons_of_mem _ (mem_of_mem_dropLast_append_edge h)

theorem getLast?_tail_eq_iff (h : kept path ≠ []) :
    (tail path).getLast? = some '/' ↔ closes path = true := by
  obtain ⟨hne, hlast⟩ := intercalate_ne_nil (segment_of_mem_kept path)
    (mt List.reverse_eq_nil_iff.1 h)
  cases hcloses : closes path with
  | true =>
    rw [tail, hcloses, if_pos rfl, List.getLast?_concat]
    exact iff_of_true rfl rfl
  | false =>
    rw [tail_of_closes_eq_false hcloses]
    exact iff_of_false hlast Bool.false_ne_true

/-! ## Behind the authority -/

section Behind

variable {authority rest : Text} (h : splitAuthority (normalize path) = (authority, rest))

include h

theorem behind_normalize_cases :
    kept path = [] ∧ rooted path = false ∧ rest = here ∧ normalize path = here ∨
      kept path = [] ∧ rooted path = true ∧ rest = ['/'] ∨
      kept path ≠ [] ∧ rest = (if rooted path then ['/'] else []) ++ tail path ∧
        rest.splitOn '/' = edge (rooted path) ++ ((kept path).reverse ++ edge (closes path)) := by
  obtain ⟨rest', heq, hcases⟩ := exists_behind_normalize path
  obtain ⟨-, rfl⟩ := Prod.mk.inj (h.symm.trans heq)
  exact hcases

/-- Something stands behind an authority, if only the separator of the root. -/
theorem behind_normalize_ne_nil : rest ≠ [] := by
  rcases behind_normalize_cases h with ⟨-, -, rfl, -⟩ | ⟨-, -, rfl⟩ | ⟨hkept, rfl, -⟩
  · exact List.cons_ne_nil _ _
  · exact List.cons_ne_nil _ _
  · exact List.append_ne_nil_of_right_ne_nil _ (tail_ne_nil hkept)

/-- The segments of a normal form behind its authority are those that are kept, but for empty ones
at the ends and for the `.` that stands for nothing at all. -/
theorem mem_splitOn_normalize (hs : s ∈ rest.splitOn '/') :
    s = [] ∨ s ∈ kept path ∨ s = here ∧ normalize path = here := by
  rcases behind_normalize_cases h with ⟨-, -, rfl, hhere⟩ | ⟨-, -, rfl⟩ | ⟨-, -, hsplit⟩
  · obtain rfl := List.mem_singleton.1 hs
    exact Or.inr (Or.inr ⟨rfl, hhere⟩)
  · rw [splitOn_slash_cons, List.splitOn_nil, List.mem_cons, List.mem_singleton, or_self] at hs
    exact Or.inl hs
  · have hedge : ∀ b, s ∈ edge b → s = [] := fun b hb => by
      cases b with
      | true => exact List.mem_singleton.1 hb
      | false => exact absurd hb List.not_mem_nil
    rw [hsplit, List.mem_append, List.mem_append, List.mem_reverse] at hs
    rcases hs with hs | hs | hs
    · exact Or.inl (hedge _ hs)
    · exact Or.inr (Or.inl hs)
    · exact Or.inl (hedge _ hs)

theorem eq_here_of_mem_normalize (hmem : here ∈ rest.splitOn '/') : normalize path = here := by
  rcases mem_splitOn_normalize h hmem with hs | hs | hs
  · exact absurd hs (List.cons_ne_nil _ _)
  · exact absurd rfl (kept_kept path here hs).2.1
  · exact hs.2

theorem above_notMem_normalize (hrooted : rooted path = true) : above ∉ rest.splitOn '/' := by
  intro hmem
  rcases mem_splitOn_normalize h hmem with hs | hs | hs
  · exact absurd hs (List.cons_ne_nil _ _)
  · exact (kept_kept path above hs).2.2.2 hrooted rfl
  · exact absurd hs.1 (by decide)

theorem exists_climbs_normalize :
    ∃ n names, rest.splitOn '/' = List.replicate n above ++ names ∧ above ∉ names ∧
      (n ≠ 0 → (normalize path).head? ≠ some '/' ∧ (splitAuthority path).1 = []) := by
  cases hrooted : rooted path with
  | true =>
    exact ⟨0, rest.splitOn '/', rfl, above_notMem_normalize h hrooted, fun hn => absurd rfl hn⟩
  | false =>
    have hfront : (normalize path).head? ≠ some '/' ∧ (splitAuthority path).1 = [] :=
      ⟨(splitAuthority_of_rooted ((rooted_normalize path).trans hrooted)).2,
        congrArg Prod.fst (splitAuthority_of_rooted hrooted).1⟩
    rcases behind_normalize_cases h with ⟨-, -, rfl, -⟩ | ⟨-, hr, -⟩ | ⟨-, -, hsplit⟩
    · exact ⟨0, [here], rfl, by decide, fun _ => hfront⟩
    · exact absurd (hr.symm.trans hrooted) Bool.noConfusion
    · obtain ⟨n, names, hkept, hnames⟩ :=
        (ClimbsFirst.nil.walk (rooted path) (splitAuthority path).2).exists_reverse_eq
      refine ⟨n, names ++ edge (closes path), ?_, ?_, fun _ => hfront⟩
      · rw [hsplit, hrooted, kept, hkept, List.append_assoc]
        rfl
      · rw [List.mem_append, not_or]
        exact ⟨hnames, by cases closes path <;> decide⟩

/-- A segment is left of a reference if its normal form has one. -/
theorem exists_segment_normalize_iff :
    (∃ s ∈ rest.splitOn '/', s ≠ [] ∧ s ≠ here) ↔ kept path ≠ [] := by
  constructor
  · rintro ⟨s, hs, hnil, hhere⟩ hkept
    rcases mem_splitOn_normalize h hs with hs | hs | hs
    · exact hnil hs
    · rw [hkept] at hs
      exact absurd hs List.not_mem_nil
    · exact hhere hs.1
  · intro hkept
    rcases behind_normalize_cases h with ⟨hnil, -⟩ | ⟨hnil, -⟩ | ⟨-, -, hsplit⟩
    · exact absurd hnil hkept
    · exact absurd hnil hkept
    · obtain ⟨s, more, hs⟩ := List.exists_cons_of_ne_nil hkept
      have hmem : s ∈ kept path := hs ▸ List.mem_cons_self
      obtain ⟨hnil, hhere, -⟩ := kept_kept path s hmem
      refine ⟨s, ?_, hnil, hhere⟩
      rw [hsplit]
      exact List.mem_append_right _ (List.mem_append_left _ (List.mem_reverse.2 hmem))

/-- A normal form ends in a separator if it closes, or if that is the separator of a root alone. -/
theorem getLast?_normalize_iff : rest = ['/'] ∨ (rest.getLast? = some '/' ↔
    1 < (splitAuthority path).2.length ∧ (splitAuthority path).2.getLast? = some '/' ∧
      kept path ≠ []) := by
  rcases behind_normalize_cases h with ⟨hkept, -, rfl, -⟩ | ⟨-, -, hrest⟩ | ⟨hkept, hrest, -⟩
  · exact Or.inr (iff_of_false (by decide) fun hc => hc.2.2 hkept)
  · exact Or.inl hrest
  · have htail := tail_ne_nil hkept
    rw [hrest, List.getLast?_append, List.getLast?_eq_some_getLast htail, Option.some_or,
      ← List.getLast?_eq_some_getLast htail, getLast?_tail_eq_iff hkept, closes]
    simp [hkept]

end Behind

/-- `path` goes on behind `authority` with a separator, and nothing in it climbs from there. -/
def IsBelow (authority path : Text) : Prop :=
  ∃ rest, path = authority ++ '/' :: rest ∧ above ∉ rest.splitOn '/'

theorem isBelow_normalize (h : rooted path = true) :
    IsBelow (splitAuthority path).1 (normalize path) := by
  obtain ⟨rest, heq, hcases⟩ := exists_behind_normalize path
  obtain ⟨below, rfl⟩ : ∃ below, rest = '/' :: below := by
    rcases hcases with ⟨-, hr, -⟩ | ⟨-, -, hrest⟩ | ⟨-, hrest, -⟩
    · exact absurd (hr.symm.trans h) Bool.noConfusion
    · exact ⟨[], hrest⟩
    · rw [h] at hrest
      exact ⟨_, hrest⟩
  refine ⟨below, ?_, fun hmem => ?_⟩
  · have happend := splitAuthority_append_eq (normalize path)
    rw [heq] at happend
    exact happend.symm
  · apply above_notMem_normalize heq h
    rw [splitOn_slash_cons]
    exact List.mem_cons_of_mem _ hmem

/-! ## Canonical form -/

/-- **Normal form is canonical.** It is its own normal form and it is not empty. It has the
authority of the reference, and something behind it. There no segment is `.`, unless that is all
there is, and no separator follows another one. What climbs stands in front, and only where there is neither a root
nor an authority. The separator of a root apart, it ends in a separator if what the reference has
behind its authority is more than a separator and ends in one, and a segment is left of it. -/
theorem normalize_canonical (path : Text) :
    normalize (normalize path) = normalize path ∧ normalize path ≠ [] ∧
      ∃ rest, splitAuthority (normalize path) = ((splitAuthority path).1, rest) ∧ rest ≠ [] ∧
        (here ∈ rest.splitOn '/' → normalize path = here) ∧
        ¬['/', '/'] <:+: rest ∧
        (∃ n names, rest.splitOn '/' = List.replicate n above ++ names ∧ above ∉ names ∧
          (n ≠ 0 → (normalize path).head? ≠ some '/' ∧ (splitAuthority path).1 = [])) ∧
        (rest = ['/'] ∨ (rest.getLast? = some '/' ↔
          1 < (splitAuthority path).2.length ∧ (splitAuthority path).2.getLast? = some '/' ∧
            ∃ s ∈ rest.splitOn '/', s ≠ [] ∧ s ≠ here)) := by
  obtain ⟨rest, heq, hcases⟩ := exists_behind_normalize path
  refine ⟨normalize_normalize path, normalize_ne_nil path, rest, heq, behind_normalize_ne_nil heq,
    eq_here_of_mem_normalize heq, ?_, exists_climbs_normalize heq, ?_⟩
  · apply separators_not_infix
    rcases hcases with ⟨-, -, rfl, -⟩ | ⟨-, -, rfl⟩ | ⟨hkept, -, hsplit⟩
    · decide
    · decide
    · intro hmem
      rw [hsplit] at hmem
      have hkept' : (kept path).reverse ≠ [] := mt List.reverse_eq_nil_iff.1 hkept
      exact (segment_of_mem_kept path [] (mem_of_mem_middle hkept' hmem)).1 rfl
  · rw [exists_segment_normalize_iff heq]
    exact getLast?_normalize_iff heq

end Provenance.Path
