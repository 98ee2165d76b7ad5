import Mathlib.Data.List.Infix
import Provenance.Proofs.Path.Canonical
import Provenance.Proofs.Path.Joining

/-!
# Climbing above the first segment

Folding knows no root but a separator and an authority. Of a reference with a scheme alone, as in
`webpack:/a.js`, the scheme is part of the first segment, and `..` takes it back like any other.

* `Path.ClimbsOut`, `Path.Returns` : where a path leads, told by counting;
* `Path.foldl_push_of_not_climbsOut`, `Path.above_mem_of_climbsOut` : folding follows the count;
* `Path.StaysFirst` : the segment that a normal form begins with;
  `Path.getLast?_foldl_push_eq_iff` : it stands at the bottom of the stack;
* `Path.isAbsolute_normalize_eq_iff` : when a normal form is absolute, and when its scheme stays.
-/

namespace Provenance.Path

variable {height : Nat} {stack segments : List Text} {path s w : Text}

/-! ## Counting -/

/-- A segment that is a name: it is not passed over and does not climb. -/
def isName (s : Text) : Bool := s ≠ [] && s ≠ here && s ≠ above

/-- From below `height` names, somewhere along the segments there have been more that climb than
names to take back. -/
def ClimbsOut (height : Nat) (segments : List Text) : Prop :=
  ∃ front, front <+: segments ∧ height + front.countP isName < front.count above

/-- The segments lead back to where they begin, without climbing out of that. -/
def Returns (segments : List Text) : Prop :=
  ¬ClimbsOut 0 segments ∧ segments.countP isName = segments.count above

instance (height : Nat) (segments : List Text) : Decidable (ClimbsOut height segments) :=
  decidable_of_iff (∃ front ∈ segments.inits, height + front.countP isName < front.count above)
    (by simp only [ClimbsOut, List.mem_inits])

instance (segments : List Text) : Decidable (Returns segments) := inferInstanceAs (Decidable (_ ∧ _))

theorem isName_eq_true_iff : isName s = true ↔ s ≠ [] ∧ s ≠ here ∧ s ≠ above := by
  simp [isName, and_assoc]

theorem not_climbsOut_nil : ¬ClimbsOut height [] := by
  rintro ⟨front, hfront, hlt⟩
  rw [List.prefix_nil.1 hfront] at hlt
  exact Nat.not_lt_zero _ hlt

theorem climbsOut_cons_iff : ClimbsOut height (s :: segments) ↔ ∃ front, front <+: segments ∧
    height + (s :: front).countP isName < (s :: front).count above := by
  constructor
  · rintro ⟨front, hfront, hlt⟩
    rcases List.prefix_cons_iff.1 hfront with rfl | ⟨more, rfl, hmore⟩
    · exact absurd hlt (Nat.not_lt_zero _)
    · exact ⟨more, hmore, hlt⟩
  · rintro ⟨front, hfront, hlt⟩
    exact ⟨s :: front, List.prefix_cons_iff.2 (Or.inr ⟨front, rfl, hfront⟩), hlt⟩

/-- Behind a segment, the names in front are those that it leaves. -/
theorem climbsOut_cons_iff_of_add_eq {height' : Nat}
    (h : height' + [s].count above = height + [s].countP isName) :
    ClimbsOut height (s :: segments) ↔ ClimbsOut height' segments := by
  rw [climbsOut_cons_iff]
  refine exists_congr fun front => and_congr_right fun _ => ?_
  rw [← List.singleton_append, List.countP_append, List.count_append]
  omega

theorem climbsOut_zero_above : ClimbsOut 0 (above :: segments) :=
  climbsOut_cons_iff.2 ⟨[], List.nil_prefix, by decide⟩

theorem climbsOut_concat_iff {last : Text} : ClimbsOut height (segments ++ [last]) ↔
    ClimbsOut height segments ∨ height + (segments ++ [last]).countP isName <
      (segments ++ [last]).count above := by
  simp only [ClimbsOut, List.prefix_concat_iff, or_and_right, exists_or, exists_eq_left]
  exact Or.comm

/-! ## Folding follows the count -/

/-- A step from a stack of names, unless it climbs out of it: names are left over, whatever stands
below stays as it is, and the count is kept. -/
theorem push_names (h : above ∉ stack) (hs : s = above → stack ≠ []) :
    above ∉ push false stack s ∧
      (push false stack s).length + [s].count above = stack.length + [s].countP isName ∧
      ∀ r bottom, push r (stack ++ bottom) s = push false stack s ++ bottom := by
  by_cases hstay : s = [] ∨ s = here
  · have hpush : ∀ r stack, push r stack s = stack := fun r stack => if_pos hstay
    simp only [hpush, implies_true, and_true]
    refine ⟨h, ?_⟩
    rcases hstay with rfl | rfl <;> rfl
  by_cases habove : s = above
  · subst habove
    obtain ⟨last, before, rfl⟩ := List.exists_cons_of_ne_nil (hs rfl)
    rw [List.mem_cons, not_or] at h
    simp only [List.cons_append, push_above_cons, if_neg (Ne.symm h.1), implies_true, and_true]
    exact ⟨h.2, rfl⟩
  · rw [not_or] at hstay
    have hpush : ∀ r stack, push r stack s = s :: stack :=
      fun r stack => push_name hstay.1 hstay.2 habove
    have hname : isName s = true := isName_eq_true_iff.2 ⟨hstay.1, hstay.2, habove⟩
    simp only [hpush, List.cons_append, implies_true, and_true]
    refine ⟨?_, ?_⟩
    · rw [List.mem_cons, not_or]
      exact ⟨Ne.symm habove, h⟩
    · rw [List.count_cons_of_ne habove, List.countP_cons_of_pos hname, List.length_cons]
      rfl

/-- **Without climbing out, segments move only what they have put on the stack themselves.** What
stands below stays as it is, and the names that are left over are on top of it. -/
theorem foldl_push_of_not_climbsOut (h : above ∉ stack)
    (hclimb : ¬ClimbsOut stack.length segments) :
    above ∉ segments.foldl (push false) stack ∧
      (segments.foldl (push false) stack).length + segments.count above =
        stack.length + segments.countP isName ∧
      ∀ r bottom, segments.foldl (push r) (stack ++ bottom) =
        segments.foldl (push false) stack ++ bottom := by
  induction segments generalizing stack with
  | nil => exact ⟨h, rfl, fun _ _ => rfl⟩
  | cons s segments ih =>
    have hs : s = above → stack ≠ [] := by
      rintro rfl rfl
      exact hclimb climbsOut_zero_above
    obtain ⟨hmem, hcount, hframe⟩ := push_names h hs
    rw [climbsOut_cons_iff_of_add_eq hcount] at hclimb
    obtain ⟨hmem', hcount', hframe'⟩ := ih hmem hclimb
    simp only [List.foldl_cons, hframe]
    refine ⟨hmem', ?_, hframe'⟩
    rw [← List.singleton_append, List.count_append, List.countP_append]
    omega

theorem above_mem_foldl_push (h : above ∈ stack) : above ∈ segments.foldl (push false) stack := by
  induction segments generalizing stack with
  | nil => exact h
  | cons s segments ih =>
    apply ih
    by_cases hstay : s = [] ∨ s = here
    · rwa [push, if_pos hstay]
    by_cases habove : s = above
    · subst habove
      obtain ⟨last, before, rfl⟩ := List.exists_cons_of_ne_nil (List.ne_nil_of_mem h)
      rw [push_above_cons]
      split
      · exact List.mem_cons_self
      · next hlast => exact (List.mem_cons.1 h).resolve_left (Ne.symm hlast)
    · rw [not_or] at hstay
      rw [push_name hstay.1 hstay.2 habove]
      exact List.mem_cons_of_mem _ h

/-- Where segments climb out, one that climbs is kept for good. -/
theorem above_mem_of_climbsOut (h : above ∉ stack) (hclimb : ClimbsOut stack.length segments) :
    above ∈ segments.foldl (push false) stack := by
  induction segments generalizing stack with
  | nil => exact absurd hclimb not_climbsOut_nil
  | cons s segments ih =>
    by_cases hs : s = above → stack ≠ []
    · obtain ⟨hmem, hcount, -⟩ := push_names h hs
      exact ih hmem ((climbsOut_cons_iff_of_add_eq hcount).1 hclimb)
    · obtain ⟨rfl, rfl⟩ : s = above ∧ stack = [] := by simpa using hs
      rw [List.foldl_cons]
      exact above_mem_foldl_push List.mem_cons_self

/-- From the empty stack, only the names that are left over are put on it. -/
theorem foldl_push_of_not_climbsOut_zero (hclimb : ¬ClimbsOut 0 segments) :
    above ∉ segments.foldl (push false) [] ∧
      (segments.foldl (push false) []).length + segments.count above = segments.countP isName ∧
      ∀ r bottom, segments.foldl (push r) bottom = segments.foldl (push false) [] ++ bottom := by
  have hnil : above ∉ ([] : List Text) := List.not_mem_nil
  obtain ⟨hmem, hcount, hframe⟩ := foldl_push_of_not_climbsOut hnil hclimb
  exact ⟨hmem, hcount.trans (Nat.zero_add _), hframe⟩

theorem foldl_push_eq_nil_iff : segments.foldl (push false) [] = [] ↔ Returns segments := by
  constructor
  · intro hnil
    have hclimb : ¬ClimbsOut 0 segments := by
      intro hclimb
      have hmem : above ∈ segments.foldl (push false) [] :=
        above_mem_of_climbsOut List.not_mem_nil hclimb
      rw [hnil] at hmem
      exact absurd hmem List.not_mem_nil
    obtain ⟨-, hcount, -⟩ := foldl_push_of_not_climbsOut_zero hclimb
    rw [hnil, List.length_nil, Nat.zero_add] at hcount
    exact ⟨hclimb, hcount.symm⟩
  · rintro ⟨hclimb, heq⟩
    obtain ⟨-, hcount, -⟩ := foldl_push_of_not_climbsOut_zero hclimb
    rw [← List.length_eq_zero_iff]
    omega

/-! ## The first segment -/

/-- The name `s` is the first segment that stays: those in front of it lead back to where the path
begins, and those behind it never climb out of it. -/
def StaysFirst (segments : List Text) (s : Text) : Prop :=
  ∃ front behind, segments = front ++ s :: behind ∧ Returns front ∧ isName s = true ∧
    ¬ClimbsOut 0 behind

theorem foldl_push_append_cons {front behind : List Text} (hfront : Returns front)
    (hname : isName s = true) (hbehind : ¬ClimbsOut 0 behind) :
    (front ++ s :: behind).foldl (push false) [] = behind.foldl (push false) [] ++ [s] := by
  obtain ⟨hnil, hhere, habove⟩ := isName_eq_true_iff.1 hname
  obtain ⟨-, -, hframe⟩ := foldl_push_of_not_climbsOut_zero hbehind
  rw [List.foldl_append, foldl_push_eq_nil_iff.2 hfront, List.foldl_cons,
    push_name hnil hhere habove]
  exact hframe false [s]

theorem above_notMem_of_staysFirst (h : StaysFirst segments s) :
    above ∉ segments.foldl (push false) [] := by
  obtain ⟨front, behind, rfl, hfront, hname, hbehind⟩ := h
  obtain ⟨hmem, -⟩ := foldl_push_of_not_climbsOut_zero hbehind
  rw [foldl_push_append_cons hfront hname hbehind, List.mem_append, not_or, List.mem_singleton]
  exact ⟨hmem, Ne.symm (isName_eq_true_iff.1 hname).2.2⟩

/-- One segment more leaves the first one where it is, unless it takes back just that. -/
theorem StaysFirst.concat {last : Text} (h : StaysFirst segments s)
    (hlast : last = above → 2 ≤ (segments.foldl (push false) []).length) :
    StaysFirst (segments ++ [last]) s := by
  obtain ⟨front, behind, rfl, hfront, hname, hbehind⟩ := h
  refine ⟨front, behind ++ [last], by simp, hfront, hname, ?_⟩
  obtain ⟨-, hcount, -⟩ := foldl_push_of_not_climbsOut_zero hbehind
  rw [foldl_push_append_cons hfront hname hbehind, List.length_append, List.length_singleton]
    at hlast
  rw [climbsOut_concat_iff, not_or]
  refine ⟨hbehind, ?_⟩
  rw [List.countP_append, List.count_append]
  by_cases habove : last = above
  · have hpos := hlast habove
    rw [habove, List.count_singleton_self]
    omega
  · rw [List.count_singleton, beq_eq_false_iff_ne.2 habove]
    simp only [Bool.false_eq_true, if_false]
    omega

/-- **The first segment that stays is at the bottom of the stack.** -/
theorem getLast?_foldl_push_eq_iff (hs : s ≠ above) :
    (segments.foldl (push false) []).getLast? = some s ↔ StaysFirst segments s := by
  constructor
  · intro hlast
    -- From the end of the segments, because a later one may take back what an earlier one has put.
    induction segments using List.reverseRecOn with
    | nil => exact absurd hlast.symm (Option.some_ne_none s)
    | append_singleton segments t ih =>
      rw [List.foldl_append, List.foldl_cons, List.foldl_nil] at hlast
      by_cases hstay : t = [] ∨ t = here
      · rw [push, if_pos hstay] at hlast
        refine (ih hlast).concat ?_
        rintro rfl
        exact absurd hstay (by decide)
      by_cases habove : t = above
      · subst habove
        cases hstack : segments.foldl (push false) [] with
        | nil =>
          rw [hstack] at hlast
          exact absurd (Option.some.inj hlast).symm hs
        | cons last before =>
          rw [hstack, push_above_cons] at hlast
          split at hlast
          · next heq =>
            rw [if_neg Bool.false_ne_true, List.getLast?_cons_cons, ← hstack] at hlast
            have hfree := above_notMem_of_staysFirst (ih hlast)
            rw [hstack, heq] at hfree
            exact absurd List.mem_cons_self hfree
          · obtain ⟨next, more, rfl⟩ : ∃ next more, before = next :: more := by
              cases before with
              | nil => exact absurd hlast.symm (Option.some_ne_none s)
              | cons next more => exact ⟨next, more, rfl⟩
            have hlast' : (last :: next :: more).getLast? = some s := hlast
            rw [← hstack] at hlast'
            refine (ih hlast').concat fun _ => ?_
            rw [hstack]
            exact Nat.le_add_left 2 _
      · rw [not_or] at hstay
        rw [push_name hstay.1 hstay.2 habove] at hlast
        cases hstack : segments.foldl (push false) [] with
        | nil =>
          rw [hstack] at hlast
          obtain rfl := Option.some.inj hlast
          exact ⟨segments, [], rfl, foldl_push_eq_nil_iff.1 hstack,
            isName_eq_true_iff.2 ⟨hstay.1, hstay.2, habove⟩, not_climbsOut_nil⟩
        | cons next more =>
          rw [hstack, List.getLast?_cons_cons, ← hstack] at hlast
          exact (ih hlast).concat fun h => absurd h habove
  · rintro ⟨front, behind, rfl, hfront, hname, hbehind⟩
    rw [foldl_push_append_cons hfront hname hbehind, List.getLast?_concat]

/-! ## Schemes -/

theorem prefix_iff_of_splitOn {t first : Text} {more : List Text} (hw : '/' ∉ w)
    (h : t.splitOn '/' = first :: more) : w <+: t ↔ w <+: first := by
  by_cases hslash : '/' ∈ t
  · obtain ⟨f, y, rfl, hf⟩ := List.eq_append_cons_of_mem hslash
    rw [List.splitOn_append_cons_self_of_not_mem hf] at h
    obtain rfl := (List.cons.inj h).1
    refine ⟨fun hpre => ?_, fun hpre => hpre.trans (List.prefix_append _ _)⟩
    rw [List.append_cons] at hpre
    rcases List.prefix_or_prefix_of_prefix hpre (List.prefix_append _ _) with hpre | hpre
    · rcases List.prefix_concat_iff.1 hpre with rfl | hpre
      · exact absurd (List.mem_append_right _ (List.mem_singleton_self _)) hw
      · exact hpre
    · exact absurd (hpre.subset (List.mem_append_right _ (List.mem_singleton_self _))) hw
  · rw [List.splitOn_eq_singleton hslash] at h
    rw [(List.cons.inj h).1]

theorem isSome_scheme?_iff {t : Text} :
    (scheme? t).isSome = true ↔ ∃ scheme, IsScheme scheme ∧ scheme ++ [':'] <+: t := by
  rw [Option.isSome_iff_exists]
  constructor
  · rintro ⟨⟨scheme, rest⟩, hs⟩
    obtain ⟨hscheme, rfl⟩ := scheme?_eq_some_iff.1 hs
    exact ⟨scheme, hscheme, rest, List.append_assoc _ _ _⟩
  · rintro ⟨scheme, hscheme, rest, rfl⟩
    exact ⟨(scheme, rest), scheme?_eq_some_iff.2 ⟨hscheme, List.append_assoc _ _ _⟩⟩

section Rootless

variable (h : rooted path = false)

include h

theorem kept_of_rooted_eq_false : kept path = (path.splitOn '/').foldl (push false) [] := by
  rw [kept, h, (splitAuthority_of_rooted h).1]
  rfl

/-- Without a root, a normal form begins as the first segment that stays does. -/
theorem prefix_normalize_iff (hslash : '/' ∉ w) (hcolon : ':' ∈ w) :
    w <+: normalize path ↔ ∃ s, StaysFirst (path.splitOn '/') s ∧ w <+: s := by
  have hbottom : w <+: normalize path ↔ ∃ s, (kept path).getLast? = some s ∧ w <+: s := by
    obtain ⟨rest, heq, hcases⟩ := exists_behind_normalize path
    have hrest : normalize path = rest := by
      have hself := (splitAuthority_of_rooted ((rooted_normalize path).trans h)).1
      exact (Prod.mk.inj (hself.symm.trans heq)).2
    rcases hcases with ⟨hkept, -, -, hhere⟩ | ⟨-, hr, -⟩ | ⟨hkept, -, hsplit⟩
    · rw [hhere, hkept]
      refine iff_of_false (fun hpre => ?_) (by simp)
      exact absurd (hpre.subset hcolon) (by decide)
    · exact absurd (hr.symm.trans h) Bool.noConfusion
    · obtain ⟨first, more, hfirst⟩ := List.exists_cons_of_ne_nil
        (mt List.reverse_eq_nil_iff.1 hkept)
      rw [h, hfirst] at hsplit
      rw [hrest, prefix_iff_of_splitOn hslash hsplit, ← List.head?_reverse, hfirst]
      simp
  rw [hbottom, kept_of_rooted_eq_false h]
  refine exists_congr fun s => and_congr_left fun hpre => getLast?_foldl_push_eq_iff ?_
  rintro rfl
  exact absurd (hpre.subset hcolon) (by decide)

theorem isAbsolute_of_rooted_eq_false : isAbsolute path = (scheme? path).isSome := by
  rw [isAbsolute, beq_eq_false_iff_ne.2 (splitAuthority_of_rooted h).2, Bool.false_or]

theorem isAbsolute_normalize_iff : isAbsolute (normalize path) = true ↔
    ∃ s, StaysFirst (path.splitOn '/') s ∧ (scheme? s).isSome = true := by
  rw [isAbsolute_of_rooted_eq_false ((rooted_normalize path).trans h), isSome_scheme?_iff]
  simp only [isSome_scheme?_iff]
  constructor
  · rintro ⟨scheme, hscheme, hpre⟩
    obtain ⟨s, hs, hpre⟩ := (prefix_normalize_iff h (by simp [hscheme.slash_not_mem])
      (by simp)).1 hpre
    exact ⟨s, hs, scheme, hscheme, hpre⟩
  · rintro ⟨s, hs, scheme, hscheme, hpre⟩
    exact ⟨scheme, hscheme, (prefix_normalize_iff h (by simp [hscheme.slash_not_mem])
      (by simp)).2 ⟨s, hs, hpre⟩⟩

/-- Where a name stays first, nothing in the normal form climbs. -/
theorem above_notMem_of_staysFirst_splitOn (hs : StaysFirst (path.splitOn '/') s) :
    above ∉ (normalize path).splitOn '/' := by
  have hself := (splitAuthority_of_rooted ((rooted_normalize path).trans h)).1
  intro hmem
  rcases mem_splitOn_normalize hself hmem with hmem | hmem | hmem
  · exact absurd hmem (List.cons_ne_nil _ _)
  · rw [kept_of_rooted_eq_false h] at hmem
    exact above_notMem_of_staysFirst hs hmem
  · exact absurd hmem.1 (by decide)

end Rootless

/-- **What stays absolute.** Normal form does not change whether a reference is absolute if and only
if it has a root, or the first segment that stays has a scheme just if the reference has one. Below a
root nothing climbs. Without one, the scheme is still there and nothing climbs if and only if a
segment that begins with the scheme stays first, which is to say that no `..` behind it climbs out
of it. -/
theorem isAbsolute_normalize_eq_iff (path : Text) :
    (isAbsolute (normalize path) = isAbsolute path ↔ rooted path = true ∨
      (isAbsolute path = true ↔
        ∃ s, StaysFirst (path.splitOn '/') s ∧ (scheme? s).isSome = true)) ∧
    (rooted path = true →
      isAbsolute path = true ∧ IsBelow (splitAuthority path).1 (normalize path)) ∧
    ∀ scheme rest, rooted path = false → scheme? path = some (scheme, rest) →
      (scheme ++ [':'] <+: normalize path ∧ above ∉ (normalize path).splitOn '/' ↔
        ∃ s, StaysFirst (path.splitOn '/') s ∧ scheme ++ [':'] <+: s) := by
  refine ⟨?_, fun h => ⟨isAbsolute_of_rooted h, isBelow_normalize h⟩, ?_⟩
  · cases h : rooted path with
    | true =>
      have hnormal := isAbsolute_of_rooted ((rooted_normalize path).trans h)
      exact iff_of_true (hnormal.trans (isAbsolute_of_rooted h).symm) (Or.inl rfl)
    | false =>
      rw [← isAbsolute_normalize_iff h, Bool.eq_iff_iff]
      simp [iff_comm]
  · intro scheme rest h hscheme
    have hslash : '/' ∉ scheme ++ [':'] := by
      simp [(scheme?_eq_some_iff.1 hscheme).1.slash_not_mem]
    rw [prefix_normalize_iff h hslash (by simp)]
    exact and_iff_left_of_imp fun ⟨s, hs, _⟩ => above_notMem_of_staysFirst_splitOn h hs

/-- Behind a scheme a path goes up no further than it has gone down. -/
theorem isAbsolute_normalize_eq_iff_down_and_up :
    let path := "webpack:/a/../b.js".toList
    rooted path = false ∧ scheme? path = some ("webpack".toList, "/a/../b.js".toList) ∧
      isAbsolute (normalize path) = isAbsolute path ∧
      "webpack:".toList <+: normalize path ∧ above ∉ (normalize path).splitOn '/' := by
  intro path
  have hs : StaysFirst (path.splitOn '/') "webpack:".toList :=
    ⟨[], [['a'], above, "b.js".toList], by decide, by decide, by decide, by decide⟩
  obtain ⟨hsame, -, hstays⟩ := isAbsolute_normalize_eq_iff path
  refine ⟨by decide, by decide, ?_, ?_⟩
  · exact hsame.2 (Or.inr (iff_of_true (by decide) ⟨_, hs, by decide⟩))
  · exact (hstays "webpack".toList "/a/../b.js".toList (by decide) (by decide)).2
      ⟨_, hs, List.prefix_refl _⟩

/-- A URL without an authority loses its scheme to a `..` behind it, and a relative reference gets
one when the segment in front of that folds away. -/
theorem isAbsolute_normalize_ne :
    isAbsolute "webpack:/../a.js".toList = true ∧
      normalize "webpack:/../a.js".toList = "a.js".toList ∧
      isAbsolute (normalize "webpack:/../a.js".toList) = false ∧
      isAbsolute "./webpack:a.js".toList = false ∧
      isAbsolute (normalize "./webpack:a.js".toList) = true := by decide

end Provenance.Path
