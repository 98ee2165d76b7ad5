import Mathlib.Data.List.DropRight
import Mathlib.Data.List.SplitBy
import Mathlib.Data.Nat.Digits.Defs
import Provenance.Vlq

/-!
# The numbers in a sequence of digits

A digit from 32 on is marked: the next digit belongs to the same number. So a sequence of digits
falls into groups, each of marked digits and one that is not marked; digits behind the last such
group are a number without an end.

* `Vlq.groups` : the groups of a sequence of digits; `Vlq.number` : what a group stands for;
* `Vlq.Fits` : that a group takes no more than 64 bits;
* `Vlq.complete`, `Vlq.unfinished` : the digits up to the last that is not marked, and those behind;
  `Vlq.groups_concat` : the group that one more digit belongs to;
* `Vlq.fits_concat_iff` : when a group still fits with one more digit;
  `Vlq.number_lt_size` : what fits is below `Word.size`.
-/

namespace Provenance.Vlq

/-- A digit that another one follows in its number. -/
def isMarked (d : Nat) : Bool := decide (32 ≤ d)

/-- The groups of digits, each up to its first digit that is not marked. -/
def groups (ds : List Nat) : List (List Nat) := ds.splitBy fun d _ => isMarked d

/-- What a group stands for in base 32, the lowest digit first. A mark does not count. -/
def number (g : List Nat) : Nat := Nat.ofDigits 32 (g.map (· % 32))

/-- No more than 64 bits: at most 13 digits, and four bits in the thirteenth. -/
def Fits (g : List Nat) : Prop := g.length ≤ 13 ∧ ∀ d ∈ g[12]?, d % 32 < 16

instance (g : List Nat) : Decidable (Fits g) := inferInstanceAs (Decidable (_ ∧ _))

/-- The digits up to the last that is not marked. -/
def complete (ds : List Nat) : List Nat := ds.rdropWhile isMarked

def unfinished (ds : List Nat) : List Nat := ds.rtakeWhile isMarked

variable {ds g : List Nat} {d : Nat}

/-! ## Groups -/

theorem complete_append_unfinished (ds : List Nat) : complete ds ++ unfinished ds = ds :=
  List.rdropWhile_append_rtakeWhile

theorem isMarked_of_mem_getLast?_complete (h : d ∈ (complete ds).getLast?) : isMarked d = false := by
  obtain ⟨hne, rfl⟩ := List.mem_getLast?_eq_getLast h
  exact eq_false_of_ne_true (List.rdropWhile_last_not isMarked ds hne)

/-- The groups of the digits up to the last that is not marked come first. -/
theorem groups_complete_append (ds tail : List Nat) :
    groups (complete ds ++ tail) = groups (complete ds) ++ groups tail :=
  List.splitBy_append fun _ hd _ _ => isMarked_of_mem_getLast?_complete hd

theorem isChain_unfinished (ds : List Nat) :
    (unfinished ds).IsChain fun d _ => isMarked d = true :=
  (List.pairwise_of_forall_mem_list fun _ hd _ _ => List.mem_rtakeWhile_imp hd).isChain

/-- One more digit belongs to the number without an end. -/
theorem groups_concat (ds : List Nat) (d : Nat) :
    groups (ds ++ [d]) = groups (complete ds) ++ [unfinished ds ++ [d]] := by
  have hchain : (unfinished ds ++ [d]).IsChain fun d _ => isMarked d = true :=
    List.isChain_append.2 ⟨isChain_unfinished ds, List.isChain_singleton d,
      fun _ hx _ _ => List.mem_rtakeWhile_imp (List.mem_of_getLast? hx)⟩
  have hlast : groups (unfinished ds ++ [d]) = [unfinished ds ++ [d]] :=
    List.splitBy_of_isChain (List.concat_ne_nil _ _) hchain
  rw [← hlast, ← groups_complete_append, ← List.append_assoc, complete_append_unfinished]

theorem groups_eq (ds : List Nat) :
    groups ds = groups (complete ds) ++ if unfinished ds = [] then [] else [unfinished ds] := by
  have hlast : groups (unfinished ds) = if unfinished ds = [] then [] else [unfinished ds] := by
    split
    · next h => rw [h]; rfl
    · next h => exact List.splitBy_of_isChain h (isChain_unfinished ds)
  rw [← hlast, ← groups_complete_append, complete_append_unfinished]

theorem complete_eq_self (h : unfinished ds = []) : complete ds = ds := by
  have parts := complete_append_unfinished ds
  rwa [h, List.append_nil] at parts

theorem unfinished_eq_nil_iff : unfinished ds = [] ↔ ∀ d ∈ ds.getLast?, d < 32 := by
  rw [unfinished, List.rtakeWhile_eq_nil_iff]
  simp only [isMarked, decide_eq_true_eq, Nat.not_le]
  constructor
  · intro h d hd
    obtain ⟨hne, rfl⟩ := List.mem_getLast?_eq_getLast hd
    exact h hne
  · intro h hne
    exact h _ (List.getLast_mem_getLast? hne)

/-! ## Bits in their places -/

theorem add_shiftLeft_lt {value c shift k : Nat} (hvalue : value < 2 ^ shift) (hc : c < 2 ^ k) :
    value + c <<< shift < 2 ^ (shift + k) := by
  calc value + c <<< shift
      < 2 ^ shift + c * 2 ^ shift := by rw [Nat.shiftLeft_eq]; exact Nat.add_lt_add_right hvalue _
    _ = (c + 1) * 2 ^ shift := by rw [Nat.add_comm, Nat.succ_mul]
    _ ≤ 2 ^ k * 2 ^ shift := Nat.mul_le_mul_right _ hc
    _ = 2 ^ (shift + k) := by rw [Nat.add_comm, Nat.pow_add]

theorem shiftLeft_lt_size_iff {c shift : Nat} (h : shift ≤ 64) :
    c <<< shift < Word.size ↔ c < 2 ^ (64 - shift) := by
  have hsize : Word.size = 2 ^ (64 - shift) * 2 ^ shift := by
    rw [← Nat.pow_add, Nat.sub_add_cancel h]
  rw [hsize, Nat.shiftLeft_eq, Nat.mul_lt_mul_right (Nat.two_pow_pos shift)]

theorem add_shiftLeft_lt_size {value c shift : Nat} (hvalue : value < 2 ^ shift)
    (hshift : shift ≤ 64) (hc : c <<< shift < Word.size) : value + c <<< shift < Word.size := by
  have hlt := add_shiftLeft_lt hvalue ((shiftLeft_lt_size_iff hshift).1 hc)
  rwa [Nat.add_sub_cancel' hshift] at hlt

/-! ## What a group stands for -/

theorem number_concat (g : List Nat) (d : Nat) :
    number (g ++ [d]) = number g + (d % 32) <<< (5 * g.length) := by
  have pow : 2 ^ (5 * g.length) = 32 ^ g.length := Nat.pow_mul 2 5 g.length
  rw [number, List.map_append, List.map_singleton, Nat.ofDigits_append, Nat.ofDigits_singleton,
    List.length_map, Nat.shiftLeft_eq, pow, Nat.mul_comm]
  rfl

theorem number_lt (g : List Nat) : number g < 2 ^ (5 * g.length) := by
  have hdigits : ∀ d ∈ g.map (· % 32), d < 32 := by
    intro d hd
    obtain ⟨e, -, rfl⟩ := List.mem_map.1 hd
    exact Nat.mod_lt e (by decide)
  have hlt := Nat.ofDigits_lt_base_pow_length (by decide : 1 < 32) hdigits
  rwa [List.length_map, ← Nat.pow_mul 2 5] at hlt

/-! ## Which groups fit -/

theorem fits_nil : Fits [] := by decide

theorem Fits.of_concat (h : Fits (g ++ [d])) : Fits g := by
  refine ⟨?_, fun e he => h.2 e ?_⟩
  · have hlength := h.1
    rw [List.length_append] at hlength
    exact Nat.le_of_add_right_le hlength
  · obtain ⟨hlt, -⟩ := List.getElem?_eq_some_iff.1 he
    rwa [List.getElem?_append_left hlt]

/-- One more digit fits if its bits have a place below 64. -/
theorem fits_concat_iff (h : Fits g) :
    Fits (g ++ [d]) ↔ ¬(64 ≤ 5 * g.length ∨ Word.size ≤ (d % 32) <<< (5 * g.length)) := by
  have hlength := h.1
  have hsize : Word.size = 18446744073709551616 := rfl
  have hd := Nat.mod_lt d (by decide : 0 < 32)
  rw [Fits, List.length_append, List.length_singleton]
  -- There is room for five bits behind at most 11 digits, for four behind 12 and for none behind 13.
  obtain hlt | heq | heq : g.length < 12 ∨ g.length = 12 ∨ g.length = 13 := by omega
  · have hnone : (g ++ [d])[12]? = none := by
      rw [List.getElem?_eq_none_iff, List.length_append, List.length_singleton]
      omega
    have hroom : 2 ^ 5 ≤ 2 ^ (64 - 5 * g.length) := Nat.pow_le_pow_right (by decide) (by omega)
    have hplace : (d % 32) <<< (5 * g.length) < Word.size :=
      (shiftLeft_lt_size_iff (by omega)).2 (Nat.lt_of_lt_of_le hd hroom)
    rw [hnone]
    constructor
    · intro _
      omega
    · intro _
      exact ⟨by omega, nofun⟩
  · have hsome : (g ++ [d])[12]? = some d := by rw [← heq, List.getElem?_concat_length]
    rw [hsome, heq, Nat.shiftLeft_eq]
    simp only [Option.mem_def, Option.some.injEq, forall_eq']
    omega
  · rw [heq]
    omega

theorem number_lt_size (h : Fits g) : number g < Word.size := by
  cases g using List.reverseRecOn with
  | nil => decide
  | append_singleton g d =>
    obtain ⟨hshift, hd⟩ := not_or.1 ((fits_concat_iff h.of_concat).1 h)
    rw [number_concat]
    exact add_shiftLeft_lt_size (number_lt g) (Nat.le_of_not_le hshift) (Nat.not_le.1 hd)

/-- With one more digit all groups fit exactly if they did and the one it belongs to does. -/
theorem forall_fits_concat_iff :
    (∀ g ∈ groups (ds ++ [d]), Fits g) ↔
      (∀ g ∈ groups ds, Fits g) ∧ Fits (unfinished ds ++ [d]) := by
  rw [groups_concat, groups_eq ds]
  simp only [List.forall_mem_append, List.forall_mem_singleton]
  constructor
  · rintro ⟨hcomplete, hlast⟩
    refine ⟨⟨hcomplete, ?_⟩, hlast⟩
    split
    · exact List.forall_mem_nil _
    · exact List.forall_mem_singleton.2 hlast.of_concat
  · rintro ⟨⟨hcomplete, -⟩, hlast⟩
    exact ⟨hcomplete, hlast⟩

theorem exists_not_fits_concat_iff (h : ∀ g ∈ groups ds, Fits g) :
    (∃ g ∈ groups (ds ++ [d]), ¬Fits g) ↔ ¬Fits (unfinished ds ++ [d]) := by
  constructor
  · rintro ⟨g, hg, hwide⟩ hfit
    exact hwide (forall_fits_concat_iff.2 ⟨h, hfit⟩ g hg)
  · intro hwide
    refine ⟨unfinished ds ++ [d], ?_, hwide⟩
    rw [groups_concat]
    exact List.mem_append_right _ (List.mem_singleton_self _)

theorem fits_unfinished (h : ∀ g ∈ groups ds, Fits g) : Fits (unfinished ds) := by
  rw [groups_eq] at h
  split at h
  · next hnil => exact hnil ▸ fits_nil
  · exact h _ (List.mem_append_right _ (List.mem_singleton_self _))

end Provenance.Vlq
