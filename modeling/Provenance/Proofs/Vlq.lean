import Provenance.Proofs.Except
import Provenance.Vlq

/-!
# Texts of numbers

* `Vlq.not_separator_of_mem_flatMap_encode` : the characters of numbers part neither segments nor
  lines;
* `Vlq.eq_of_decode_flatMap_encode` : where a written sequence of numbers is read at all, it is read
  as it was written;
* `Vlq.length_encode_le_of_decode` : no text that is read as a number is shorter than what is
  written for it.
-/

namespace Provenance.Vlq

/-! ## The characters of a number -/

theorem exists_digit_of_mem_digits {n : Nat} {c : Char} (h : c ∈ digits n) :
    ∃ k < 64, c = Base64.digit k := by
  induction n using digits.induct with
  | case1 n hn =>
    rw [digits, if_pos hn, List.mem_singleton] at h
    exact ⟨n, by omega, h⟩
  | case2 n hn ih =>
    rw [digits, if_neg hn, List.mem_cons] at h
    rcases h with h | h
    · exact ⟨_, by omega, h⟩
    · exact ih h

theorem digits_ne_nil (n : Nat) : digits n ≠ [] := by
  rw [digits]
  split <;> exact List.cons_ne_nil _ _

theorem not_separator_of_mem_flatMap_encode {vs : List Int} {c : Char} (h : c ∈ vs.flatMap encode) :
    c ≠ ';' ∧ c ≠ ',' := by
  obtain ⟨v, -, hc⟩ := List.mem_flatMap.1 h
  obtain ⟨k, hk, rfl⟩ := exists_digit_of_mem_digits hc
  have all : ∀ k : Fin 64, Base64.digit k ≠ ';' ∧ Base64.digit k ≠ ',' := by decide
  exact all ⟨k, hk⟩

theorem flatMap_encode_ne_nil {vs : List Int} (h : vs ≠ []) : vs.flatMap encode ≠ [] := by
  cases vs with
  | nil => exact absurd rfl h
  | cons v vs =>
    rw [List.flatMap_cons]
    exact List.append_ne_nil_of_left_ne_nil (digits_ne_nil _) _

/-! ## Reading numbers of any size -/

/-- The digits of a number are not read as any other number, whether it fits or not. -/
theorem eq_of_decodeFrom_digits_append (n : Nat) {value shift : Nat} {rest : Text} {ws : List Int}
    (h : decodeFrom value shift (digits n ++ rest) = .ok ws) :
    ∃ vs, decodeFrom 0 0 rest = .ok vs ∧ ws = toInt (value + n <<< shift) :: vs := by
  induction n using digits.induct generalizing value shift with
  | case1 n hn =>
    rw [digits, if_pos hn, List.singleton_append, decodeFrom_digit_cons (by omega),
      Nat.mod_eq_of_lt hn] at h
    split at h
    · simp at h
    · rw [if_neg (by omega)] at h
      obtain ⟨vs, hrest, rfl⟩ := Except.map_eq_ok.1 h
      exact ⟨vs, hrest, rfl⟩
  | case2 n hn ih =>
    rw [digits, if_neg hn, List.cons_append, decodeFrom_digit_cons (by omega), Nat.add_mod_right,
      Nat.mod_mod] at h
    split at h
    · simp at h
    · rw [if_pos (by omega)] at h
      obtain ⟨vs, hrest, rfl⟩ := ih h
      exact ⟨vs, hrest, by rw [Nat.add_assoc, shiftLeft_mod_add_div]⟩

theorem eq_of_decode_flatMap_encode {vs ws : List Int} (h : decode (vs.flatMap encode) = .ok ws) :
    ws = vs := by
  induction vs generalizing ws with
  | nil => exact (Except.ok.inj h).symm
  | cons v vs ih =>
    rw [List.flatMap_cons, decode, encode] at h
    obtain ⟨us, hus, rfl⟩ := eq_of_decodeFrom_digits_append _ h
    rw [ih hus, Nat.shiftLeft_zero, Nat.zero_add, toInt_ofInt]

/-! ## The length of what is read -/

/-- A text that goes on with one number has as many digits as that number, or more. -/
theorem exists_length_digits_le_of_decodeFrom {value shift : Nat} {t : Text} {v : Int}
    (h : decodeFrom value shift t = .ok [v]) :
    ∃ n, v = toInt (value + n <<< shift) ∧ (digits n).length ≤ t.length := by
  induction t generalizing value shift with
  | nil =>
    rw [decodeFrom] at h
    split at h <;> simp at h
  | cons c rest ih =>
    rw [decodeFrom] at h
    split at h
    · simp at h
    · next d _ =>
      simp only at h
      split at h
      · simp at h
      · split at h
        · obtain ⟨n, rfl, hlength⟩ := ih h
          have hlow : (d % 32 + 32 * n) % 32 = d % 32 := by omega
          have hhigh : (d % 32 + 32 * n) / 32 = n := by omega
          have parts := shiftLeft_mod_add_div (d % 32 + 32 * n) shift
          rw [hlow, hhigh] at parts
          refine ⟨d % 32 + 32 * n, by rw [← parts, Nat.add_assoc], ?_⟩
          rw [digits, hhigh, List.length_cons]
          split
          · exact Nat.le_add_left _ _
          · exact Nat.succ_le_succ hlength
        · obtain ⟨vs, -, hv⟩ := Except.map_eq_ok.1 h
          obtain ⟨rfl, -⟩ := List.cons.inj hv
          refine ⟨d % 32, rfl, ?_⟩
          rw [digits, if_pos (Nat.mod_lt _ (by decide)), List.length_cons]
          exact Nat.le_add_left _ _

/-- Zero with a sign, which is never written, is as long as zero. -/
theorem length_encode_toInt_le (n : Nat) : (encode (toInt n)).length ≤ (digits n).length := by
  by_cases h : n = 1
  · subst h
    have hzero : encode (toInt 1) = [Base64.digit 0] := by
      rw [encode, show ofInt (toInt 1) = 0 from rfl, digits, if_pos (by decide)]
    rw [hzero, digits, if_pos (by decide)]
    exact Nat.le_of_eq rfl
  · have hn : ofInt (toInt n) = n := by
      unfold ofInt toInt
      split <;> split <;> omega
    exact Nat.le_of_eq (by rw [encode, hn])

/-- What is written for a number is a shortest text that is read as it. -/
theorem length_encode_le_of_decode {t : Text} {v : Int} (h : decode t = .ok [v]) :
    (encode v).length ≤ t.length := by
  obtain ⟨n, rfl, hlength⟩ := exists_length_digits_le_of_decodeFrom h
  rw [Nat.zero_add, Nat.shiftLeft_zero]
  exact Nat.le_trans (length_encode_toInt_le n) hlength

end Provenance.Vlq
