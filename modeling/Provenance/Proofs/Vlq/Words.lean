import Provenance.Proofs.Vlq

/-!
# Numbers as 64-bit words

A number is written from a word with a sign, which is moved to the right by five bits until nothing
is left. As words with a sign are moved, the sign stays, so that a number whose double does not fit
is written without an end.

* `Vlq.signWord` : the word for a number, with the sign in the lowest bit;
* `Vlq.Writes w t` : writing the word `w` ends, with the digits `t`; `Vlq.Writes.unique`;
* `Vlq.writes_digits` : a word that is not negative is written as its digits;
  `Vlq.not_writes_of_msb` : writing a negative one does not end;
* `Vlq.writes_signWord_iff` : which numbers are written at all, and as what;
* `Vlq.decode_flatMap_encode_shortest` : they are read as they were written, and from no shorter
  text.
-/

namespace Provenance.Vlq

/-! ## The loop -/

/-- The word for a number: its double, or for a negative number the double of its negative with the
lowest bit set. -/
def signWord (v : BitVec 64) : BitVec 64 := if v.slt 0 then (-v) <<< 1 ||| 1 else v <<< 1

/-- What is left of a word when its lowest five bits are written. -/
def left (w : BitVec 64) : BitVec 64 := w.sshiftRight 5

/-- The digit for the lowest five bits of a word, with a mark if something positive is left. -/
def lowDigit (w : BitVec 64) : BitVec 64 :=
  if (0 : BitVec 64).slt (left w) then w &&& 31 ||| 32 else w &&& 31

/-- Writing a word digit by digit ends, with these digits. -/
inductive Writes : BitVec 64 → Text → Prop
  | last {w : BitVec 64} (h : left w = 0) : Writes w [Base64.digit (lowDigit w).toNat]
  | more {w : BitVec 64} {t : Text} (h : left w ≠ 0) (ht : Writes (left w) t) :
      Writes w (Base64.digit (lowDigit w).toNat :: t)

variable {w : BitVec 64} {t u : Text}

theorem Writes.unique (h : Writes w t) (h' : Writes w u) : t = u := by
  induction h generalizing u with
  | last h =>
    cases h' with
    | last => rfl
    | more h' => exact absurd h h'
  | more h _ ih =>
    cases h' with
    | last h' => exact absurd h' h
    | more _ h' => rw [ih h']

/-! ## Words that are not negative

Such a word is moved like the natural number that it is, and stays below `Word.half`. -/

theorem toNat_left (h : w.toNat < Word.half) : (left w).toNat = w.toNat / 32 := by
  have hmsb : w.msb = false := by
    rw [BitVec.msb_eq_decide, decide_eq_false_iff_not]
    exact Nat.not_le.2 h
  rw [left, BitVec.sshiftRight_eq_of_msb_false hmsb, BitVec.toNat_ushiftRight,
    Nat.shiftRight_eq_div_pow]

theorem left_eq_zero_iff (h : w.toNat < Word.half) : left w = 0 ↔ w.toNat < 32 := by
  rw [← BitVec.toNat_inj, toNat_left h]
  show w.toNat / 32 = 0 ↔ _
  omega

theorem slt_left_iff (h : w.toNat < Word.half) :
    (0 : BitVec 64).slt (left w) = true ↔ 32 ≤ w.toNat := by
  have hint : (left w).toInt = (w.toNat / 32 : Nat) := by
    rw [BitVec.toInt_eq_toNat_of_lt, toNat_left h]
    rw [toNat_left h]
    omega
  rw [BitVec.slt_eq_decide, decide_eq_true_eq, hint]
  show (0 : Int) < _ ↔ _
  omega

theorem toNat_lowBits (w : BitVec 64) : (w &&& 31).toNat = w.toNat % 32 := by
  rw [BitVec.toNat_and]
  exact Nat.and_two_pow_sub_one_eq_mod w.toNat 5

/-- The digit is marked exactly if the number goes on. -/
theorem toNat_lowDigit (h : w.toNat < Word.half) :
    (lowDigit w).toNat = if w.toNat < 32 then w.toNat else w.toNat % 32 + 32 := by
  unfold lowDigit
  split
  · next hslt =>
    have hmark : w.toNat % 32 < 2 ^ 5 := Nat.mod_lt _ (by decide)
    rw [if_neg (Nat.not_lt.2 ((slt_left_iff h).1 hslt)), BitVec.toNat_or, toNat_lowBits,
      Nat.or_comm, Nat.add_comm]
    exact (Nat.two_pow_add_eq_or_of_lt hmark 1).symm
  · next hslt =>
    have hlow : w.toNat < 32 := Nat.not_le.1 fun hle => hslt ((slt_left_iff h).2 hle)
    rw [if_pos hlow, toNat_lowBits, Nat.mod_eq_of_lt hlow]

theorem writes_digits (h : w.toNat < Word.half) : Writes w (digits w.toNat) := by
  generalize hn : w.toNat = n
  induction n using digits.induct generalizing w with
  | case1 n hlow =>
    have hdigit : (lowDigit w).toNat = n := by rw [toNat_lowDigit h, hn, if_pos hlow]
    rw [digits, if_pos hlow, ← hdigit]
    exact .last ((left_eq_zero_iff h).2 (hn ▸ hlow))
  | case2 n hlow ih =>
    have hdigit : (lowDigit w).toNat = n % 32 + 32 := by rw [toNat_lowDigit h, hn, if_neg hlow]
    have hleft : (left w).toNat = n / 32 := by rw [toNat_left h, hn]
    rw [digits, if_neg hlow, ← hdigit]
    apply Writes.more
    · rw [Ne, left_eq_zero_iff h, hn]
      exact hlow
    · exact ih (by omega) hleft

/-! ## Negative words -/

/-- A negative word stays negative, so that something is left of it all the time. -/
theorem not_writes_of_msb (h : w.msb = true) : ¬Writes w t := by
  intro hw
  induction hw with
  | last hleft =>
    have hmsb := congrArg BitVec.msb hleft
    rw [left, BitVec.msb_sshiftRight, h] at hmsb
    exact absurd hmsb (by decide)
  | more _ _ ih => exact ih (BitVec.msb_sshiftRight.trans h)

/-! ## Numbers -/

theorem toNat_shiftLeft_one {n : Nat} (h : n < Word.half) :
    (BitVec.ofNat 64 n <<< 1).toNat = 2 * n := by
  have hhalf : Word.half = 9223372036854775808 := rfl
  rw [BitVec.toNat_shiftLeft, BitVec.toNat_ofNat, Nat.shiftLeft_eq]
  omega

theorem slt_ofInt_iff {v : Int} (h : v.natAbs < Word.half) :
    (BitVec.ofInt 64 v).slt 0 = true ↔ v < 0 := by
  have hhalf : Word.half = 9223372036854775808 := rfl
  have hint : (BitVec.ofInt 64 v).toInt = v := by
    rw [BitVec.toInt_ofInt]
    apply Int.bmod_eq_of_le <;> omega
  rw [BitVec.slt_eq_decide, decide_eq_true_eq, hint]
  rfl

theorem toNat_signWord {v : Int} (h : v.natAbs < Word.half) :
    (signWord (BitVec.ofInt 64 v)).toNat = ofInt v := by
  unfold signWord ofInt
  by_cases hv : v < 0
  · have hneg : -BitVec.ofInt 64 v = BitVec.ofNat 64 v.natAbs := by
      rw [← BitVec.ofInt_neg, ← BitVec.ofInt_natCast]
      congr 1
      omega
    rw [if_pos ((slt_ofInt_iff h).2 hv), if_pos hv, hneg, BitVec.toNat_or, toNat_shiftLeft_one h]
    exact (Nat.two_pow_add_eq_or_of_lt (by decide : 1 < 2 ^ 1) v.natAbs).symm
  · have hnat : BitVec.ofInt 64 v = BitVec.ofNat 64 v.natAbs := by
      rw [← BitVec.ofInt_natCast]
      congr 1
      omega
    rw [if_neg (mt (slt_ofInt_iff h).1 hv), if_neg hv, hnat, toNat_shiftLeft_one h]

/-- Writing a number ends if its double fits into a word with a sign, and then with its digits. -/
theorem writes_signWord_iff {v : Int} (h : v.natAbs < Word.half) :
    Writes (signWord (BitVec.ofInt 64 v)) t ↔ 2 * v.natAbs < Word.half ∧ t = encode v := by
  have hword := toNat_signWord h
  have hparity : ofInt v < Word.half ↔ 2 * v.natAbs < Word.half := by
    have hhalf : Word.half = 9223372036854775808 := rfl
    unfold ofInt
    split <;> omega
  by_cases hfits : ofInt v < Word.half
  · have hwrites := writes_digits (hword ▸ hfits)
    rw [hword] at hwrites
    constructor
    · intro hw
      exact ⟨hparity.1 hfits, hw.unique hwrites⟩
    · rintro ⟨-, rfl⟩
      exact hwrites
  · have hmsb : (signWord (BitVec.ofInt 64 v)).msb = true := by
      rw [BitVec.msb_eq_decide, decide_eq_true_eq, hword]
      exact Nat.not_lt.1 hfits
    exact iff_of_false (not_writes_of_msb hmsb) fun hw => hfits (hparity.2 hw.1)

/-- **Numbers are read as they were written, and never from a shorter text.** Writing a number below
two to the 62 ends, with its digits. A sequence of such numbers is read as it was written, and each
text that is read as one of them has as many digits, or more. -/
theorem decode_flatMap_encode_shortest {values : List Int}
    (h : ∀ v ∈ values, 2 * v.natAbs < Word.half) :
    (∀ v ∈ values, ∀ t, Writes (signWord (BitVec.ofInt 64 v)) t ↔ t = encode v) ∧
      decode (values.flatMap encode) = .ok values ∧
      ∀ v ∈ values, ∀ t, decode t = .ok [v] → (encode v).length ≤ t.length := by
  refine ⟨fun v hv t => ?_, decode_flatMap_encode values fun v hv => ?_,
    fun v _ t => length_encode_le_of_decode⟩
  · have hv := h v hv
    rw [writes_signWord_iff (by omega), and_iff_right hv]
  · have hv := h v hv
    have hsize : Word.half + Word.half = Word.size := rfl
    unfold ofInt
    split <;> omega

/-- The numbers next to zero, and those next to the first that is not written. -/
theorem decode_flatMap_encode_shortest_largest :
    let values : List Int := [0, -1, 4611686018427387903, -4611686018427387903]
    (∀ v ∈ values, 2 * v.natAbs < Word.half) ∧
      values.map encode = ["A".toList, "D".toList, "+///////////H".toList, "////////////H".toList] ∧
      (∀ v ∈ values, Writes (signWord (BitVec.ofInt 64 v)) (encode v)) ∧
      decode "AD+///////////H////////////H".toList = .ok values := by
  intro values
  have h : ∀ v ∈ values, 2 * v.natAbs < Word.half := by decide
  have htexts : values.map encode =
      ["A".toList, "D".toList, "+///////////H".toList, "////////////H".toList] := by decide +kernel
  obtain ⟨hwrites, hdecode, -⟩ := decode_flatMap_encode_shortest h
  refine ⟨h, htexts, fun v hv => (hwrites v hv _).2 rfl, ?_⟩
  rw [List.flatMap_def, htexts] at hdecode
  exact hdecode

end Provenance.Vlq
