import Provenance.Text.Basic

/-!
# The base-64 alphabet

* `Base64.digit n` : the character for a value below 64: `A` to `Z`, `a` to `z`, `0` to `9`, `+`
  and `/`;
* `Base64.value? c` : the value of a digit, `none` for any other character.

The two are inverse to each other (`value?_digit`, `digit_of_value?`).
-/

namespace Provenance.Base64

def digit (n : Nat) : Char :=
  if n < 26 then Char.ofNat (n + 65)
  else if n < 52 then Char.ofNat (n + 71)
  else if n < 62 then Char.ofNat (n - 4)
  else if n = 62 then '+' else '/'

def value? (c : Char) : Option Nat :=
  let n := c.toNat
  if 65 ≤ n ∧ n ≤ 90 then some (n - 65)
  else if 97 ≤ n ∧ n ≤ 122 then some (n - 71)
  else if 48 ≤ n ∧ n ≤ 57 then some (n + 4)
  else if c = '+' then some 62
  else if c = '/' then some 63
  else none

theorem value?_digit {n : Nat} (h : n < 64) : value? (digit n) = some n := by
  have all : ∀ k : Fin 64, value? (digit k) = some k.val := by decide
  exact all ⟨n, h⟩

theorem value?_lt {c : Char} {n : Nat} (h : value? c = some n) : n < 64 := by
  grind [value?]

theorem digit_of_value? {c : Char} {n : Nat} (h : value? c = some n) : digit n = c := by
  have back : ∀ k, k = c.toNat → Char.ofNat k = c := fun k hk => hk ▸ Char.ofNat_toNat c
  simp only [value?] at h
  split at h
  · obtain rfl := Option.some.inj h
    rw [digit, if_pos (by omega), back _ (by omega)]
  split at h
  · obtain rfl := Option.some.inj h
    rw [digit, if_neg (by omega), if_pos (by omega), back _ (by omega)]
  split at h
  · obtain rfl := Option.some.inj h
    rw [digit, if_neg (by omega), if_neg (by omega), if_pos (by omega), back _ (by omega)]
  split at h
  · obtain rfl := Option.some.inj h
    simp_all [digit]
  split at h
  · obtain rfl := Option.some.inj h
    simp_all [digit]
  · simp at h

end Provenance.Base64
