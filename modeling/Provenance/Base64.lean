import Provenance.Base64.Digit

/-!
# Base-64 text of bytes

* `Base64.encode` : three bytes to four digits, the last group filled up with `=`;
* `Base64.decode?` : reads exactly what `encode` writes. The length has to be a multiple of four,
  `=` may stand only for the last one or two digits, and the bits that the last byte leaves over
  have to be zero.
-/

namespace Provenance.Base64

def pad : Char := '='

def encode : List UInt8 → Text
  | a :: b :: c :: rest =>
    let n := a.toNat * 65536 + b.toNat * 256 + c.toNat
    digit (n / 262144) :: digit (n / 4096 % 64) :: digit (n / 64 % 64) :: digit (n % 64) ::
      encode rest
  | [a, b] =>
    let n := a.toNat * 1024 + b.toNat * 4
    [digit (n / 4096), digit (n / 64 % 64), digit (n % 64), pad]
  | [a] =>
    let n := a.toNat * 16
    [digit (n / 64), digit (n % 64), pad, pad]
  | [] => []

/-- The bytes of a whole group of four digits. -/
def group? (a b c d : Char) : Option (List UInt8) := do
  let n := (← value? a) * 262144 + (← value? b) * 4096 + (← value? c) * 64 + (← value? d)
  return [UInt8.ofNat (n / 65536), UInt8.ofNat (n / 256 % 256), UInt8.ofNat (n % 256)]

/-- The bytes of a last group that ends in one or two `=`. -/
def lastGroup? (a b c : Char) : Option (List UInt8) := do
  if c = pad then
    let n := (← value? a) * 64 + (← value? b)
    if n % 16 = 0 then return [UInt8.ofNat (n / 16)] else none
  else
    let n := (← value? a) * 4096 + (← value? b) * 64 + (← value? c)
    if n % 4 = 0 then return [UInt8.ofNat (n / 1024), UInt8.ofNat (n / 4 % 256)] else none

/-- The bytes that a text spells in base 64: `none` unless it is their one spelling. -/
def decode? : Text → Option (List UInt8)
  | [] => some []
  | a :: b :: c :: d :: rest => do
    if rest.isEmpty ∧ d = pad then lastGroup? a b c
    else return (← group? a b c d) ++ (← decode? rest)
  | _ => none

/-! ## Reading what was written -/

theorem digit_ne_pad {n : Nat} (h : n < 64) : digit n ≠ pad := by
  have all : ∀ k : Fin 64, digit k ≠ pad := by decide
  exact all ⟨n, h⟩

theorem ofNat_eq_of_toNat_eq {a : UInt8} {n : Nat} (h : n = a.toNat) : UInt8.ofNat n = a := by
  rw [h, UInt8.ofNat_toNat]

theorem group?_digit {n : Nat} (h : n < 16777216) :
    group? (digit (n / 262144)) (digit (n / 4096 % 64)) (digit (n / 64 % 64)) (digit (n % 64)) =
      some [UInt8.ofNat (n / 65536), UInt8.ofNat (n / 256 % 256), UInt8.ofNat (n % 256)] := by
  have sum : n / 262144 * 262144 + n / 4096 % 64 * 4096 + n / 64 % 64 * 64 + n % 64 = n := by omega
  simp [group?, value?_digit (show n / 262144 < 64 by omega),
    value?_digit (show n / 4096 % 64 < 64 by omega), value?_digit (show n / 64 % 64 < 64 by omega),
    value?_digit (show n % 64 < 64 by omega), sum]

theorem decode?_encode (bytes : List UInt8) : decode? (encode bytes) = some bytes := by
  fun_induction encode bytes with
  | case1 a b c rest n ih =>
    have ha := a.toNat_lt
    have hb := b.toNat_lt
    have hc := c.toNat_lt
    have hn : n = a.toNat * 65536 + b.toNat * 256 + c.toNat := rfl
    clear_value n
    simp [decode?, digit_ne_pad (show n % 64 < 64 by omega), ih,
      group?_digit (show n < 16777216 by omega),
      ofNat_eq_of_toNat_eq (show n / 65536 = a.toNat by omega),
      ofNat_eq_of_toNat_eq (show n / 256 % 256 = b.toNat by omega),
      ofNat_eq_of_toNat_eq (show n % 256 = c.toNat by omega)]
  | case2 a b n =>
    have ha := a.toNat_lt
    have hb := b.toNat_lt
    have hn : n = a.toNat * 1024 + b.toNat * 4 := rfl
    clear_value n
    have sum : n / 4096 * 4096 + n / 64 % 64 * 64 + n % 64 = n := by omega
    simp [decode?, lastGroup?, digit_ne_pad (show n % 64 < 64 by omega),
      value?_digit (show n / 4096 < 64 by omega), value?_digit (show n / 64 % 64 < 64 by omega),
      value?_digit (show n % 64 < 64 by omega), sum, show n % 4 = 0 by omega,
      ofNat_eq_of_toNat_eq (show n / 1024 = a.toNat by omega),
      ofNat_eq_of_toNat_eq (show n / 4 % 256 = b.toNat by omega)]
  | case3 a n =>
    have ha := a.toNat_lt
    have hn : n = a.toNat * 16 := rfl
    clear_value n
    have sum : n / 64 * 64 + n % 64 = n := by omega
    simp [decode?, lastGroup?, value?_digit (show n / 64 < 64 by omega),
      value?_digit (show n % 64 < 64 by omega), sum, show n % 16 = 0 by omega,
      ofNat_eq_of_toNat_eq (show n / 16 = a.toNat by omega)]
  | case4 => rfl

end Provenance.Base64
