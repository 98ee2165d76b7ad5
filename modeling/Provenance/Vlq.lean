import Provenance.Base64.Digit
import Provenance.Word

/-!
# Base-64 VLQ numbers

An integer is written as the natural number `2 |v|`, plus one if it is negative, in groups of five
bits, the lowest first. Each group is a base-64 digit, whose value is 32 higher if another follows.

* `Vlq.ofInt`, `Vlq.toInt` : the sign in the lowest bit, and back;
* `Vlq.digits` : the digits of a natural number; `Vlq.encode` : those of an integer;
* `Vlq.decode` : every integer of a text, or the first `Vlq.Fault` in it. A number has to fit into
  64 bits, digit by digit. Numbers that fit are read as they were written
  (`decode_flatMap_encode`).
-/

namespace Provenance.Vlq

/-! ## Writing -/

/-- The natural number that stands for an integer: the sign is its lowest bit. -/
def ofInt (v : Int) : Nat := if v < 0 then 2 * v.natAbs + 1 else 2 * v.natAbs

def toInt (n : Nat) : Int := if n % 2 = 1 then -(n / 2 : Nat) else (n / 2 : Nat)

/-- The digits of a natural number, the lowest five bits first. -/
def digits (n : Nat) : Text :=
  if n < 32 then [Base64.digit n] else Base64.digit (n % 32 + 32) :: digits (n / 32)
termination_by n

def encode (v : Int) : Text := digits (ofInt v)

theorem toInt_ofInt (v : Int) : toInt (ofInt v) = v := by
  unfold toInt ofInt
  split <;> split <;> omega

/-! ## Reading -/

inductive Fault where
  /-- A character that is no base-64 digit, as the first byte of its UTF-8 form. -/
  | badDigit (byte : UInt8)
  /-- A number that does not fit into 64 bits. -/
  | tooWide
  /-- The text ends where another digit has to follow. -/
  | unterminated
  deriving DecidableEq, Repr

/-- Reads on where `value` has been read in the first `shift` bits of a number. -/
def decodeFrom (value shift : Nat) : Text → Except Fault (List Int)
  | [] => if shift = 0 then .ok [] else .error .unterminated
  | c :: rest =>
    match Base64.value? c with
    | none => .error (.badDigit ((String.utf8EncodeChar c).headD 0))
    | some d =>
      let group := (d % 32) <<< shift
      if 64 ≤ shift ∨ Word.size ≤ group then .error .tooWide
      else if 32 ≤ d then decodeFrom (value + group) (shift + 5) rest
      else (decodeFrom 0 0 rest).map (toInt (value + group) :: ·)

def decode (t : Text) : Except Fault (List Int) := decodeFrom 0 0 t

theorem decodeFrom_digit_cons {d : Nat} (h : d < 64) (value shift : Nat) (rest : Text) :
    decodeFrom value shift (Base64.digit d :: rest) =
      if 64 ≤ shift ∨ Word.size ≤ (d % 32) <<< shift then .error .tooWide
      else if 32 ≤ d then decodeFrom (value + (d % 32) <<< shift) (shift + 5) rest
      else (decodeFrom 0 0 rest).map (toInt (value + (d % 32) <<< shift) :: ·) := by
  rw [decodeFrom, Base64.value?_digit h]

/-! ## Reading what was written -/

theorem shiftLeft_mod_add_div (n shift : Nat) :
    (n % 32) <<< shift + (n / 32) <<< (shift + 5) = n <<< shift := by
  have up : (n / 32) <<< 5 = 32 * (n / 32) := by rw [Nat.shiftLeft_eq, Nat.mul_comm]
  rw [Nat.add_comm shift 5, Nat.shiftLeft_add, up]
  simp only [Nat.shiftLeft_eq]
  rw [← Nat.add_mul, Nat.mod_add_div]

theorem shift_lt_of_shiftLeft_lt {n shift : Nat} (hn : 0 < n) (h : n <<< shift < Word.size) :
    shift < 64 := by
  have top : 1 <<< shift ≤ n <<< shift := by
    simp only [Nat.shiftLeft_eq]
    exact Nat.mul_le_mul_right _ hn
  have pow : 1 <<< shift < 1 <<< 64 := Nat.lt_of_le_of_lt top h
  simp only [Nat.one_shiftLeft] at pow
  exact (Nat.pow_lt_pow_iff_right (by decide)).1 pow

theorem decodeFrom_digits_append (n : Nat) (value shift : Nat) (rest : Text) (hs : shift < 64)
    (h : n <<< shift < Word.size) :
    decodeFrom value shift (digits n ++ rest) =
      (decodeFrom 0 0 rest).map (toInt (value + n <<< shift) :: ·) := by
  induction n using digits.induct generalizing value shift with
  | case1 n hn =>
    rw [digits, if_pos hn, List.singleton_append, decodeFrom_digit_cons (by omega),
      Nat.mod_eq_of_lt hn, if_neg (by omega), if_neg (by omega)]
  | case2 n hn ih =>
    have parts := shiftLeft_mod_add_div n shift
    have hlow : (n % 32) <<< shift < Word.size :=
      Nat.lt_of_le_of_lt (Nat.le_add_right _ _) (parts ▸ h)
    have hrest : (n / 32) <<< (shift + 5) < Word.size :=
      Nat.lt_of_le_of_lt (Nat.le_add_left _ _) (parts ▸ h)
    rw [digits, if_neg hn, List.cons_append, decodeFrom_digit_cons (by omega), Nat.add_mod_right,
      Nat.mod_mod, if_neg (not_or.2 ⟨Nat.not_le.2 hs, Nat.not_le.2 hlow⟩), if_pos (by omega),
      ih _ _ (shift_lt_of_shiftLeft_lt (by omega) hrest) hrest, Nat.add_assoc, parts]

/-- A sequence of numbers that fit is read as it was written. -/
theorem decode_flatMap_encode (values : List Int) (h : ∀ v ∈ values, ofInt v < Word.size) :
    decode (values.flatMap encode) = .ok values := by
  induction values with
  | nil => rfl
  | cons v values ih =>
    have hv : ofInt v <<< 0 < Word.size := h v (by simp)
    rw [List.flatMap_cons, decode, encode, decodeFrom_digits_append _ _ _ _ (by decide) hv]
    rw [← decode, ih fun w hw => h w (by simp [hw])]
    simp [Except.map, toInt_ofInt]

end Provenance.Vlq
