import Provenance.Json.Basic
import Provenance.Word

/-!
# Values that can be held whole

A reader that takes a value in whole, before it knows what it is for, refuses some values that
another reader may pass over.

* `Numeral.fitsDouble` : whether a number is within the range of a double;
* `Json.isHoldable` : whether all numbers of a value are, all its texts can be read, and it is not
  nested too deeply.

The test of a numeral works as the conversion does that takes the leading digits that fit into a
64-bit word as an integer and multiplies by a power of ten, each rounded to a double. So it may
differ from the exact value by a rounding at the very end of the range.
-/

namespace Provenance.Json

namespace Numeral

/-- A natural number rounded to 53 significant bits, a half to the even neighbour. -/
def round53 (n : Nat) : Nat :=
  let unit := 1 <<< (n.log2 - 52)
  let rest := n % unit
  let down := n - rest
  if rest * 2 < unit ∨ rest * 2 = unit ∧ down / unit % 2 = 0 then down else down + unit

/-- The longest run of leading digits whose number, behind those of `n`, fits into 64 bits: that
number and the digits that remain. -/
def takeWord (n : Nat) : Text → Nat × Text
  | [] => (n, [])
  | c :: rest =>
    let next := n * 10 + (c.toNat - 48)
    if next < Word.size then takeWord next rest else (n, c :: rest)

/-- The exponent of the largest power of ten that a double holds. -/
def largestPower : Nat := 308

/-- The largest exponent that is looked at digit by digit, which is one below two to the 31. -/
def largestExponent : Nat := 2147483647

/-- Whether a number is within the range of a double. From half a unit above the largest double on
a number is rounded to infinity. -/
def fitsDouble (n : Numeral) : Bool :=
  let (whole, left) := takeWord 0 (Text.ofNat n.whole)
  let (significand, unread) := takeWord whole n.fraction
  let shift : Int := left.length - (n.fraction.length - unread.length : Nat)
  let exponent := n.exponent.getD 0
  if significand = 0 then true
  else if (largestExponent : Int) < exponent then false
  else if exponent + shift < 0 then true
  else if (largestPower : Int) < exponent + shift then false
  else
    round53 significand * round53 (Nat.pow 10 (exponent + shift).toNat) <
      (1 <<< 1024) - (1 <<< 970)

end Numeral

/-- How many arrays and objects may stand within each other. -/
def deepest : Nat := 127

mutual

/-- Whether a value with at most `depth` levels can be held whole. -/
def fits (depth : Nat) : Json → Bool
  | .null => true
  | .bool _ => true
  | .num n => n.fitsDouble
  | .str s => s.isSome
  | .arr items => 0 < depth && fitsItems (depth - 1) items
  | .obj members => 0 < depth && fitsMembers (depth - 1) members

def fitsItems (depth : Nat) : List Json → Bool
  | [] => true
  | j :: rest => j.fits depth && fitsItems depth rest

def fitsMembers (depth : Nat) : List (Option Text × Json) → Bool
  | [] => true
  | (k, j) :: rest => k.isSome && j.fits depth && fitsMembers depth rest

end

def isHoldable (j : Json) : Bool := j.fits deepest

end Provenance.Json
