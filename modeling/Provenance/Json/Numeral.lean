import Provenance.Text.Basic

/-!
# Numerals

A numeral keeps what was written, because a number may be larger than any type a reader has for it.

* `Numeral` : sign, whole part, digits behind the point and exponent;
* `Numeral.ofNat`, `Numeral.toNat?` : the numerals of natural numbers, and back;
* `Numeral.spell`, `Numeral.read?` : the written form, and the numeral at the start of a text.

The whole part has no leading zeros, and digits have to stand on both sides of a point.
-/

namespace Provenance.Json

/-- A number as it is written. -/
structure Numeral where
  negative : Bool
  whole : Nat
  /-- The digits behind the point, none if there is no point. -/
  fraction : Text
  exponent : Option Int
  deriving DecidableEq, Repr

namespace Numeral

def ofNat (n : Nat) : Numeral := ⟨false, n, [], none⟩

/-- The natural number below `bound` that a numeral without sign, point and exponent names. -/
def toNat? (bound : Nat) : Numeral → Option Nat
  | ⟨false, n, [], none⟩ => if n < bound then some n else none
  | _ => none

theorem toNat?_ofNat {n bound : Nat} (h : n < bound) : (ofNat n).toNat? bound = some n := by
  simp [toNat?, ofNat, h]

def spell (n : Numeral) : Text :=
  (if n.negative then ['-'] else []) ++ Text.ofNat n.whole ++
    (if n.fraction = [] then [] else '.' :: n.fraction) ++
    match n.exponent with
    | none => []
    | some e => 'e' :: Text.ofInt e

/-- The digits at the start of a text, of which there has to be one, and what follows them. -/
def digits? (t : Text) : Option (Text × Text) :=
  match t.takeWhile Char.isDigit with
  | [] => none
  | ds => some (ds, t.dropWhile Char.isDigit)

/-- The whole part of a number, which has no zero in front of another digit. -/
def whole? : Text → Option (Nat × Text)
  | '0' :: rest => some (0, rest)
  | t => (digits? t).map fun (ds, rest) => (Nat.ofDigitChars 10 ds 0, rest)

def fraction? : Text → Option (Text × Text)
  | '.' :: rest => digits? rest
  | t => some ([], t)

/-- The exponent behind its letter: a sign may precede it, and leading zeros may. -/
def power? : Text → Option (Int × Text)
  | '-' :: rest => (digits? rest).map fun (ds, rest) => (-(Nat.ofDigitChars 10 ds 0 : Int), rest)
  | '+' :: rest => (digits? rest).map fun (ds, rest) => ((Nat.ofDigitChars 10 ds 0 : Int), rest)
  | t => (digits? t).map fun (ds, rest) => ((Nat.ofDigitChars 10 ds 0 : Int), rest)

def exponent? : Text → Option (Option Int × Text)
  | c :: rest => if c = 'e' ∨ c = 'E' then (power? rest).map fun (e, rest) => (some e, rest)
    else some (none, c :: rest)
  | [] => some (none, [])

def readUnsigned? (negative : Bool) (t : Text) : Option (Numeral × Text) := do
  let (whole, t) ← whole? t
  let (fraction, t) ← fraction? t
  let (exponent, t) ← exponent? t
  return (⟨negative, whole, fraction, exponent⟩, t)

/-- The numeral at the start of a text, as long as it can be, and what follows it. -/
def read? : Text → Option (Numeral × Text)
  | '-' :: t => readUnsigned? true t
  | t => readUnsigned? false t

/-! ## A numeral takes up characters -/

theorem length_lt_of_digits? {t ds rest : Text} (h : digits? t = some (ds, rest)) :
    rest.length < t.length := by
  have whole : t.takeWhile Char.isDigit ++ t.dropWhile Char.isDigit = t :=
    List.takeWhile_append_dropWhile
  have := congrArg List.length whole
  cases hd : t.takeWhile Char.isDigit <;> grind [digits?]

theorem length_lt_of_whole? {t rest : Text} {n : Nat} (h : whole? t = some (n, rest)) :
    rest.length < t.length := by
  fun_cases whole? t with
  | case1 => simp_all [whole?]
  | case2 t hz =>
    rw [whole?.eq_2 t hz] at h
    obtain ⟨⟨ds, u⟩, hd, h⟩ := Option.map_eq_some_iff.1 h
    cases h
    exact length_lt_of_digits? hd

theorem length_le_of_fraction? {t ds rest : Text} (h : fraction? t = some (ds, rest)) :
    rest.length ≤ t.length := by
  unfold fraction? at h
  split at h
  · have := length_lt_of_digits? h
    simp only [List.length_cons]
    omega
  · simp_all

theorem length_lt_of_power? {t rest : Text} {e : Int} (h : power? t = some (e, rest)) :
    rest.length < t.length := by
  unfold power? at h
  split at h <;> obtain ⟨⟨ds, u⟩, hd, h⟩ := Option.map_eq_some_iff.1 h <;> cases h
  · exact Nat.lt_succ_of_lt (length_lt_of_digits? hd)
  · exact Nat.lt_succ_of_lt (length_lt_of_digits? hd)
  · exact length_lt_of_digits? hd

theorem length_le_of_exponent? {t rest : Text} {e : Option Int} (h : exponent? t = some (e, rest)) :
    rest.length ≤ t.length := by
  unfold exponent? at h
  split at h
  · split at h
    · obtain ⟨⟨k, u⟩, hd, h⟩ := Option.map_eq_some_iff.1 h
      cases h
      have := length_lt_of_power? hd
      simp only [List.length_cons]
      omega
    · simp_all
  · simp_all

theorem length_lt_of_readUnsigned? {b : Bool} {t rest : Text} {n : Numeral}
    (h : readUnsigned? b t = some (n, rest)) : rest.length < t.length := by
  simp only [readUnsigned?, Option.bind_eq_bind, Option.bind_eq_some_iff] at h
  obtain ⟨⟨w, u⟩, hw, ⟨f, v⟩, hf, ⟨e, x⟩, he, h⟩ := h
  cases h
  have hu : u.length < t.length := length_lt_of_whole? hw
  have hv : v.length ≤ u.length := length_le_of_fraction? hf
  exact Nat.lt_of_le_of_lt (length_le_of_exponent? he) (Nat.lt_of_le_of_lt hv hu)

theorem length_lt_of_read? {t rest : Text} {n : Numeral} (h : read? t = some (n, rest)) :
    rest.length < t.length := by
  unfold read? at h
  split at h
  · have := length_lt_of_readUnsigned? h
    simp only [List.length_cons]
    omega
  · exact length_lt_of_readUnsigned? h

end Numeral

end Provenance.Json
