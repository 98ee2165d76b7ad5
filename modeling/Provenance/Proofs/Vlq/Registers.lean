import Provenance.Proofs.Vlq.Groups
import Provenance.Proofs.Vlq.Words

/-!
# Reading numbers in 64-bit words

Numbers are read byte by byte. The word `value` takes up five bits at a time at its place `shift`,
until a digit without a mark ends the number. Whatever the bytes are, no shift, union or negation
of words loses a bit: the test in front of them stops in time.

* `Vlq.Stop.overflow` : what an operation on words gives whose result has no room;
* `Vlq.Registers.step`, `Vlq.readWords` : the loop;
* `Vlq.Registers.step_holding` : what one byte does to registers that hold a natural number, in
  terms of natural numbers;
* `Vlq.Registers.read_holding_utf8` : the loop reads what `Vlq.decodeFrom` reads.
-/

namespace Provenance.Vlq

/-! ## The loop -/

/-- The value of a byte that is a base-64 digit. -/
def digitOf? (byte : UInt8) : Option Nat := Base64.value? (Char.ofNat byte.toNat)

inductive Stop where
  | fault (fault : Fault)
  /-- The result of an operation has no room in a word. -/
  | overflow
  deriving DecidableEq

/-- A word moved to the right, by less than its width. -/
def shiftRight (w : BitVec 64) (n : Nat) : Except Stop (BitVec 64) :=
  if n < 64 then .ok (w >>> n) else .error .overflow

/-- A word moved to the left, by less than its width and so that no bit is lost. -/
def shiftLeft (w : BitVec 64) (n : Nat) : Except Stop (BitVec 64) :=
  if n < 64 ∧ (w <<< n) >>> n = w then .ok (w <<< n) else .error .overflow

/-- The bits of two words that have none in common. -/
def union (v w : BitVec 64) : Except Stop (BitVec 64) :=
  if v &&& w = 0 then .ok (v ||| w) else .error .overflow

/-- The negative of a word with a sign, which the least of them does not have. -/
def negate (w : BitVec 64) : Except Stop (BitVec 64) :=
  if w = BitVec.intMin 64 then .error .overflow else .ok (-w)

/-- The word with a sign for a word with the sign in its lowest bit. -/
def signed (w : BitVec 64) : Except Stop (BitVec 64) := do
  let magnitude ← shiftRight w 1
  if w &&& 1 = 1 then negate magnitude else .ok magnitude

/-- Whether one of the five bits of `chunk` has no place in a word from `shift` on. -/
def isTooWide (chunk : BitVec 64) (shift : Nat) : Except Stop Bool :=
  if 64 ≤ shift then .ok true
  else if shift = 0 then .ok false
  else (shiftRight chunk (64 - shift)).map (· != 0)

/-- What the loop keeps: the numbers so far, what has been read of the next one, the place of its
next bit, and whether another digit has to follow. -/
structure Registers where
  values : List (BitVec 64)
  value : BitVec 64
  shift : Nat
  pending : Bool

namespace Registers

def start : Registers := ⟨[], 0, 0, false⟩

def step (r : Registers) (byte : UInt8) : Except Stop Registers :=
  match digitOf? byte with
  | none => .error (.fault (.badDigit byte))
  | some d => do
    let digit := BitVec.ofNat 64 d
    let chunk := digit &&& 31
    if ← isTooWide chunk r.shift then .error (.fault .tooWide)
    else
      let value ← union r.value (← shiftLeft chunk r.shift)
      if digit &&& 32 ≠ 0 then
        .ok ⟨r.values, value, r.shift + 5, true⟩
      else
        .ok ⟨r.values ++ [← signed value], 0, 0, false⟩

def finish (r : Registers) : Except Stop (List (BitVec 64)) :=
  if r.pending then .error (.fault .unterminated) else .ok r.values

def read (r : Registers) (bytes : List UInt8) : Except Stop (List (BitVec 64)) :=
  bytes.foldlM step r >>= finish

end Registers

/-- Every number of a text in UTF-8, as words with a sign. -/
def readWords (bytes : List UInt8) : Except Stop (List (BitVec 64)) := Registers.start.read bytes

/-! ## One operation at a time -/

theorem toNat_ofNat_of_lt {n : Nat} (h : n < Word.size) : (BitVec.ofNat 64 n).toNat = n := by
  rw [BitVec.toNat_ofNat]
  exact Nat.mod_eq_of_lt h

theorem ushiftRight_ofNat {n : Nat} (h : n < Word.size) (k : Nat) :
    BitVec.ofNat 64 n >>> k = BitVec.ofNat 64 (n >>> k) := by
  have hle : n >>> k ≤ n := Nat.shiftRight_le n k
  apply BitVec.eq_of_toNat_eq
  rw [BitVec.toNat_ushiftRight, toNat_ofNat_of_lt h, toNat_ofNat_of_lt (Nat.lt_of_le_of_lt hle h)]

/-- The test tells exactly the bits that have no place in a word. -/
theorem isTooWide_eq {c : Nat} (hc : c < 32) (shift : Nat) :
    isTooWide (BitVec.ofNat 64 c) shift =
      .ok (decide (64 ≤ shift ∨ Word.size ≤ c <<< shift)) := by
  have hsize : Word.size = 18446744073709551616 := rfl
  unfold isTooWide
  split
  · next hwide => rw [decide_eq_true (Or.inl hwide)]
  split
  · next hwide hzero =>
    subst hzero
    rw [decide_eq_false (by rw [Nat.shiftLeft_zero]; omega)]
  · next hwide hpos =>
    have hright : c >>> (64 - shift) ≤ c := Nat.shiftRight_le _ _
    have hlost : (BitVec.ofNat 64 (c >>> (64 - shift)) != 0) =
        decide (64 ≤ shift ∨ Word.size ≤ c <<< shift) := by
      rw [Bool.eq_iff_iff, bne_iff_ne, decide_eq_true_eq, or_iff_right hwide, ← Nat.not_lt,
        shiftLeft_lt_size_iff (Nat.le_of_not_le hwide), Ne, ← BitVec.toNat_inj,
        toNat_ofNat_of_lt (by omega), Nat.shiftRight_eq_div_pow]
      exact not_congr (Nat.div_eq_zero_iff_lt (Nat.two_pow_pos _))
    rw [shiftRight, if_pos (by omega), Except.map, ushiftRight_ofNat (by omega), hlost]

theorem shiftLeft_eq {c shift : Nat} (hshift : shift < 64) (h : c <<< shift < Word.size) :
    shiftLeft (BitVec.ofNat 64 c) shift = .ok (BitVec.ofNat 64 (c <<< shift)) := by
  have hc : c < Word.size := Nat.lt_of_le_of_lt Nat.le_shiftLeft h
  have hleft : BitVec.ofNat 64 c <<< shift = BitVec.ofNat 64 (c <<< shift) := by
    apply BitVec.eq_of_toNat_eq
    rw [BitVec.toNat_shiftLeft, toNat_ofNat_of_lt hc, toNat_ofNat_of_lt h]
    exact Nat.mod_eq_of_lt h
  have hback : BitVec.ofNat 64 (c <<< shift) >>> shift = BitVec.ofNat 64 c := by
    rw [ushiftRight_ofNat h, Nat.shiftLeft_shiftRight]
  rw [shiftLeft, hleft, if_pos ⟨hshift, hback⟩]

/-- What is below a place and what begins there have no bit in common, so that they add up. -/
theorem union_eq {value shift : Nat} (hvalue : value < 2 ^ shift) (c : Nat) :
    union (BitVec.ofNat 64 value) (BitVec.ofNat 64 (c <<< shift)) =
      .ok (BitVec.ofNat 64 (value + c <<< shift)) := by
  have hnat : value &&& c <<< shift = 0 := by
    apply Nat.eq_of_testBit_eq
    intro i
    rw [Nat.testBit_and, Nat.testBit_shiftLeft, Nat.zero_testBit]
    by_cases hi : shift ≤ i
    · rw [Nat.testBit_lt_two_pow (Nat.lt_of_lt_of_le hvalue (Nat.pow_le_pow_right (by decide) hi)),
        Bool.false_and]
    · rw [decide_eq_false hi, Bool.false_and, Bool.and_false]
  have hword : BitVec.ofNat 64 value &&& BitVec.ofNat 64 (c <<< shift) = 0 := by
    rw [← BitVec.ofNat_and, hnat]
    rfl
  rw [union, if_pos hword, ← BitVec.add_eq_or_of_and_eq_zero _ _ hword, ← BitVec.ofNat_add]

theorem signed_eq {n : Nat} (h : n < Word.size) :
    signed (BitVec.ofNat 64 n) = .ok (BitVec.ofInt 64 (toInt n)) := by
  have hsize : Word.size = 18446744073709551616 := rfl
  have hhalf : BitVec.ofNat 64 n >>> 1 = BitVec.ofNat 64 (n / 2) := ushiftRight_ofNat h 1
  have hlow : BitVec.ofNat 64 n &&& 1 = 1 ↔ n % 2 = 1 := by
    rw [← BitVec.toNat_inj, BitVec.toNat_and, toNat_ofNat_of_lt h]
    show n &&& 1 = 1 ↔ _
    rw [Nat.and_one_is_mod]
  -- Only 63 bits are left beside the sign, so that the least word is out of reach.
  have hleast : BitVec.ofNat 64 (n / 2) ≠ BitVec.intMin 64 := by
    intro heq
    have hnat := congrArg BitVec.toNat heq
    rw [toNat_ofNat_of_lt (by omega), BitVec.toNat_intMin] at hnat
    omega
  unfold signed toInt
  rw [shiftRight, if_pos (by decide), hhalf]
  show (if _ then negate _ else _) = _
  by_cases hodd : n % 2 = 1
  · rw [if_pos (hlow.2 hodd), if_pos hodd, negate, if_neg hleast, BitVec.ofInt_neg,
      BitVec.ofInt_natCast]
  · rw [if_neg (mt hlow.1 hodd), if_neg hodd, BitVec.ofInt_natCast]

/-! ## One byte

`Registers.holding` are the registers that hold a natural number. All that the loop reaches are of
this form, with a number that lies in the bits below the next place. -/

theorem digitOf?_lt {byte : UInt8} {d : Nat} (h : digitOf? byte = some d) : d < 64 :=
  Base64.value?_lt h

theorem lowBits_ofNat {d : Nat} (h : d < 64) :
    BitVec.ofNat 64 d &&& 31 = BitVec.ofNat 64 (d % 32) := by
  have hsize : Word.size = 18446744073709551616 := rfl
  apply BitVec.eq_of_toNat_eq
  rw [toNat_lowBits, toNat_ofNat_of_lt (by omega), toNat_ofNat_of_lt (by omega)]

theorem mark_ofNat_ne_zero_iff {d : Nat} (h : d < 64) : BitVec.ofNat 64 d &&& 32 ≠ 0 ↔ 32 ≤ d := by
  have all : ∀ k : Fin 64, BitVec.ofNat 64 k &&& 32 ≠ 0 ↔ 32 ≤ k.val := by decide
  exact all ⟨d, h⟩

namespace Registers

/-- The registers behind the numbers `values`, with `value` read below the place `shift`. -/
def holding (values : List (BitVec 64)) (value shift : Nat) : Registers :=
  ⟨values, BitVec.ofNat 64 value, shift, decide (shift ≠ 0)⟩

/-- **No operation of the loop loses a bit**: a byte is taken as `decodeFrom` takes a character. -/
theorem step_holding {value shift : Nat} (h : value < 2 ^ shift) (values : List (BitVec 64))
    (byte : UInt8) :
    (holding values value shift).step byte =
      match digitOf? byte with
      | none => .error (.fault (.badDigit byte))
      | some d =>
        let group := (d % 32) <<< shift
        if 64 ≤ shift ∨ Word.size ≤ group then .error (.fault .tooWide)
        else if 32 ≤ d then .ok (holding values (value + group) (shift + 5))
        else .ok (holding (values ++ [BitVec.ofInt 64 (toInt (value + group))]) 0 0) := by
  unfold step
  cases hdigit : digitOf? byte with
  | none => rfl
  | some d =>
    have hd := digitOf?_lt hdigit
    have hlow := Nat.mod_lt d (by decide : 0 < 32)
    simp only [holding, lowBits_ofNat hd, isTooWide_eq hlow, mark_ofNat_ne_zero_iff hd]
    by_cases hwide : 64 ≤ shift ∨ Word.size ≤ (d % 32) <<< shift
    · rw [if_pos hwide, decide_eq_true hwide]
      rfl
    · have hshift := Nat.not_le.1 (not_or.1 hwide).1
      have hgroup := Nat.not_le.1 (not_or.1 hwide).2
      have hvalue := add_shiftLeft_lt_size h (Nat.le_of_lt hshift) hgroup
      rw [if_neg hwide, decide_eq_false hwide, shiftLeft_eq hshift hgroup]
      simp only [bind, Except.bind, union_eq h, signed_eq hvalue]
      rfl

theorem read_cons (r : Registers) (byte : UInt8) (bytes : List UInt8) :
    r.read (byte :: bytes) = r.step byte >>= fun r => r.read bytes := by
  cases hr : r.step byte <;> rw [read, List.foldlM_cons, hr] <;> rfl

end Registers

/-! ## The bytes of a text -/

theorem toNat_le_of_value? {c : Char} {d : Nat} (h : Base64.value? c = some d) : c.toNat ≤ 127 := by
  have all : ∀ k : Fin 64, (Base64.digit k).toNat ≤ 127 := by decide
  rw [← Base64.digit_of_value? h]
  exact all ⟨d, Base64.value?_lt h⟩

theorem utf8EncodeChar_of_le {c : Char} (h : c.toNat ≤ 127) :
    String.utf8EncodeChar c = [UInt8.ofNat c.toNat] := if_pos h

/-- Characters beyond ASCII begin with a byte beyond ASCII. -/
theorem le_headD_utf8EncodeChar {c : Char} (h : ¬c.toNat ≤ 127) :
    128 ≤ ((String.utf8EncodeChar c).headD 0).toNat := by
  have hbeyond : ¬c.val.toNat ≤ 127 := h
  unfold String.utf8EncodeChar
  simp only [hbeyond, if_false]
  split_ifs
  all_goals
    rw [List.headD_cons, UInt8.toNat_ofNat']
    omega

theorem digitOf?_eq_none_of_le {byte : UInt8} (h : 128 ≤ byte.toNat) : digitOf? byte = none := by
  have hvalid : byte.toNat.isValidChar := .inl (by have := byte.toNat_lt; omega)
  have hchar : (Char.ofNat byte.toNat).toNat = byte.toNat := by
    rw [Char.ofNat, dif_pos hvalid]
    rfl
  cases hd : digitOf? byte with
  | none => rfl
  | some d =>
    have hle := toNat_le_of_value? hd
    omega

/-- A character is a digit if its first byte is, and of the same value. -/
theorem digitOf?_headD_utf8EncodeChar (c : Char) :
    digitOf? ((String.utf8EncodeChar c).headD 0) = Base64.value? c := by
  by_cases h : c.toNat ≤ 127
  · have hbyte : (UInt8.ofNat c.toNat).toNat = c.toNat :=
      UInt8.toNat_ofNat_of_lt' (Nat.lt_of_le_of_lt h (by decide))
    rw [utf8EncodeChar_of_le h, List.headD_cons, digitOf?, hbyte, Char.ofNat_toNat]
  · rw [digitOf?_eq_none_of_le (le_headD_utf8EncodeChar h)]
    cases hd : Base64.value? c with
    | none => rfl
    | some d => exact absurd (toNat_le_of_value? hd) h

theorem utf8_cons (c : Char) (t : Text) :
    ∃ bytes, Text.utf8 (c :: t) = (String.utf8EncodeChar c).headD 0 :: bytes := by
  cases hc : String.utf8EncodeChar c with
  | nil =>
    have hlength := String.length_utf8EncodeChar c
    rw [hc, List.length_nil] at hlength
    exact absurd hlength (Nat.ne_of_lt c.utf8Size_pos)
  | cons byte bytes => exact ⟨bytes ++ Text.utf8 t, by rw [Text.utf8, List.flatMap_cons, hc]; rfl⟩

theorem utf8_cons_of_value? {c : Char} {d : Nat} (h : Base64.value? c = some d) (t : Text) :
    Text.utf8 (c :: t) = (String.utf8EncodeChar c).headD 0 :: Text.utf8 t := by
  rw [Text.utf8, List.flatMap_cons, utf8EncodeChar_of_le (toNat_le_of_value? h)]
  rfl

/-! ## The text -/

theorem toInt_ofInt_toInt {n : Nat} (h : n < Word.size) :
    (BitVec.ofInt 64 (toInt n)).toInt = toInt n := by
  have hsize : Word.size = 18446744073709551616 := rfl
  rw [BitVec.toInt_ofInt]
  unfold toInt
  apply Int.bmod_eq_of_le <;> split <;> omega

/-- The loop on words reads what `decodeFrom` reads. -/
theorem Registers.read_holding_utf8 (t : Text) {value shift : Nat} (h : value < 2 ^ shift)
    (values : List (BitVec 64)) :
    ((holding values value shift).read (Text.utf8 t)).map (·.map BitVec.toInt) =
      ((decodeFrom value shift t).map (values.map BitVec.toInt ++ ·)).mapError .fault := by
  -- The number is kept below its place, which leaves the bits of the next digit free.
  induction t generalizing value shift values with
  | nil =>
    show (holding values value shift).finish.map _ = _
    rw [decodeFrom, finish, holding]
    by_cases hshift : shift = 0
    · rw [if_pos hshift, if_neg (by simpa using hshift)]
      exact congrArg Except.ok (List.append_nil _).symm
    · rw [if_neg hshift, if_pos (decide_eq_true hshift)]
      rfl
  | cons c t ih =>
    have hbyte := digitOf?_headD_utf8EncodeChar c
    cases hc : Base64.value? c with
    | none =>
      obtain ⟨bytes, hbytes⟩ := utf8_cons c t
      rw [hbytes, decodeFrom, hc, read_cons, step_holding h, hbyte, hc]
      rfl
    | some d =>
      rw [utf8_cons_of_value? hc, decodeFrom, hc, read_cons, step_holding h, hbyte, hc]
      dsimp only
      by_cases hwide : 64 ≤ shift ∨ Word.size ≤ (d % 32) <<< shift
      · rw [if_pos hwide, if_pos hwide]
        rfl
      rw [if_neg hwide, if_neg hwide]
      by_cases hmark : 32 ≤ d
      · rw [if_pos hmark, if_pos hmark]
        exact ih (add_shiftLeft_lt h (Nat.mod_lt d (by decide : 0 < 2 ^ 5))) values
      · obtain ⟨hshift, hgroup⟩ := not_or.1 hwide
        have hvalue := add_shiftLeft_lt_size h (Nat.le_of_not_le hshift) (Nat.not_le.1 hgroup)
        have hstart : 0 < 2 ^ 0 := Nat.one_pos
        rw [if_neg hmark, if_neg hmark]
        refine (ih hstart _).trans ?_
        rw [List.map_append, List.map_singleton, toInt_ofInt_toInt hvalue]
        cases decodeFrom 0 0 t with
        | error fault => rfl
        | ok rest => exact congrArg Except.ok (List.append_assoc _ _ _)

/-- The loop on words reads the numbers that `decode` reads, or finds the fault that it finds. -/
theorem map_readWords_utf8 (t : Text) :
    (readWords (Text.utf8 t)).map (·.map BitVec.toInt) = (decode t).mapError .fault := by
  have hstart : 0 < 2 ^ 0 := Nat.one_pos
  refine (Registers.read_holding_utf8 t hstart []).trans ?_
  rw [decode]
  cases decodeFrom 0 0 t <;> rfl

end Provenance.Vlq
