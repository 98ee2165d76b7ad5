import Provenance.Text.Basic

/-!
# Quoted texts

Inside double quotes a text may hold any character from U+0020 on except `"` and the backslash.
These two and the control characters are escaped. An escape `\uXXXX` names a 16-bit unit, and two
units may make up one character, so an escape can name half a character that stays alone.

* `Quoted.escape`, `Quoted.spell` : how texts are written; only what has to be escaped is;
* `Quoted.pieces?` : the characters and units up to the closing quote, and what follows it;
* `Quoted.join?` : the text of such pieces, `none` if half a character is left alone;
* `Quoted.read?` : both together. It reads what was written (`read?_escape_append`).
-/

namespace Provenance.Json.Quoted

/-! ## Writing -/

def escape (c : Char) : Text :=
  if c = '"' then ['\\', '"']
  else if c = '\\' then ['\\', '\\']
  else if c = '\x08' then ['\\', 'b']
  else if c = '\x0c' then ['\\', 'f']
  else if c = '\n' then ['\\', 'n']
  else if c = '\r' then ['\\', 'r']
  else if c = '\t' then ['\\', 't']
  else if c.toNat < 0x20 then
    ['\\', 'u', '0', '0', Nat.digitChar (c.toNat / 16), Nat.digitChar (c.toNat % 16)]
  else [c]

/-- The written form of a text, with its quotes. A text that cannot be read is written as one half
of a character. -/
def spell : Option Text → Text
  | some t => '"' :: t.flatMap escape ++ ['"']
  | none => "\"\\ud800\"".toList

/-! ## Reading -/

/-- A written character: the character itself, or a 16-bit unit given in hexadecimal. -/
inductive Piece where
  | char (c : Char)
  | code (n : Nat)
  deriving DecidableEq, Repr

def named? : Char → Option Char
  | '"' => some '"'
  | '\\' => some '\\'
  | '/' => some '/'
  | 'b' => some '\x08'
  | 'f' => some '\x0c'
  | 'n' => some '\n'
  | 'r' => some '\r'
  | 't' => some '\t'
  | _ => none

def hexValue? (c : Char) : Option Nat :=
  if '0' ≤ c ∧ c ≤ '9' then some (c.toNat - 48)
  else if 'a' ≤ c ∧ c ≤ 'f' then some (c.toNat - 87)
  else if 'A' ≤ c ∧ c ≤ 'F' then some (c.toNat - 55)
  else none

def code? (a b c d : Char) : Option Nat := do
  return (← hexValue? a) * 4096 + (← hexValue? b) * 256 + (← hexValue? c) * 16 + (← hexValue? d)

/-- The pieces up to the closing quote, and what follows it. -/
def pieces? : Text → Option (List Piece × Text)
  | [] => none
  | '"' :: rest => some ([], rest)
  | '\\' :: 'u' :: a :: b :: c :: d :: rest => do
    let n ← code? a b c d
    let (more, rest) ← pieces? rest
    return (.code n :: more, rest)
  | '\\' :: name :: rest => do
    let c ← named? name
    let (more, rest) ← pieces? rest
    return (.char c :: more, rest)
  | c :: rest =>
    if c.toNat < 0x20 then none
    else do
      let (more, rest) ← pieces? rest
      return (.char c :: more, rest)

/-- A unit that is the first half of a character. -/
def isHighHalf (n : Nat) : Bool := 0xD800 ≤ n && n < 0xDC00

def isLowHalf (n : Nat) : Bool := 0xDC00 ≤ n && n < 0xE000

/-- The character whose halves are two units. -/
def whole (high low : Nat) : Char := Char.ofNat (0x10000 + (high - 0xD800) * 0x400 + (low - 0xDC00))

def joinFrom? : Option Nat → List Piece → Option Text
  | none, [] => some []
  | none, .char c :: rest => (joinFrom? none rest).map (c :: ·)
  | none, .code n :: rest =>
    if isHighHalf n then joinFrom? (some n) rest
    else if isLowHalf n then none
    else (joinFrom? none rest).map (Char.ofNat n :: ·)
  | some high, .code n :: rest =>
    if isLowHalf n then (joinFrom? none rest).map (whole high n :: ·) else none
  | some _, _ => none

/-- The text of pieces. Two units that are halves of one character make it up; a half that stays
alone leaves no text. -/
def join? (pieces : List Piece) : Option Text := joinFrom? none pieces

def read? (t : Text) : Option (Option Text × Text) :=
  (pieces? t).map fun (pieces, rest) => (join? pieces, rest)

/-! ## Reading what was written -/

theorem code?_control {n : Nat} (h : n < 0x20) :
    code? '0' '0' (Nat.digitChar (n / 16)) (Nat.digitChar (n % 16)) = some n := by
  have all : ∀ k : Fin 0x20,
      code? '0' '0' (Nat.digitChar (k / 16)) (Nat.digitChar (k % 16)) = some k.val := by decide
  exact all ⟨n, h⟩

theorem pieces?_escape_append (c : Char) (rest : Text) :
    ∃ p, pieces? (escape c ++ rest) = (pieces? rest).map (fun (ps, u) => (p :: ps, u)) ∧
      ∀ ps, join? (p :: ps) = (join? ps).map (c :: ·) := by
  have named : ∀ name, named? name = some c → escape c = ['\\', name] → name ≠ 'u' →
      ∃ p, pieces? (escape c ++ rest) = (pieces? rest).map (fun (ps, u) => (p :: ps, u)) ∧
        ∀ ps, join? (p :: ps) = (join? ps).map (c :: ·) := by
    intro name hn he hu
    refine ⟨.char c, ?_, fun _ => rfl⟩
    rw [he]
    show pieces? ('\\' :: name :: rest) = _
    rw [pieces?.eq_4 _ _ fun _ _ _ _ _ h => absurd h hu, hn]
    cases pieces? rest <;> rfl
  by_cases h1 : c = '"'
  · exact named '"' (by simp [h1, named?]) (by simp [h1, escape]) (by decide)
  by_cases h2 : c = '\\'
  · exact named '\\' (by simp [h2, named?]) (by simp [h2, escape]) (by decide)
  by_cases h3 : c = '\x08'
  · exact named 'b' (by simp [h3, named?]) (by simp [h3, escape]) (by decide)
  by_cases h4 : c = '\x0c'
  · exact named 'f' (by simp [h4, named?]) (by simp [h4, escape]) (by decide)
  by_cases h5 : c = '\n'
  · exact named 'n' (by simp [h5, named?]) (by simp [h5, escape]) (by decide)
  by_cases h6 : c = '\r'
  · exact named 'r' (by simp [h6, named?]) (by simp [h6, escape]) (by decide)
  by_cases h7 : c = '\t'
  · exact named 't' (by simp [h7, named?]) (by simp [h7, escape]) (by decide)
  by_cases h8 : c.toNat < 0x20
  · refine ⟨.code c.toNat, ?_, fun ps => ?_⟩
    · simp only [escape, if_neg h1, if_neg h2, if_neg h3, if_neg h4, if_neg h5, if_neg h6, if_neg h7,
        if_pos h8, List.cons_append, List.nil_append, pieces?, code?_control h8]
      cases pieces? rest <;> rfl
    · have high : isHighHalf c.toNat = false := by grind [isHighHalf]
      have low : isLowHalf c.toNat = false := by grind [isLowHalf]
      simp [join?, joinFrom?, high, low, Char.ofNat_toNat]
  · refine ⟨.char c, ?_, fun _ => rfl⟩
    simp only [escape, if_neg h1, if_neg h2, if_neg h3, if_neg h4, if_neg h5, if_neg h6, if_neg h7,
      if_neg h8, List.singleton_append]
    rw [pieces?.eq_5 _ _ h1 (fun _ _ _ _ _ h => absurd h h2) (fun _ _ h => absurd h h2), if_neg h8]
    cases pieces? rest <;> rfl

/-- A text is read as it was written. -/
theorem read?_escape_append (t rest : Text) :
    read? (t.flatMap escape ++ '"' :: rest) = some (some t, rest) := by
  suffices h : ∃ ps, pieces? (t.flatMap escape ++ '"' :: rest) = some (ps, rest) ∧
      join? ps = some t by
    obtain ⟨ps, hp, hj⟩ := h
    simp [read?, hp, hj]
  induction t with
  | nil => exact ⟨[], by simp [pieces?], rfl⟩
  | cons c t ih =>
    obtain ⟨ps, hp, hj⟩ := ih
    obtain ⟨p, hc, hjoin⟩ := pieces?_escape_append c (t.flatMap escape ++ '"' :: rest)
    refine ⟨p :: ps, ?_, ?_⟩
    · rw [List.flatMap_cons, List.append_assoc, hc, hp]
      rfl
    · rw [hjoin, hj]
      rfl

/-! ## A quoted text takes up characters -/

theorem length_lt_of_pieces? {t rest : Text} {ps : List Piece} (h : pieces? t = some (ps, rest)) :
    rest.length < t.length := by
  fun_induction pieces? t generalizing ps rest with
  | case1 => simp at h
  | case2 => simp_all
  | case3 a b c d t ih =>
    simp only [Option.bind_eq_bind, Option.bind_eq_some_iff] at h
    obtain ⟨n, -, ⟨more, u⟩, hu, h⟩ := h
    cases h
    have := ih hu
    simp only [List.length_cons]
    omega
  | case4 name t _ ih =>
    simp only [Option.bind_eq_bind, Option.bind_eq_some_iff] at h
    obtain ⟨c, -, ⟨more, u⟩, hu, h⟩ := h
    cases h
    have := ih hu
    simp only [List.length_cons]
    omega
  | case5 => simp at h
  | case6 c t _ _ _ _ ih =>
    simp only [Option.bind_eq_bind, Option.bind_eq_some_iff] at h
    obtain ⟨⟨more, u⟩, hu, h⟩ := h
    cases h
    have := ih hu
    simp only [List.length_cons]
    omega

end Provenance.Json.Quoted
