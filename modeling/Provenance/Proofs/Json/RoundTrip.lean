import Provenance.Json.Basic
import Provenance.Proofs.Text.Cutting

/-!
# JSON texts are read as they were written

A text without gaps is cut into tokens again because no token can be prolonged by what follows it:
only a numeral could, and a value is followed by nothing or by a comma, a bracket or a brace.

* `Numeral.read?_ofNat_append` : the numeral of a natural number in front of a text that does not
  go on with a number;
* `Token.scan_spell_append` : one token in front of a text;
* `parse?_render` : the text of a value whose numerals are natural numbers.
-/

namespace Provenance.Json

/-! ## Numerals -/

namespace Numeral

/-- A text that does not prolong a numeral in front of it. -/
def Ends (rest : Text) : Prop :=
  ∀ c ∈ rest.head?, c.isDigit = false ∧ c ≠ '.' ∧ c ≠ 'e' ∧ c ≠ 'E'

theorem ends_nil : Ends [] := fun _ h => by simp at h

theorem ends_cons {c : Char} {rest : Text} (h : c.isDigit = false ∧ c ≠ '.' ∧ c ≠ 'e' ∧ c ≠ 'E') :
    Ends (c :: rest) := fun d hd => by
  obtain rfl : c = d := by simpa using hd
  exact h

theorem isDigit_of_mem_ofNat {n : Nat} {c : Char} (h : c ∈ Text.ofNat n) : c.isDigit = true :=
  Nat.isDigit_of_mem_toDigits (by decide) (by decide) h

theorem ofNat_eq_cons (n : Nat) : ∃ c cs, Text.ofNat n = c :: cs ∧ c.isDigit = true := by
  obtain ⟨c, cs, h⟩ := List.exists_cons_of_ne_nil (Nat.toDigits_ne_nil (n := n) (b := 10))
  exact ⟨c, cs, h, isDigit_of_mem_ofNat (by rw [Text.ofNat, h]; exact List.mem_cons_self)⟩

theorem digits?_ofNat_append (n : Nat) {rest : Text} (h : Ends rest) :
    digits? (Text.ofNat n ++ rest) = some (Text.ofNat n, rest) := by
  obtain ⟨c, cs, hn, -⟩ := ofNat_eq_cons n
  have all : ∀ d ∈ Text.ofNat n, d.isDigit = true := fun d hd => isDigit_of_mem_ofNat hd
  rw [digits?, List.takeWhile_append_of_pos all, List.dropWhile_append_of_pos all,
    Text.takeWhile_eq_nil_of_head? fun c hc => (h c hc).1,
    Text.dropWhile_eq_self_of_head? fun c hc => (h c hc).1, List.append_nil, hn]

theorem head_ofNat_ne_zero {n : Nat} (hn : 0 < n) {c : Char} {cs : Text}
    (h : Text.ofNat n = c :: cs) : c ≠ '0' := by
  induction n using Nat.strongRecOn generalizing c cs with
  | ind n ih =>
    rw [Text.ofNat, Nat.toDigits_eq_if (by decide)] at h
    split at h
    · next hlt =>
      have all : ∀ k : Fin 10, 0 < k.val → Nat.digitChar k.val ≠ '0' := by decide
      rw [← (List.cons.inj h).1]
      exact all ⟨n, hlt⟩ hn
    · next hge =>
      obtain ⟨d, ds, hd, -⟩ := ofNat_eq_cons (n / 10)
      rw [← Text.ofNat, hd, List.cons_append] at h
      rw [← (List.cons.inj h).1]
      exact ih (n / 10) (by omega) (by omega) hd

theorem whole?_ofNat_append (n : Nat) {rest : Text} (h : Ends rest) :
    whole? (Text.ofNat n ++ rest) = some (n, rest) := by
  rcases Nat.eq_zero_or_pos n with rfl | hn
  · rfl
  · obtain ⟨c, cs, hc, -⟩ := ofNat_eq_cons n
    have hz : ∀ u, Text.ofNat n ++ rest = '0' :: u → False := by
      intro u hu
      rw [hc, List.cons_append] at hu
      exact head_ofNat_ne_zero hn hc (List.cons.inj hu).1
    rw [whole?.eq_2 _ hz, digits?_ofNat_append n h, Option.map_some]
    exact congrArg (fun m => some (m, rest)) Nat.ofDigitChars_ten_toDigits

theorem fraction?_of_ends {rest : Text} (h : Ends rest) : fraction? rest = some ([], rest) := by
  rw [fraction?.eq_2]
  rintro u rfl
  exact (h '.' rfl).2.1 rfl

theorem exponent?_of_ends {rest : Text} (h : Ends rest) : exponent? rest = some (none, rest) := by
  cases rest with
  | nil => rfl
  | cons c rest => rw [exponent?, if_neg (not_or.2 (h c rfl).2.2)]

theorem read?_ofNat_append (n : Nat) {rest : Text} (h : Ends rest) :
    read? (Text.ofNat n ++ rest) = some (ofNat n, rest) := by
  obtain ⟨c, cs, hc, hd⟩ := ofNat_eq_cons n
  have hminus : ∀ u, Text.ofNat n ++ rest = '-' :: u → False := by
    intro u hu
    rw [hc, List.cons_append] at hu
    rw [(List.cons.inj hu).1] at hd
    exact absurd hd (by decide)
  rw [read?.eq_2 _ hminus, readUnsigned?, whole?_ofNat_append n h]
  simp only [Option.bind_eq_bind, Option.bind_some, fraction?_of_ends h, exponent?_of_ends h]
  rfl

end Numeral

/-! ## Tokens -/

namespace Token

/-- A token whose numeral is a natural number and whose text can be read. -/
def IsPlain : Token → Prop
  | num n => ∃ m, n = .ofNat m
  | str s => s.isSome
  | _ => True

/-- A token is a numeral, which what follows could prolong. -/
def isNum : Token → Bool
  | num _ => true
  | _ => false

theorem next?_of_isDigit {c : Char} (h : c.isDigit = true) (t : Text) :
    next? (c :: t) = (Numeral.read? (c :: t)).map fun (n, rest) => (num n, rest) := by
  unfold next?
  split <;> first | rfl | (rename_i heq; simp_all +decide)

theorem spell_ofNat (n : Nat) : spell (num (.ofNat n)) = Text.ofNat n := by
  simp [spell, Numeral.spell, Numeral.ofNat]

theorem spell_str (t : Text) : spell (str (some t)) = '"' :: (t.flatMap Quoted.escape ++ ['"']) :=
  rfl

theorem next?_spell_append {k : Token} (hk : k.IsPlain) {rest : Text}
    (h : k.isNum = true → Numeral.Ends rest) : next? (k.spell ++ rest) = some (k, rest) := by
  cases k with
  | num n =>
    obtain ⟨m, rfl⟩ := hk
    obtain ⟨c, cs, hc, hd⟩ := Numeral.ofNat_eq_cons m
    have hread := Numeral.read?_ofNat_append m (h rfl)
    rw [spell_ofNat]
    rw [hc, List.cons_append] at hread ⊢
    rw [next?_of_isDigit hd, hread, Option.map_some]
  | str s =>
    obtain ⟨t, rfl⟩ := Option.isSome_iff_exists.1 hk
    have hread := Quoted.read?_escape_append t rest
    rw [spell_str, List.cons_append, List.append_assoc, List.singleton_append, next?.eq_10, hread,
      Option.map_some]
  | bool b => cases b <;> rfl
  | _ => rfl

theorem not_isGap_of_isDigit {c : Char} (h : c.isDigit = true) : ¬isGap c = true := by
  simp only [isGap, Bool.or_eq_true, beq_iff_eq]
  rintro (((rfl | rfl) | rfl) | rfl) <;> exact absurd h (by decide)

theorem dropWhile_isGap_spell_append {k : Token} (hk : k.IsPlain) (rest : Text) :
    (k.spell ++ rest).dropWhile isGap = k.spell ++ rest := by
  cases k with
  | num n =>
    obtain ⟨m, rfl⟩ := hk
    obtain ⟨c, cs, hc, hd⟩ := Numeral.ofNat_eq_cons m
    rw [spell_ofNat, hc, List.cons_append, List.dropWhile_cons_of_neg (not_isGap_of_isDigit hd)]
  | str s =>
    obtain ⟨t, rfl⟩ := Option.isSome_iff_exists.1 hk
    rfl
  | bool b => cases b <;> rfl
  | _ => rfl

theorem scan_nil : scan [] = some [] := by simp [scan]

theorem spell_ne_nil {k : Token} (hk : k.IsPlain) : k.spell ≠ [] := by
  cases k with
  | num n =>
    obtain ⟨m, rfl⟩ := hk
    rw [spell_ofNat]
    exact Nat.toDigits_ne_nil
  | str s =>
    obtain ⟨t, rfl⟩ := Option.isSome_iff_exists.1 hk
    exact List.cons_ne_nil _ _
  | bool b => cases b <;> exact List.cons_ne_nil _ _
  | _ => exact List.cons_ne_nil _ _

theorem scan_spell_append {k : Token} (hk : k.IsPlain) {rest : Text}
    (h : k.isNum = true → Numeral.Ends rest) :
    scan (k.spell ++ rest) = (scan rest).map (k :: ·) := by
  have hnext := next?_spell_append hk h
  obtain ⟨c, cs, hc⟩ := List.exists_cons_of_ne_nil (List.append_ne_nil_of_left_ne_nil
    (spell_ne_nil hk) rest)
  have hgap := dropWhile_isGap_spell_append hk rest
  rw [hc] at hnext hgap ⊢
  rw [scan]
  split
  · next hd => simp [hgap] at hd
  · next d ds hd =>
    rw [hgap] at hd
    obtain ⟨rfl, rfl⟩ := List.cons.inj hd
    split
    · next hn => simp [hnext] at hn
    · next hn =>
      rw [hnext] at hn
      cases hn
      rfl

/-! ## Sequences of tokens -/

def spellAll (ts : List Token) : Text := ts.flatMap spell

def Scans (ts : List Token) (rest : Text) : Prop :=
  scan (spellAll ts ++ rest) = (scan rest).map (ts ++ ·)

theorem Scans.append {ts us : List Token} {rest : Text} (hts : Scans ts (spellAll us ++ rest))
    (hus : Scans us rest) : Scans (ts ++ us) rest := by
  unfold Scans at *
  rw [spellAll, List.flatMap_append, List.append_assoc]
  rw [← spellAll, ← spellAll, hts, hus, Option.map_map]
  congr 1
  funext vs
  exact (List.append_assoc ts us vs).symm

theorem scans_singleton {k : Token} (hk : k.IsPlain) {rest : Text}
    (h : k.isNum = true → Numeral.Ends rest) : Scans [k] rest := by
  unfold Scans
  rw [spellAll, List.flatMap_singleton, scan_spell_append hk h]
  rfl

theorem Scans.cons {k : Token} (hk : k.IsPlain) (hn : k.isNum = false) {ts : List Token}
    {rest : Text} (h : Scans ts rest) : Scans (k :: ts) rest :=
  Scans.append (scans_singleton hk fun h => absurd h (by simp [hn])) h

theorem ends_spellAll_cons {k : Token} (hk : k = .comma ∨ k = .closeArr ∨ k = .closeObj)
    (ts : List Token) (rest : Text) : Numeral.Ends (spellAll (k :: ts) ++ rest) := by
  rw [spellAll, List.flatMap_cons]
  rcases hk with rfl | rfl | rfl <;> exact Numeral.ends_cons (by decide)

end Token

/-! ## Values -/

mutual

def IsPlain : Json → Prop
  | .null => True
  | .bool _ => True
  | .num n => ∃ m, n = .ofNat m
  | .str s => s.isSome
  | .arr items => ItemsPlain items
  | .obj members => MembersPlain members

def ItemsPlain : List Json → Prop
  | [] => True
  | j :: rest => j.IsPlain ∧ ItemsPlain rest

def MembersPlain : List (Option Text × Json) → Prop
  | [] => True
  | (k, j) :: rest => k.isSome ∧ j.IsPlain ∧ MembersPlain rest

end

mutual

/-- The tokens of a value are read in front of a text that does not prolong them. -/
theorem scans_tokens : (j : Json) → j.IsPlain → (rest : Text) → Numeral.Ends rest →
    Token.Scans j.tokens rest
  | .null, _, _, _ => Token.scans_singleton (k := .null) trivial nofun
  | .bool b, _, _, _ => Token.scans_singleton (k := .bool b) trivial nofun
  | .num n, hj, _, hr => Token.scans_singleton (k := .num n) hj fun _ => hr
  | .str s, hj, _, _ => Token.scans_singleton (k := .str s) hj nofun
  | .arr items, hj, rest, _ =>
    (scans_itemTokens items hj rest).cons (k := .openArr) trivial rfl
  | .obj members, hj, rest, _ =>
    (scans_memberTokens members hj rest).cons (k := .openObj) trivial rfl

theorem scans_itemTokens : (items : List Json) → ItemsPlain items → (rest : Text) →
    Token.Scans (itemTokens items) rest
  | [], _, _ => Token.scans_singleton (k := .closeArr) trivial nofun
  | [j], hj, rest => by
    rw [itemTokens]
    refine Token.Scans.append (scans_tokens j hj.1 _ ?_) ?_
    · exact Token.ends_spellAll_cons (by simp) _ _
    · exact Token.scans_singleton (k := .closeArr) trivial nofun
  | j :: k :: items, hj, rest => by
    rw [itemTokens]
    · refine Token.Scans.append (scans_tokens j hj.1 _ ?_) ?_
      · exact Token.ends_spellAll_cons (by simp) _ _
      · exact (scans_itemTokens (k :: items) hj.2 rest).cons (k := .comma) trivial rfl
    · nofun

theorem scans_memberTokens : (members : List (Option Text × Json)) → MembersPlain members →
    (rest : Text) → Token.Scans (memberTokens members) rest
  | [], _, _ => Token.scans_singleton (k := .closeObj) trivial nofun
  | [(k, j)], hj, rest => by
    rw [memberTokens]
    refine Token.Scans.cons (k := .str k) hj.1 rfl (Token.Scans.cons (k := .colon) trivial rfl ?_)
    refine Token.Scans.append (scans_tokens j hj.2.1 _ ?_) ?_
    · exact Token.ends_spellAll_cons (by simp) _ _
    · exact Token.scans_singleton (k := .closeObj) trivial nofun
  | (k, j) :: m :: members, hj, rest => by
    rw [memberTokens]
    · refine Token.Scans.cons (k := .str k) hj.1 rfl
        (Token.Scans.cons (k := .colon) trivial rfl ?_)
      refine Token.Scans.append (scans_tokens j hj.2.1 _ ?_) ?_
      · exact Token.ends_spellAll_cons (by simp) _ _
      · exact (scans_memberTokens (m :: members) hj.2.2 rest).cons (k := .comma) trivial rfl
    · nofun

end

/-- The text of a value is read as that value. -/
theorem parse?_render {j : Json} (hj : j.IsPlain) : parse? j.render = some j := by
  have h : Token.scan (Token.spellAll j.tokens ++ []) = _ :=
    scans_tokens j hj [] Numeral.ends_nil
  rw [List.append_nil, Token.scan_nil, Option.map_some, List.append_nil] at h
  rw [parse?, render, ← Token.spellAll, h, Option.bind_some, ofTokens?_tokens]

end Provenance.Json
