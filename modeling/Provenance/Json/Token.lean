import Provenance.Json.Quoted
import Provenance.Json.Numeral

/-!
# The tokens of JSON

* `Token` : the punctuation, the three words, numerals and quoted texts;
* `Token.spell` : how a token is written;
* `Token.next?` : the token at the start of a text, and what follows it;
* `Token.scan` : all tokens of a text, with any gaps around them.

Gaps are spaces, tabs, line feeds and carriage returns; no other blank character may stand between
tokens.
-/

namespace Provenance.Json

/-- A token. The text of a quoted one is missing if an escape in it names half a character that
stays alone. -/
inductive Token where
  | openArr
  | closeArr
  | openObj
  | closeObj
  | comma
  | colon
  | null
  | bool (b : Bool)
  | num (n : Numeral)
  | str (s : Option Text)
  deriving DecidableEq, Repr

namespace Token

def spell : Token → Text
  | openArr => ['[']
  | closeArr => [']']
  | openObj => ['{']
  | closeObj => ['}']
  | comma => [',']
  | colon => [':']
  | null => "null".toList
  | bool true => "true".toList
  | bool false => "false".toList
  | num n => n.spell
  | str s => Quoted.spell s

def isGap (c : Char) : Bool := c == ' ' || c == '\t' || c == '\n' || c == '\r'

/-- The token at the start of a text, and what follows it. -/
def next? : Text → Option (Token × Text)
  | '[' :: rest => some (openArr, rest)
  | ']' :: rest => some (closeArr, rest)
  | '{' :: rest => some (openObj, rest)
  | '}' :: rest => some (closeObj, rest)
  | ',' :: rest => some (comma, rest)
  | ':' :: rest => some (colon, rest)
  | 'n' :: 'u' :: 'l' :: 'l' :: rest => some (null, rest)
  | 't' :: 'r' :: 'u' :: 'e' :: rest => some (bool true, rest)
  | 'f' :: 'a' :: 'l' :: 's' :: 'e' :: rest => some (bool false, rest)
  | '"' :: rest => (Quoted.read? rest).map fun (s, rest) => (str s, rest)
  | t => (Numeral.read? t).map fun (n, rest) => (num n, rest)

theorem length_lt_of_next? {t rest : Text} {k : Token} (h : next? t = some (k, rest)) :
    rest.length < t.length := by
  unfold next? at h
  split at h
  case h_10 =>
    obtain ⟨⟨s, u⟩, hs, h⟩ := Option.map_eq_some_iff.1 h
    cases h
    obtain ⟨⟨ps, v⟩, hp, hv⟩ := Option.map_eq_some_iff.1 hs
    cases hv
    exact Nat.lt_succ_of_lt (Quoted.length_lt_of_pieces? hp)
  case h_11 =>
    obtain ⟨⟨n, u⟩, hn, h⟩ := Option.map_eq_some_iff.1 h
    cases h
    exact Numeral.length_lt_of_read? hn
  all_goals
    cases h
    simp only [List.length_cons]
    omega

/-- The tokens of a text, or `none` if some part of it is no token. -/
def scan (t : Text) : Option (List Token) :=
  match _hd : t.dropWhile isGap with
  | [] => some []
  | c :: more =>
    match _hk : next? (c :: more) with
    | none => none
    | some (k, rest) => (scan rest).map (k :: ·)
termination_by t.length
decreasing_by
  have := length_lt_of_next? _hk
  have := (List.dropWhile_suffix isGap (l := t)).length_le
  rw [_hd] at this
  omega

end Token

end Provenance.Json
