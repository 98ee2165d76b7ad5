import Provenance.Json.Token

/-!
# JSON values

* `Json` : a value. Objects keep their members in order, with repeated keys if there are any;
* `Json.ofNat`, `Json.quoted`, `Json.ofOption` : values of simple kinds;
* `Json.tokens`, `Json.render` : a value's tokens and its text, which has no gaps;
* `Json.ofTokens?`, `Json.parse?` : the value of tokens and of a text. The tokens of a value are
  read as that value (`ofTokens?_tokens`).

Reading keeps the arrays and objects that have not ended yet on a stack of its own, so that no
depth of nesting is too much for it.
-/

namespace Provenance

/-- A JSON value. A text or a key is missing if an escape in it names half a character. -/
inductive Json where
  | null
  | bool (b : Bool)
  | num (n : Json.Numeral)
  | str (s : Option Text)
  | arr (items : List Json)
  | obj (members : List (Option Text × Json))
  deriving Repr

namespace Json

def ofNat (n : Nat) : Json := .num (.ofNat n)

def quoted (t : Text) : Json := .str (some t)

def ofOption {α : Type} (f : α → Json) (x : Option α) : Json := x.elim .null f

/-! ## Writing -/

mutual

def tokens : Json → List Token
  | .null => [.null]
  | .bool b => [.bool b]
  | .num n => [.num n]
  | .str s => [.str s]
  | .arr items => .openArr :: itemTokens items
  | .obj members => .openObj :: memberTokens members

/-- The tokens of an array's items, with the bracket that ends it. -/
def itemTokens : List Json → List Token
  | [] => [.closeArr]
  | [j] => j.tokens ++ [.closeArr]
  | j :: rest => j.tokens ++ .comma :: itemTokens rest

/-- The tokens of an object's members, with the brace that ends it. -/
def memberTokens : List (Option Text × Json) → List Token
  | [] => [.closeObj]
  | [(k, j)] => .str k :: .colon :: j.tokens ++ [.closeObj]
  | (k, j) :: rest => .str k :: .colon :: j.tokens ++ .comma :: memberTokens rest

end

/-- The text of a value, without gaps. -/
def render (j : Json) : Text := j.tokens.flatMap Token.spell

/-! ## Reading -/

/-- An array or an object that has not ended yet. What has been read of it is in reverse; the key
of an object is that of the member being read. -/
inductive Frame where
  | arr (done : List Json)
  | obj (done : List (Option Text × Json)) (key : Option Text)

/-- Where reading stands, inside the arrays and objects `opened`, the innermost first. -/
inductive Place where
  /-- A value has to follow. -/
  | value (opened : List Frame)
  /-- An array has just begun. -/
  | firstItem (opened : List Frame)
  /-- An object has just begun. -/
  | firstKey (opened : List Frame)
  /-- A key has to follow. -/
  | key (done : List (Option Text × Json)) (opened : List Frame)
  /-- A colon has to follow. -/
  | colon (done : List (Option Text × Json)) (key : Option Text) (opened : List Frame)
  /-- A value has been read. -/
  | after (j : Json) (opened : List Frame)

/-- Where reading stands after the first token of a value. -/
def startValue (opened : List Frame) : Token → Option Place
  | .null => some (.after .null opened)
  | .bool b => some (.after (.bool b) opened)
  | .num n => some (.after (.num n) opened)
  | .str s => some (.after (.str s) opened)
  | .openArr => some (.firstItem opened)
  | .openObj => some (.firstKey opened)
  | _ => none

def step : Place → Token → Option Place
  | .value opened, k => startValue opened k
  | .firstItem opened, .closeArr => some (.after (.arr []) opened)
  | .firstItem opened, k => startValue (.arr [] :: opened) k
  | .firstKey opened, .closeObj => some (.after (.obj []) opened)
  | .firstKey opened, .str key => some (.colon [] key opened)
  | .key done opened, .str key => some (.colon done key opened)
  | .colon done key opened, .colon => some (.value (.obj done key :: opened))
  | .after j (.arr done :: opened), .comma => some (.value (.arr (j :: done) :: opened))
  | .after j (.arr done :: opened), .closeArr => some (.after (.arr (j :: done).reverse) opened)
  | .after j (.obj done key :: opened), .comma => some (.key ((key, j) :: done) opened)
  | .after j (.obj done key :: opened), .closeObj =>
    some (.after (.obj ((key, j) :: done).reverse) opened)
  | _, _ => none

def ofTokens? (ts : List Token) : Option Json :=
  match ts.foldlM step (.value []) with
  | some (.after j []) => some j
  | _ => none

def parse? (t : Text) : Option Json := (Token.scan t).bind ofTokens?

/-! ## Reading what was written -/

theorem foldlM_firstItem (opened : List Frame) (j : Json) (rest : List Token) :
    (j.tokens ++ rest).foldlM step (.firstItem opened) =
      (j.tokens ++ rest).foldlM step (.value (.arr [] :: opened)) := by
  cases j <;> rfl

theorem itemTokens_cons (j : Json) (items : List Json) :
    ∃ rest, itemTokens (j :: items) = j.tokens ++ rest := by
  cases items <;> exact ⟨_, rfl⟩

mutual

/-- The tokens of a value are read as that value. -/
theorem foldlM_tokens : (j : Json) → (opened : List Frame) →
    j.tokens.foldlM step (.value opened) = some (.after j opened)
  | .null, _ => rfl
  | .bool _, _ => rfl
  | .num _, _ => rfl
  | .str _, _ => rfl
  | .arr [], _ => rfl
  | .arr (j :: items), opened => by
    have h := foldlM_itemTokens (j :: items) [] opened (by simp)
    obtain ⟨rest, hrest⟩ := itemTokens_cons j items
    rw [hrest, ← foldlM_firstItem] at h
    rw [tokens, hrest]
    exact h
  | .obj [], _ => rfl
  | .obj ((key, j) :: members), opened => by
    have h := foldlM_memberTokens ((key, j) :: members) [] opened (by simp)
    cases members <;> exact h

theorem foldlM_itemTokens : (items : List Json) → (done : List Json) → (opened : List Frame) →
    items ≠ [] → (itemTokens items).foldlM step (.value (.arr done :: opened)) =
      some (.after (.arr (done.reverse ++ items)) opened)
  | [], _, _, h => absurd rfl h
  | [j], done, opened, _ => by
    simp [itemTokens, List.foldlM_append, foldlM_tokens j, step]
  | j :: k :: items, done, opened, _ => by
    have h := foldlM_itemTokens (k :: items) (j :: done) opened (by simp)
    simp [itemTokens, List.foldlM_append, foldlM_tokens j, step, h]

theorem foldlM_memberTokens : (members : List (Option Text × Json)) →
    (done : List (Option Text × Json)) → (opened : List Frame) → members ≠ [] →
    (memberTokens members).foldlM step (.key done opened) =
      some (.after (.obj (done.reverse ++ members)) opened)
  | [], _, _, h => absurd rfl h
  | [(key, j)], done, opened, _ => by
    simp [memberTokens, List.foldlM_append, foldlM_tokens j, step]
  | (key, j) :: m :: members, done, opened, _ => by
    have h := foldlM_memberTokens (m :: members) ((key, j) :: done) opened (by simp)
    simp [memberTokens, List.foldlM_append, foldlM_tokens j, step, h]

end

theorem ofTokens?_tokens (j : Json) : ofTokens? j.tokens = some j := by
  simp [ofTokens?, foldlM_tokens]

end Json

end Provenance
