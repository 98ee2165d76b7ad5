import Provenance.Json.Basic
import Provenance.Word

/-!
# Records and typed values

A record has named fields in a fixed order. It is written as an object without the fields that
have no value. It is read from an object, where other members are ignored and no field may be given
twice, or from an array of its fields in order, which may stop early but not run on.

* `Json.record` : the object of a record;
* `Field`, `Json.fields?` : what a value says about each field of a record;
* `Field.required`, `Field.optional`, `Field.defaulted` : the value of a field. A field that may
  have no value can be left out of an object, one with a default also at the end of an array;
* `Json.toNat?`, `Json.toText?`, `Json.toList?`, `Json.toOption?` : values of simple kinds.
-/

namespace Provenance.Json

/-! ## Writing -/

/-- The object with the given keys and values, without those that have none. -/
def record (keys : List Text) (values : List (Option Json)) : Json :=
  .obj ((keys.zip values).filterMap fun (k, v) => v.map (some k, ·))

/-! ## Reading -/

inductive Field where
  /-- An object does not have the field. -/
  | absent
  /-- An array ends before the field. -/
  | beyond
  | given (j : Json)

/-- The field `key` among the members of an object: `none` if it is there twice. -/
def member? (members : List (Text × Json)) (key : Text) : Option Field :=
  match members.filter (·.1 == key) with
  | [] => some .absent
  | [(_, j)] => some (.given j)
  | _ => none

/-- What a value says about the fields `keys` of a record: `none` if it is no record. Every key of
an object has to be readable. -/
def fields? (keys : List Text) : Json → Option (List Field)
  | .obj members => do
    let members ← members.mapM fun (k, j) => k.map (·, j)
    keys.mapM (member? members)
  | .arr items =>
    if items.length ≤ keys.length then
      some (items.map .given ++ List.replicate (keys.length - items.length) .beyond)
    else none
  | _ => none

namespace Field

variable {α : Type}

/-- The value of a field that has to be given. -/
def required (read : Json → Option α) : Field → Option α
  | given j => read j
  | _ => none

/-- The value of a field that may be null, and that an object may leave out. -/
def optional (read : Json → Option α) : Field → Option (Option α)
  | given .null => some none
  | given j => (read j).map some
  | absent => some none
  | beyond => none

/-- The value of a field that may be left out. -/
def defaulted (default : α) (read : Json → Option α) : Field → Option α
  | given j => read j
  | _ => some default

end Field

/-! ## Values of simple kinds -/

def toNat? (bound : Nat) : Json → Option Nat
  | .num n => n.toNat? bound
  | _ => none

/-- The number of a line, a column or an index, which fits into 64 bits. -/
def toIndex? (j : Json) : Option Nat := toNat? Word.size j

def toText? : Json → Option Text
  | .str s => s
  | _ => none

def toList? {α : Type} (read : Json → Option α) : Json → Option (List α)
  | .arr items => items.mapM read
  | _ => none

def toOption? {α : Type} (read : Json → Option α) : Json → Option (Option α)
  | .null => some none
  | j => (read j).map some

end Provenance.Json
