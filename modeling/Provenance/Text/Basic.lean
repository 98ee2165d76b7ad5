/-!
# Text as a list of characters

* `Text` : a text, one entry per Unicode scalar value, so that its length counts columns;
* `Text.after?` : what follows a given beginning;
* `Text.isBlank` : the characters with the Unicode property `White_Space`;
  `Text.trimStart`, `Text.trimEnd` : a text without the blanks it begins or ends with;
* `Text.ofNat`, `Text.ofInt` : decimal spellings;
* `Text.ofHex` : lower-case hexadecimal spelling;
* `Text.utf8` : the bytes of a text; `Text.ofUtf8?` reads them back.
-/

namespace Provenance

/-- A text. Its length is its number of characters. -/
abbrev Text := List Char

namespace Text

/-- What follows the beginning `start` of a text, if the text begins with it. -/
def after? : Text → Text → Option Text
  | [], t => some t
  | _ :: _, [] => none
  | a :: start, c :: t => if a = c then after? start t else none

theorem after?_append (start t : Text) : after? start (start ++ t) = some t := by
  induction start with
  | nil => rfl
  | cons a start ih => simp [after?, ih]

/-! ## Blanks -/

/-- The 25 characters with the Unicode property `White_Space`. Format characters that only look
blank, such as U+180E, U+200B and U+FEFF, do not have it. -/
def isBlank (c : Char) : Bool :=
  let n := c.toNat
  (0x09 ≤ n && n ≤ 0x0D) || n == 0x20 || n == 0x85 || n == 0xA0 || n == 0x1680 ||
    (0x2000 ≤ n && n ≤ 0x200A) || n == 0x2028 || n == 0x2029 || n == 0x202F || n == 0x205F ||
    n == 0x3000

def trimStart (t : Text) : Text := t.dropWhile isBlank

def trimEnd (t : Text) : Text := (t.reverse.dropWhile isBlank).reverse

/-! ## Spellings -/

/-- The decimal spelling of a natural number, without leading zeros. -/
def ofNat (n : Nat) : Text := Nat.toDigits 10 n

/-- The decimal spelling of an integer, with a minus sign in front of a negative one. -/
def ofInt (i : Int) : Text := if i < 0 then '-' :: ofNat i.natAbs else ofNat i.natAbs

def ofHex (n : Nat) : Text := Nat.toDigits 16 n

def utf8 (t : Text) : List UInt8 := t.flatMap String.utf8EncodeChar

/-- The text that bytes spell in UTF-8: `none` if they are not well formed. -/
def ofUtf8? (bytes : List UInt8) : Option Text :=
  bytes.toByteArray.utf8Decode?.map Array.toList

theorem ofUtf8?_utf8 (t : Text) : ofUtf8? (utf8 t) = some t := by
  have h : (utf8 t).toByteArray.utf8Decode? = some t.toArray := List.utf8Decode?_utf8Encode
  simp [ofUtf8?, h]

end Text

end Provenance
