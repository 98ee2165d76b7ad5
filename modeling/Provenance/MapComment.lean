import Provenance.Base64
import Provenance.PositionMap.Reading
import Provenance.PositionMap.Writing

/-!
# Annotations

A position map travels with its content in a comment that ends the text:

    //# sourceMappingURL=data:application/json;base64,<payload>
    /*# sourceMappingURL=data:application/json;base64,<payload>*/

Only the last line that is not blank can hold it. The first form has to begin its line, the second
only has to end it. Spaces and tabs may stand around the `#` and in front of the end, and the data
URL may name a character set.

* `MapComment.find?` : the annotation of a text; `MapComment.strip` : the text without it;
* `MapComment.decode`, `MapComment.decodeStrict` : the text and the map in its annotation;
* `MapComment.write`, `MapComment.encode` : the annotation for a map, and a text that ends with it.
-/

namespace Provenance

inductive CommentStyle where
  | inline
  | block
  deriving DecidableEq, Repr

namespace CommentStyle

def name : CommentStyle → Text
  | inline => "inline".toList
  | block => "block".toList

def ofName? (t : Text) : Option CommentStyle := [inline, block].find? fun s => s.name == t

def toJson (s : CommentStyle) : Json := .quoted s.name

/-- The style that a value is: its name, or an object with its name as the only key and null as the
value. -/
def ofJson? : Json → Option CommentStyle
  | .str (some t) => ofName? t
  | .obj [(some t, .null)] => ofName? t
  | _ => none

end CommentStyle

/-- A text split at its annotation: what comes before it, and its payload. -/
structure MapComment where
  before : Text
  payload : Text
  deriving DecidableEq, Repr

/-- A text without its annotation, and the map that the annotation carries. -/
structure Decoded where
  content : Text
  map : Option PositionMap
  deriving DecidableEq, Repr

namespace MapComment

/-! ## Finding -/

def urlStart : Text := "sourceMappingURL=data:application/json".toList

def payloadStart : Text := ";base64,".toList

/-- A text without the spaces and tabs it begins with. -/
def skipGap (t : Text) : Text := t.dropWhile fun c => c == ' ' || c == '\t'

def isPayloadChar (c : Char) : Bool := (Base64.value? c).isSome || c == Base64.pad

/-- What follows the name of a character set, if one is given. -/
def skipCharset? (t : Text) : Option Text :=
  match Text.after? ";charset=".toList t with
  | none => some t
  | some rest =>
    let inName (c : Char) : Bool := c != ';' && c != ','
    if (rest.takeWhile inName).isEmpty then none else some (rest.dropWhile inName)

/-- The payload of an annotation from behind the opening of its comment, and what follows it. -/
def payload? (t : Text) : Option (Text × Text) := do
  let t ← Text.after? ['#'] (skipGap t)
  let t ← Text.after? urlStart (skipGap t)
  let t ← skipCharset? t
  let t ← Text.after? payloadStart t
  return (t.takeWhile isPayloadChar, t.dropWhile isPayloadChar)

/-- The payload of an annotation that is a whole line. -/
def inline? (line : Text) : Option Text := do
  let t ← Text.after? ['/', '/'] line
  let (payload, rest) ← payload? t
  guard ((skipGap rest).isEmpty)
  return payload

/-- The payload of an annotation in a block comment that is all of a text. -/
def wholeBlock? (t : Text) : Option Text := do
  let t ← Text.after? ['/', '*'] t
  let (payload, rest) ← payload? t
  let rest ← Text.after? ['*', '/'] (skipGap rest)
  guard ((skipGap rest).isEmpty)
  return payload

/-- The first block comment that is an annotation and ends the line, with what stands before it. -/
def block? : Text → Option MapComment
  | [] => none
  | c :: line =>
    match wholeBlock? (c :: line) with
    | some payload => some ⟨[], payload⟩
    | none => (block? line).map fun a => ⟨c :: a.before, a.payload⟩

def isLineEnd (c : Char) : Bool := c == '\n' || c == '\r'

def lastLine (t : Text) : Text := (t.reverse.takeWhile (!isLineEnd ·)).reverse

def beforeLastLine (t : Text) : Text := (t.reverse.dropWhile (!isLineEnd ·)).reverse

/-- The annotation that ends a text, but for blanks behind it. -/
def find? (content : Text) : Option MapComment :=
  let t := Text.trimEnd content
  match inline? (lastLine t) with
  | some payload => some ⟨beforeLastLine t, payload⟩
  | none => (block? (lastLine t)).map fun a => ⟨beforeLastLine t ++ a.before, a.payload⟩

def content (a : MapComment) : Text := Text.trimEnd a.before

def strip (content : Text) : Text :=
  match find? content with
  | some a => a.content
  | none => content

/-! ## Reading -/

def readPayload (payload : Text) : Except MapError PositionMap :=
  match Base64.decode? payload with
  | none => .error .badBase64
  | some bytes =>
    match Text.ofUtf8? bytes with
    | none => .error .badUtf8
    | some text => PositionMap.ofText text

/-- A text and the map in its annotation. There has to be an annotation with a map in it. -/
def decodeStrict (content : Text) : Except MapError (Text × PositionMap) :=
  match find? content with
  | none => .error .missingComment
  | some a => (readPayload a.payload).map fun m => (a.content, m)

/-- A text and the map in its annotation. Where there is no annotation with a map in it, the text
stays as it is. -/
def decode (content : Text) : Decoded :=
  match decodeStrict content with
  | .ok (before, m) => ⟨before, some m⟩
  | .error _ => ⟨content, none⟩

/-! ## Writing -/

def write (m : PositionMap) (style : CommentStyle) : Text :=
  let url := urlStart ++ payloadStart ++ Base64.encode (Text.utf8 m.toText)
  match style with
  | .inline => "//# ".toList ++ url
  | .block => "/*# ".toList ++ url ++ "*/".toList

/-- A text, without the blanks it ends with, and the annotation for a map on a line of its own. -/
def encode (content : Text) (m : Option PositionMap) (style : CommentStyle) :
    Except MapError Text :=
  match m with
  | none => .error .missingMap
  | some m => .ok (Text.trimEnd content ++ '\n' :: write m style)

end MapComment

end Provenance
