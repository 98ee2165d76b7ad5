import Provenance.Vlq

/-!
# Why a map cannot be read or written

* `SegmentFault` : what is wrong with one segment of a mappings text;
* `MapError` : why a text or a document gives no position map, or a text cannot carry one;
* `SegmentFault.message`, `MapError.message` : the wording. A payload that is no base-64, no UTF-8
  or no JSON has no wording of its own.
-/

namespace Provenance

/-- What is wrong with a segment of a mappings text. -/
inductive SegmentFault where
  | digits (fault : Vlq.Fault)
  /-- A running sum that does not fit into 64 bits with a sign. -/
  | sumOverflow
  | fieldCount (n : Nat)
  | negativeColumn
  | unknownSource (index : Int)
  | negativeOriginLine
  | negativeOriginColumn
  | unknownName (index : Int)
  deriving DecidableEq, Repr

namespace SegmentFault

/-- The wording of a fault. A byte is shown as the character with its code. -/
def message : SegmentFault → String
  | digits (.badDigit byte) => s!"invalid base64 digit '{Char.ofNat byte.toNat}'"
  | digits .tooWide => "VLQ value overflows"
  | digits .unterminated => "unterminated VLQ value"
  | sumOverflow => "VLQ value overflows"
  | fieldCount n => s!"expected 1, 4 or 5 fields, found {n}"
  | negativeColumn => "negative generated column"
  | unknownSource index => s!"unknown source index {index}"
  | negativeOriginLine => "negative original line"
  | negativeOriginColumn => "negative original column"
  | unknownName index => s!"unknown name index {index}"

end SegmentFault

/-- Why there is no map, or none can be written. -/
inductive MapError where
  | missingMap
  | missingComment
  | badBase64
  | badUtf8
  | badJson
  | unsupportedVersion (version : Nat)
  /-- The first segment that is wrong, counted from 0 over the whole text. -/
  | badSegment (index : Nat) (fault : SegmentFault)
  deriving DecidableEq, Repr

namespace MapError

def message : MapError → String
  | missingMap => "No source map supplied to embed in content"
  | missingComment => "Content doesn't end with a sourceMappingURL annotation"
  | badBase64 => "Invalid base64 in source map annotation"
  | badUtf8 => "Source map payload is not valid UTF-8"
  | badJson => "Invalid source map JSON"
  | unsupportedVersion version => s!"Unsupported source map version {version}"
  | badSegment index fault => s!"Invalid mappings at segment {index}: {fault.message}"

end MapError

end Provenance
