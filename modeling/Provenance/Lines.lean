import Provenance.Text.Basic

/-!
# Text as physical lines

* `Lines` : the lines that have ended and the one being written, so there is always a last line;
* `Lines.ofText` : cuts a text at every terminator, which is `\r\n`, a lone `\r` or `\n`;
* `a ++ b` : writes `b` after `a`, its first line going on where the last line of `a` stopped;
* `Lines.toList`, `Lines.count`, `Lines.toText` : the lines in order, how many there are, and the
  text that joins them with `\n`.

Writing is associative, `Lines.empty` is neutral for it, and `Lines.toText` turns it into
concatenation (`Lines.toText_append`).
-/

namespace Provenance

/-- The lines of a text: those that a terminator has ended, in order, and the last one. -/
structure Lines where
  closed : List Text
  current : Text
  deriving DecidableEq, Repr

namespace Lines

def empty : Lines := ⟨[], []⟩

/-- A line end: an empty line closed and another begun. -/
def lineEnd : Lines := ⟨[[]], []⟩

/-- Writes `b` where `a` stops. -/
def append (a b : Lines) : Lines :=
  match b.closed with
  | [] => ⟨a.closed, a.current ++ b.current⟩
  | first :: more => ⟨a.closed ++ (a.current ++ first) :: more, b.current⟩

instance : Append Lines := ⟨append⟩

/-- The lines of a text, cut at every `\r\n`, lone `\r` and `\n`. -/
def ofText : Text → Lines
  | [] => empty
  | '\r' :: '\n' :: rest => lineEnd ++ ofText rest
  | '\r' :: rest => lineEnd ++ ofText rest
  | '\n' :: rest => lineEnd ++ ofText rest
  | c :: rest => ⟨[], [c]⟩ ++ ofText rest

def toList (l : Lines) : List Text := l.closed ++ [l.current]

/-- The number of lines, one more than the number of terminators. -/
def count (l : Lines) : Nat := l.closed.length + 1

/-- The text of the lines, joined with `\n`. -/
def toText (l : Lines) : Text := (l.closed.flatMap (· ++ ['\n'])) ++ l.current

theorem length_toList (l : Lines) : l.toList.length = l.count := by simp [toList, count]

/-! ## Laws of writing -/

@[simp]
theorem append_mk_nil (a : Lines) (c : Text) : a ++ Lines.mk [] c = ⟨a.closed, a.current ++ c⟩ :=
  rfl

@[simp]
theorem append_mk_cons (a : Lines) (first : Text) (more : List Text) (c : Text) :
    a ++ Lines.mk (first :: more) c = ⟨a.closed ++ (a.current ++ first) :: more, c⟩ :=
  rfl

@[simp]
theorem append_empty (a : Lines) : a ++ empty = a := by simp [empty]

@[simp]
theorem empty_append (a : Lines) : empty ++ a = a := by
  obtain ⟨closed, current⟩ := a
  cases closed <;> simp [empty]

theorem append_assoc (a b c : Lines) : a ++ b ++ c = a ++ (b ++ c) := by
  obtain ⟨bs, b⟩ := b
  obtain ⟨cs, c⟩ := c
  cases bs <;> cases cs <;> simp

@[simp]
theorem toText_append (a b : Lines) : (a ++ b).toText = a.toText ++ b.toText := by
  obtain ⟨bs, b⟩ := b
  cases bs <;> simp [toText]

theorem count_append (a b : Lines) : (a ++ b).count + 1 = a.count + b.count := by
  obtain ⟨bs, b⟩ := b
  cases bs with
  | nil => simp [count]
  | cons first more =>
    simp only [append_mk_cons, count, List.length_append, List.length_cons]
    omega

end Lines

end Provenance
