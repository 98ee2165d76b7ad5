import Provenance.Lines
import Provenance.Locator
import Provenance.SourceContext

/-!
# Excerpts

A message about a position of a document is shown with the lines of the source around it:

    Unexpected token at /project/src/app.js :
         1 |var a = 1;
         2 |var b = ;
    ----------------^
         3 |var c = 3;

* `Excerpt` : the message, its place in a source, and the lines around it;
* `Excerpt.numbers`, `Excerpt.window` : the lines around one of a text;
* `Excerpt.locate` : the excerpt for a position of a document, or an `ExcerptError`;
* `Excerpt.rows`, `Excerpt.toText` : the excerpt as text;
* their JSON forms.
-/

namespace Provenance

/-! ## Options -/

/-- How many lines are shown before and after the line in question. -/
structure ExcerptOptions where
  linesAround : Nat := 2
  deriving DecidableEq, Repr

namespace ExcerptOptions

def keys : List Text := ["linesAround".toList]

def toJson (o : ExcerptOptions) : Json := Json.record keys [some (.ofNat o.linesAround)]

def ofJson? (j : Json) : Option ExcerptOptions := do
  let [linesAround] ← j.fields? keys | none
  return ⟨← linesAround.required Json.toIndex?⟩

end ExcerptOptions

/-! ## Lines -/

structure ExcerptLine where
  number : Nat
  text : Text
  deriving DecidableEq, Repr

namespace ExcerptLine

def keys : List Text := ["number".toList, "text".toList]

def toJson (l : ExcerptLine) : Json :=
  Json.record keys [some (.ofNat l.number), some (.quoted l.text)]

def ofJson? (j : Json) : Option ExcerptLine := do
  let [number, text] ← j.fields? keys | none
  return ⟨← number.required Json.toIndex?, ← text.required Json.toText?⟩

/-- The width that the number of a line is brought to by blanks in front of it. -/
def numberWidth : Nat := 5

/-- The line as it is shown: a blank, the number, a bar and the text. -/
def row (l : ExcerptLine) : Text :=
  let number := Text.ofNat l.number
  ' ' :: List.replicate (numberWidth - number.length) ' ' ++ number ++ [' ', '|'] ++ l.text

end ExcerptLine

/-! ## Excerpts -/

/-- A message with its place in a source and the lines around it. -/
structure Excerpt where
  message : Text
  source : Text
  line : Nat
  column : Nat
  lines : List ExcerptLine
  deriving DecidableEq, Repr

inductive ExcerptError where
  | sourceUnavailable (path : Text)
  | lineOutOfRange (path : Text) (line lineCount : Nat)
  deriving DecidableEq, Repr

def ExcerptError.message : ExcerptError → String
  | sourceUnavailable path => s!"Source {String.ofList path} is not available"
  | lineOutOfRange path line lineCount =>
    s!"Line {line} is outside of {String.ofList path} ({lineCount} lines)"

namespace Excerpt

/-- A text as an excerpt shows it, with a blank for every tab. -/
def shown (t : Text) : Text := t.map fun c => if c = '\t' then ' ' else c

/-- The numbers of the lines from `linesAround` before a line to as many after it, as far as a text
of `count` lines goes. -/
def numbers (count line linesAround : Nat) : List Nat :=
  let first := max (line - linesAround) 1
  let last := min (line + linesAround) count
  List.range' first (last + 1 - first)

theorem pred_lt_of_mem_numbers {count line linesAround n : Nat}
    (h : n ∈ numbers count line linesAround) : n - 1 < count := by
  simp only [numbers, List.mem_range'_1] at h
  omega

/-- The lines of a text with these numbers. -/
def window (text : Text) (line linesAround : Nat) : List ExcerptLine :=
  let lines := (Lines.ofText text).toList
  (numbers lines.length line linesAround).pmap
    (fun n (h : n - 1 < lines.length) => ⟨n, shown (lines.get ⟨n - 1, h⟩)⟩)
    fun _ => pred_lt_of_mem_numbers

/-- The excerpt for a position of a document, whose text `content` may carry a map. The source is
taken from the context or from its file. -/
def locate (context : SourceContext) (files : FileStore) (document content message : Text)
    (p : Position) (o : ExcerptOptions) : Except ExcerptError Excerpt :=
  let found := (Locator.ofContent document content).locate files.workdirPath p
  match context.read files found.source with
  | .error _ => .error (.sourceUnavailable found.source)
  | .ok text =>
    let lineCount := (Lines.ofText text).count
    if found.line = 0 ∨ lineCount < found.line then
      .error (.lineOutOfRange found.source found.line lineCount)
    else
      .ok ⟨message, found.source, found.line, found.column,
        window text found.line o.linesAround⟩

/-! ## The text of an excerpt -/

/-- The pointer below the line in question. It is as long as the line's number is in general wide,
so that its end stands below the column. -/
def pointer (column : Nat) : Text :=
  List.replicate (column + (ExcerptLine.numberWidth + 3)) '-' ++ ['^']

/-- The rows of an excerpt: the message, and the lines with the pointer below its own. -/
def rows (e : Excerpt) : List Text :=
  (e.message ++ " at ".toList ++ e.source ++ " :".toList) ::
    e.lines.flatMap fun l => if l.number = e.line then [l.row, pointer e.column] else [l.row]

def toText (e : Excerpt) : Text := ['\n'].intercalate e.rows

def messageFor (context : SourceContext) (files : FileStore) (document content message : Text)
    (p : Position) : Except ExcerptError Text :=
  (locate context files document content message p {}).map toText

/-! ## JSON -/

def keys : List Text :=
  ["message".toList, "source".toList, "line".toList, "column".toList, "lines".toList]

def toJson (e : Excerpt) : Json :=
  Json.record keys [some (.quoted e.message), some (.quoted e.source), some (.ofNat e.line),
    some (.ofNat e.column), some (.arr (e.lines.map ExcerptLine.toJson))]

def ofJson? (j : Json) : Option Excerpt := do
  let [message, source, line, column, lines] ← j.fields? keys | none
  return ⟨← message.required Json.toText?, ← source.required Json.toText?,
    ← line.required Json.toIndex?, ← column.required Json.toIndex?,
    ← lines.required (Json.toList? ExcerptLine.ofJson?)⟩

end Excerpt

end Provenance
