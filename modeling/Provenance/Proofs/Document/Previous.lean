import Provenance.Document.Options
import Provenance.Proofs.Json.LineEnds
import Provenance.Proofs.MapComment.RoundTrip
import Provenance.Proofs.PositionMap.RoundTrip

/-!
# Previous maps in both forms

The text of a previous map is JSON, or content that ends with an annotation. Which of the two it is
gets told from its first character, so content that itself begins with a brace is taken for JSON.
It never is, because an annotation stands on a line of its own and is no JSON token.

* `PositionMap.ofText_append_write` : content with an annotation is no JSON;
* `PreviousMap.readText_append_write` : the map that is read from it as a previous one;
* `PreviousMap.Holds` : where the text of a previous map is;
* `PreviousMap.resolve_encode_iff` : when an encoded text resolves as the text of its map does.
-/

namespace Provenance

variable {m m' : PositionMap} {style : CommentStyle} {content text name : Text}

/-! ## Content with an annotation -/

namespace MapComment

theorem write_eq_cons (m : PositionMap) (style : CommentStyle) :
    ∃ rest, write m style = '/' :: rest := by
  cases style <;> exact ⟨_, rfl⟩

theorem scan_write (m : PositionMap) (style : CommentStyle) :
    Json.Token.scan (write m style) = none := by
  obtain ⟨rest, hwrite⟩ := write_eq_cons m style
  have hdrop : ('/' :: rest).dropWhile Json.Token.isGap = '/' :: rest := rfl
  have hnext : Json.Token.next? ('/' :: rest) = none := rfl
  rw [hwrite, Json.Token.scan_eq, hdrop, hnext, if_neg (List.cons_ne_nil _ _), Option.bind_none]

/-- The first character of encoded content is a brace if that of the content is. -/
theorem head?_trimStart_append_write (content : Text) (m : PositionMap) (style : CommentStyle) :
    (Text.trimStart (Text.trimEnd content ++ '\n' :: write m style)).head? = some '{' ↔
      (Text.trimStart content).head? = some '{' := by
  obtain ⟨blanks, hcontent, hblanks⟩ := Text.exists_eq_trimEnd_append content
  by_cases h : ∃ c ∈ Text.trimEnd content, Text.isBlank c = false
  · have hstart := Text.head?_trimStart_append h blanks
    rw [← hcontent] at hstart
    rw [Text.head?_trimStart_append h, hstart]
  · have hall : ∀ c ∈ Text.trimEnd content, Text.isBlank c = true := fun c hc => by
      by_contra hblank
      exact h ⟨c, hc, by simpa using hblank⟩
    obtain ⟨rest, hwrite⟩ := write_eq_cons m style
    have hleft : Text.trimStart (Text.trimEnd content ++ '\n' :: write m style) =
        write m style := by
      rw [Text.trimStart, List.dropWhile_append_of_pos hall, hwrite]
      rfl
    have hright : Text.trimStart content = [] := by
      rw [hcontent, Text.trimStart, List.dropWhile_append_of_pos hall, List.dropWhile_eq_nil_iff]
      exact hblanks
    rw [hleft, hright, hwrite]
    exact iff_of_false (by simp) (by simp)

end MapComment

/-- Content with an annotation is no JSON. -/
theorem PositionMap.ofText_append_write (t : Text) (m : PositionMap) (style : CommentStyle) :
    ofText (t ++ '\n' :: MapComment.write m style) = .error .badJson := by
  rw [ofText, Json.parse?, Json.Token.scan_append_lineEnd (MapComment.scan_write m style)]
  rfl

namespace PreviousMap

theorem readText_append_write (content : Text) (m : PositionMap) (style : CommentStyle) :
    readText (Text.trimEnd content ++ '\n' :: MapComment.write m style) =
      if (Text.trimStart content).head? = some '{' then .error .badJson
      else PositionMap.ofText m.toText := by
  rw [readText]
  simp only [MapComment.head?_trimStart_append_write, PositionMap.ofText_append_write,
    MapComment.decodeStrict_append_write]
  split
  · rfl
  · cases PositionMap.ofText m.toText <;> rfl

theorem readText_toText (m : PositionMap) : readText m.toText = PositionMap.ofText m.toText := by
  obtain ⟨rest, hrest⟩ : ∃ rest, m.toText = '{' :: rest := ⟨_, rfl⟩
  have hhead : (Text.trimStart m.toText).head? = some '{' := by
    rw [hrest]
    rfl
  rw [readText, if_pos hhead]

/-! ## Where the text is -/

/-- The text of a previous map for the document `name`: given as it is, held by a file, or found by
name. -/
inductive Holds (files : FileStore) (name text : Text) : PreviousMap → Prop
  | inline : Holds files name text (.inline text)
  | path (p : Text) (h : files.read p = .ok text) : Holds files name text (.path p)
  | resolver (f : Text → Option Text) (h : f name = some text) : Holds files name text (.resolver f)

theorem resolve_of_holds {files : FileStore} {p : PreviousMap} (h : p.Holds files name text) :
    p.resolve files name = (readText text).mapError .previousInvalid := by
  cases h with
  | inline => rfl
  | path p h => simp only [resolve, h]
  | resolver f h => simp only [resolve, h]

/-- **Previous maps in both forms.** The text of a map that can be read resolves to what is read
from it. So does content with the map in its annotation, if and only if the content does not begin
with a brace after any blanks. If it does, it is taken for JSON and resolves to nothing. -/
theorem resolve_encode_iff (hread : PositionMap.ofText m.toText = .ok m') (content : Text)
    (style : CommentStyle) :
    ∃ text, MapComment.encode content (some m) style = .ok text ∧
      ∀ (files : FileStore) (name : Text) (p q : PreviousMap), p.Holds files name text →
        q.Holds files name m.toText →
          q.resolve files name = .ok m' ∧
          (p.resolve files name = .ok m' ↔ (Text.trimStart content).head? ≠ some '{') ∧
          ((Text.trimStart content).head? = some '{' →
            p.resolve files name = .error (.previousInvalid .badJson)) := by
  refine ⟨_, rfl, fun files name p q hp hq => ?_⟩
  rw [resolve_of_holds hp, resolve_of_holds hq, readText_toText, readText_append_write, hread]
  refine ⟨rfl, ?_, fun hbrace => ?_⟩
  · split
    · next hbrace => exact iff_of_false nofun (not_not.2 hbrace)
    · next hbrace => exact iff_of_true rfl hbrace
  · rw [if_pos hbrace]
    rfl

/-- Content with a brace that is not its first character, through a resolver. -/
theorem resolve_encode_iff_brace_inside :
    let m : PositionMap := ⟨some ['o'], none, []⟩
    let content := "f(\x7b\x7d)\x7d".toList
    PositionMap.ofText m.toText = .ok m ∧
      ∃ text, MapComment.encode content (some m) .block = .ok text ∧
        ∀ files, (resolver fun _ => some text).resolve files ['o'] = .ok m := by
  intro m content
  have hread : PositionMap.ofText m.toText = .ok m :=
    PositionMap.ofText_toText_of_pairwise (m := m) (by decide) List.Pairwise.nil
  obtain ⟨text, hencode, hresolve⟩ := resolve_encode_iff hread content .block
  refine ⟨hread, text, hencode, fun files => ?_⟩
  exact (hresolve files ['o'] _ _ (.resolver _ rfl) .inline).2.1.2 (by decide)

/-- Content that is a block of code is taken for JSON, and its map is lost. -/
theorem resolve_encode_brace_first :
    let m : PositionMap := ⟨some "in.js".toList, none, []⟩
    let content := "\x7b go(); \x7d".toList
    PositionMap.ofText m.toText = .ok m ∧
      ∃ text, MapComment.encode content (some m) .inline = .ok text ∧
        ∀ files, (inline text).resolve files "out.js".toList = .error (.previousInvalid .badJson) := by
  intro m content
  refine ⟨PositionMap.ofText_toText_of_pairwise (m := m) (by decide) List.Pairwise.nil, _, rfl,
    fun files => ?_⟩
  rw [resolve, readText_append_write, if_pos (by decide)]
  rfl

end PreviousMap

end Provenance
