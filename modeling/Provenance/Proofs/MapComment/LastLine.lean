import Provenance.Proofs.MapComment.RoundTrip
import Provenance.Proofs.PositionMap.RoundTrip

/-!
# Only the last line can be an annotation

* `MapComment.EndsWith` : a text that ends with an annotation, but for blanks;
  `MapComment.endsWith_of_find?`, `MapComment.find?_eq_none_iff` : what is found is that, and all of
  them are found;
* `MapComment.decode_of_none`, `MapComment.decode_of_error`, `MapComment.decode_of_ok` : the three
  outcomes of decoding;
* `MapComment.decode_append` : what stands above does not matter to them.
-/

namespace Provenance

namespace MapComment

/-! ## What is found -/

theorem exists_comment_of_block? {line : Text} {a : MapComment} (h : block? line = some a) :
    ∃ comment, line = a.before ++ comment ∧ wholeBlock? comment = some a.payload := by
  induction line generalizing a with
  | nil => exact absurd h nofun
  | cons c line ih =>
    rw [block?] at h
    split at h
    · next payload hwhole =>
      obtain rfl := Option.some.inj h
      exact ⟨_, rfl, hwhole⟩
    · obtain ⟨b, hb, rfl⟩ := Option.map_eq_some_iff.1 h
      obtain ⟨comment, hline, hwhole⟩ := ih hb
      exact ⟨comment, congrArg (c :: ·) hline, hwhole⟩

theorem beforeLastLine_append_lastLine (t : Text) : beforeLastLine t ++ lastLine t = t := by
  rw [beforeLastLine, lastLine, ← List.reverse_append, List.takeWhile_append_dropWhile,
    List.reverse_reverse]

theorem endsLine_beforeLastLine (t : Text) : EndsLine (beforeLastLine t) := by
  intro c hc
  rw [beforeLastLine, List.getLast?_reverse] at hc
  have hhead := List.head?_dropWhile_not (!isLineEnd ·) t.reverse
  rw [Option.mem_def.1 hc] at hhead
  simpa using hhead

theorem not_lineEnd_of_mem_lastLine {t : Text} {c : Char} (h : c ∈ lastLine t) :
    isLineEnd c = false := by
  simpa using List.mem_takeWhile_imp (List.mem_reverse.1 h)

/-- `t` ends with the annotation `a`: a comment within one line, which it begins if it has the first
form, and blanks behind it. -/
def EndsWith (t : Text) (a : MapComment) : Prop :=
  ∃ comment blanks, t = a.before ++ comment ++ blanks ∧
    (inline? comment = some a.payload ∧ EndsLine a.before ∨
      wholeBlock? comment = some a.payload) ∧
    (∀ c ∈ comment, isLineEnd c = false) ∧ (∀ c ∈ comment.getLast?, Text.isBlank c = false) ∧
    ∀ c ∈ blanks, Text.isBlank c = true

theorem endsWith_of_find? {t : Text} {a : MapComment} (h : find? t = some a) : EndsWith t a := by
  obtain ⟨blanks, ht, hblanks⟩ := Text.exists_eq_trimEnd_append t
  have hlines := beforeLastLine_append_lastLine (Text.trimEnd t)
  have hlast : ∀ front comment, Text.trimEnd t = front ++ comment →
      ∀ c ∈ comment.getLast?, Text.isBlank c = false := fun front comment hsplit c hc => by
    apply Text.not_blank_of_mem_getLast?_trimEnd (t := t)
    rw [hsplit, List.getLast?_append, Option.mem_def.1 hc]
    rfl
  rw [find?] at h
  split at h
  · next payload hinline =>
    obtain rfl := Option.some.inj h
    refine ⟨lastLine (Text.trimEnd t), blanks, ?_, Or.inl ⟨hinline, endsLine_beforeLastLine _⟩,
      fun _ => not_lineEnd_of_mem_lastLine, hlast _ _ hlines.symm, hblanks⟩
    rwa [hlines]
  · obtain ⟨b, hb, rfl⟩ := Option.map_eq_some_iff.1 h
    obtain ⟨comment, hcomment, hwhole⟩ := exists_comment_of_block? hb
    have hsplit : Text.trimEnd t = beforeLastLine (Text.trimEnd t) ++ b.before ++ comment := by
      rw [List.append_assoc, ← hcomment, hlines]
    refine ⟨comment, blanks, ?_, Or.inr hwhole, fun c hc => ?_, hlast _ _ hsplit, hblanks⟩
    · rwa [← hsplit]
    · exact not_lineEnd_of_mem_lastLine (hcomment ▸ List.mem_append_right _ hc)

theorem exists_block?_append {comment payload : Text} (h : wholeBlock? comment = some payload)
    (front : Text) : ∃ a, block? (front ++ comment) = some a := by
  induction front with
  | nil =>
    obtain ⟨c, line, rfl⟩ : ∃ c line, comment = c :: line := by
      cases comment with
      | nil => exact absurd h nofun
      | cons c line => exact ⟨c, line, rfl⟩
    rw [List.nil_append, block?, h]
    exact ⟨_, rfl⟩
  | cons c front ih =>
    obtain ⟨a, ha⟩ := ih
    rw [List.cons_append, block?, ha]
    split <;> exact ⟨_, rfl⟩

/-- **An annotation is found if there is one.** -/
theorem find?_eq_none_iff {t : Text} : find? t = none ↔ ∀ a, ¬EndsWith t a := by
  constructor
  · rintro hnone a ⟨comment, blanks, rfl, hcomment, hline, hlast, hblanks⟩
    have hne : comment ≠ [] := by
      rintro rfl
      rcases hcomment with ⟨h, -⟩ | h <;> exact absurd h nofun
    have htrim : Text.trimEnd (a.before ++ comment ++ blanks) = a.before ++ comment := by
      rw [Text.trimEnd_append_blanks hblanks, Text.trimEnd_eq_self]
      rw [List.getLast?_eq_some_getLast hne] at hlast
      rwa [List.getLast?_append, List.getLast?_eq_some_getLast hne]
    rw [find?, htrim] at hnone
    rcases hcomment with ⟨hinline, hbefore⟩ | hwhole
    · rw [lastLine_append hbefore, lastLine_eq_self hline, hinline] at hnone
      simp at hnone
    · obtain ⟨b, hb⟩ := exists_block?_append hwhole (lastLine a.before)
      rw [lastLine_append_of_not_lineEnd hline, hb] at hnone
      split at hnone <;> simp at hnone
  · intro hnone
    rw [Option.eq_none_iff_forall_ne_some]
    exact fun a ha => hnone a (endsWith_of_find? ha)

/-! ## The outcomes -/

section Outcomes

variable {t : Text} {a : MapComment}

theorem decode_of_none (h : find? t = none) :
    decodeStrict t = .error .missingComment ∧ decode t = ⟨t, none⟩ ∧ strip t = t := by
  have hstrict : decodeStrict t = .error .missingComment := by rw [decodeStrict, h]
  exact ⟨hstrict, by rw [decode, hstrict], by rw [strip, h]⟩

theorem decode_of_error {e : MapError} (h : find? t = some a)
    (hread : readPayload a.payload = .error e) :
    decodeStrict t = .error e ∧ decode t = ⟨t, none⟩ ∧ strip t = a.content := by
  have hstrict : decodeStrict t = .error e := by
    rw [decodeStrict, h]
    simp only [hread]
    rfl
  exact ⟨hstrict, by rw [decode, hstrict], by rw [strip, h]⟩

theorem decode_of_ok {m : PositionMap} (h : find? t = some a)
    (hread : readPayload a.payload = .ok m) :
    decodeStrict t = .ok (a.content, m) ∧ decode t = ⟨a.content, some m⟩ ∧ strip t = a.content := by
  have hstrict : decodeStrict t = .ok (a.content, m) := by
    rw [decodeStrict, h]
    simp only [hread]
    rfl
  exact ⟨hstrict, by rw [decode, hstrict], by rw [strip, h]⟩

end Outcomes

/-! ## Lines above -/

/-- **Only the last line that is not blank can be an annotation.** Behind any text and a terminator,
a text that is not blank is decoded to the same map or error as alone. If it has no annotation,
nothing is taken away, whatever annotations stand above. If it has one with a map, what stands in
front of that is left, without the blanks at its end. -/
theorem decode_append (x : Text) {nl y : Text} (hnl : nl ∈ terminators)
    (hy : ∃ c ∈ y, Text.isBlank c = false) :
    (decode (x ++ nl ++ y)).map = (decode y).map ∧
      (∀ e, decodeStrict (x ++ nl ++ y) = .error e ↔ decodeStrict y = .error e) ∧
      (find? y = none ↔ ∀ a, ¬EndsWith y a) ∧
      (find? y = none → decode (x ++ nl ++ y) = ⟨x ++ nl ++ y, none⟩ ∧
        strip (x ++ nl ++ y) = x ++ nl ++ y) ∧
      ∀ a, find? y = some a → EndsWith y a ∧
        strip (x ++ nl ++ y) = Text.trimEnd (x ++ nl ++ a.before) ∧
        ∀ m, readPayload a.payload = .ok m →
          decode (x ++ nl ++ y) = ⟨Text.trimEnd (x ++ nl ++ a.before), some m⟩ := by
  have hfind := find?_append (endsLine_append hnl x) hy
  have hnone := find?_eq_none_iff (t := y)
  cases h : find? y with
  | none =>
    rw [h] at hnone
    rw [h, Option.map_none] at hfind
    obtain ⟨hstrict, hdecode, hstrip⟩ := decode_of_none hfind
    obtain ⟨hstrict', hdecode', -⟩ := decode_of_none h
    refine ⟨?_, fun e => ?_, hnone, fun _ => ⟨hdecode, hstrip⟩, nofun⟩
    · rw [hdecode, hdecode']
    · rw [hstrict, hstrict']
  | some a =>
    rw [h] at hnone
    rw [h, Option.map_some] at hfind
    cases hread : readPayload a.payload with
    | error e =>
      obtain ⟨hstrict, hdecode, hstrip⟩ := decode_of_error hfind hread
      obtain ⟨hstrict', hdecode', -⟩ := decode_of_error h hread
      refine ⟨?_, fun e => ?_, hnone, nofun, ?_⟩
      · rw [hdecode, hdecode']
      · rw [hstrict, hstrict']
      · rintro _ ⟨⟩
        exact ⟨endsWith_of_find? h, hstrip, fun m hm => absurd (hread.symm.trans hm) nofun⟩
    | ok m =>
      obtain ⟨hstrict, hdecode, hstrip⟩ := decode_of_ok hfind hread
      obtain ⟨hstrict', hdecode', -⟩ := decode_of_ok h hread
      refine ⟨?_, fun e => ?_, hnone, nofun, ?_⟩
      · rw [hdecode, hdecode']
      · rw [hstrict, hstrict']
        exact iff_of_false nofun nofun
      · rintro _ ⟨⟩
        refine ⟨endsWith_of_find? h, hstrip, fun m' hm => ?_⟩
        obtain rfl := Except.ok.inj (hread.symm.trans hm)
        exact hdecode

/-- An annotation above a line of text stays where it is, and above a written one it is content. -/
theorem decode_append_stale :
    let stale := "//# sourceMappingURL=data:application/json;base64,e30=".toList
    let m : PositionMap := ⟨some ['o'], none, []⟩
    let written := '\n' :: write m .block
    find? stale = some ⟨[], "e30=".toList⟩ ∧
      decode (stale ++ ['\r'] ++ ['f']) = ⟨stale ++ ['\r'] ++ ['f'], none⟩ ∧
      decode (stale ++ ['\r', '\n'] ++ written) = ⟨stale, some m⟩ := by
  intro stale m written
  have hf : ∃ c ∈ ['f'], Text.isBlank c = false := ⟨'f', List.mem_cons_self, rfl⟩
  have hblank : ∃ c ∈ written, Text.isBlank c = false :=
    ⟨'/', List.mem_cons_of_mem _ List.mem_cons_self, rfl⟩
  have hread : readPayload (Base64.encode (Text.utf8 m.toText)) = .ok m :=
    (readPayload_encode m).trans
      (PositionMap.ofText_toText_of_pairwise (m := m) (by decide) List.Pairwise.nil)
  have hplain := decode_append stale (show ['\r'] ∈ terminators by simp [terminators]) hf
  have hnext := decode_append stale (show ['\r', '\n'] ∈ terminators by simp [terminators]) hblank
  have hdecode := (hnext.2.2.2.2 _ (find?_append_write m [] .block)).2.2 m hread
  have htrim : Text.trimEnd (stale ++ ['\r', '\n'] ++ ['\n']) = stale := by decide
  rw [List.nil_append, htrim] at hdecode
  exact ⟨by decide, (hplain.2.2.2.1 (by decide)).1, hdecode⟩

end MapComment

end Provenance
