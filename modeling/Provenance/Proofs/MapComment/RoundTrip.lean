import Provenance.MapComment
import Provenance.Proofs.Text.Cutting

/-!
# A written annotation is found

* `MapComment.payload?_url` : the payload behind a data URL;
* `MapComment.find?_append` : lines above are not searched; `MapComment.find?_append_write` : the
  annotation at the end of a text;
* `MapComment.decodeStrict_append_write` : the text and the map that are read from it;
  `MapComment.decode_encode` : all that is done with an encoded text.
-/

namespace Provenance

namespace MapComment

/-! ## Payloads -/

theorem isPayloadChar_digit {n : Nat} (h : n < 64) : isPayloadChar (Base64.digit n) = true := by
  rw [isPayloadChar, Base64.value?_digit h]
  rfl

theorem isPayloadChar_of_mem_encode {bytes : List UInt8} {c : Char} (h : c ∈ Base64.encode bytes) :
    isPayloadChar c = true := by
  have hpad : isPayloadChar Base64.pad = true := by decide
  fun_induction Base64.encode bytes with
  | case1 a b c' rest n ih =>
    have ha := a.toNat_lt
    have hb := b.toNat_lt
    have hc := c'.toNat_lt
    simp only [List.mem_cons] at h
    rcases h with rfl | rfl | rfl | rfl | h
    · exact isPayloadChar_digit (by omega)
    · exact isPayloadChar_digit (by omega)
    · exact isPayloadChar_digit (by omega)
    · exact isPayloadChar_digit (by omega)
    · exact ih h
  | case2 a b n =>
    have ha := a.toNat_lt
    have hb := b.toNat_lt
    simp only [List.mem_cons, List.not_mem_nil, or_false] at h
    rcases h with rfl | rfl | rfl | rfl
    · exact isPayloadChar_digit (by omega)
    · exact isPayloadChar_digit (by omega)
    · exact isPayloadChar_digit (by omega)
    · exact hpad
  | case3 a n =>
    have ha := a.toNat_lt
    simp only [List.mem_cons, List.not_mem_nil, or_false] at h
    rcases h with rfl | rfl | rfl | rfl
    · exact isPayloadChar_digit (by omega)
    · exact isPayloadChar_digit (by omega)
    · exact hpad
    · exact hpad
  | case4 => simp at h

theorem exists_digit_of_isPayloadChar {c : Char} (h : isPayloadChar c = true) :
    (∃ n < 64, c = Base64.digit n) ∨ c = Base64.pad := by
  rw [isPayloadChar, Bool.or_eq_true] at h
  rcases h with h | h
  · obtain ⟨n, hn⟩ := Option.isSome_iff_exists.1 h
    exact Or.inl ⟨n, Base64.value?_lt hn, (Base64.digit_of_value? hn).symm⟩
  · exact Or.inr (by simpa using h)

theorem not_blank_of_isPayloadChar {c : Char} (h : isPayloadChar c = true) :
    Text.isBlank c = false ∧ isLineEnd c = false := by
  rcases exists_digit_of_isPayloadChar h with ⟨n, hn, rfl⟩ | rfl
  · have all : ∀ k : Fin 64, Text.isBlank (Base64.digit k) = false ∧
        isLineEnd (Base64.digit k) = false := by decide
    exact all ⟨n, hn⟩
  · decide

theorem payload?_url {payload rest : Text} (h : ∀ c ∈ payload, isPayloadChar c = true)
    (hrest : ∀ c ∈ rest.head?, isPayloadChar c = false) :
    payload? ('#' :: ' ' :: (urlStart ++ (payloadStart ++ (payload ++ rest)))) =
      some (payload, rest) := by
  have hhash : Text.after? ['#']
      (skipGap ('#' :: ' ' :: (urlStart ++ (payloadStart ++ (payload ++ rest))))) =
      some (' ' :: (urlStart ++ (payloadStart ++ (payload ++ rest)))) := rfl
  have hgap : skipGap (' ' :: (urlStart ++ (payloadStart ++ (payload ++ rest)))) =
      urlStart ++ (payloadStart ++ (payload ++ rest)) := rfl
  have hcharset : skipCharset? (payloadStart ++ (payload ++ rest)) =
      some (payloadStart ++ (payload ++ rest)) := rfl
  simp only [payload?, bind, Option.bind, hhash, hgap, Text.after?_append, hcharset]
  rw [List.takeWhile_append_of_pos h, List.dropWhile_append_of_pos h,
    Text.takeWhile_eq_nil_of_head? hrest, Text.dropWhile_eq_self_of_head? hrest, List.append_nil]
  rfl

/-! ## One line -/

variable (m : PositionMap)

theorem payload?_write {rest : Text} (hrest : ∀ c ∈ rest.head?, isPayloadChar c = false) :
    payload? ('#' :: ' ' :: (urlStart ++ (payloadStart ++
      (Base64.encode (Text.utf8 m.toText) ++ rest)))) =
      some (Base64.encode (Text.utf8 m.toText), rest) :=
  payload?_url (fun _ => isPayloadChar_of_mem_encode) hrest

def opening : CommentStyle → Text
  | .inline => "//# ".toList
  | .block => "/*# ".toList

def closing : CommentStyle → Text
  | .inline => []
  | .block => "*/".toList

theorem write_eq (style : CommentStyle) :
    write m style = opening style ++ (urlStart ++ (payloadStart ++
      (Base64.encode (Text.utf8 m.toText) ++ closing style))) := by
  cases style with
  | inline => rw [closing, List.append_nil]; rfl
  | block => simp only [write, List.append_assoc]; rfl

theorem inline?_write_inline :
    inline? (write m .inline) = some (Base64.encode (Text.utf8 m.toText)) := by
  have hslashes : Text.after? ['/', '/'] (write m .inline) = some ('#' :: ' ' :: (urlStart ++
      (payloadStart ++ (Base64.encode (Text.utf8 m.toText) ++ [])))) := by
    rw [write_eq]
    rfl
  rw [inline?, hslashes, Option.bind_eq_bind, Option.bind_some, payload?_write m (by simp)]
  rfl

theorem inline?_write_block : inline? (write m .block) = none := rfl

theorem block?_write_block :
    block? (write m .block) = some ⟨[], Base64.encode (Text.utf8 m.toText)⟩ := by
  have hopen : Text.after? ['/', '*'] (write m .block) = some ('#' :: ' ' :: (urlStart ++
      (payloadStart ++ (Base64.encode (Text.utf8 m.toText) ++ ['*', '/'])))) := by
    rw [write_eq]
    rfl
  have hwhole : wholeBlock? (write m .block) = some (Base64.encode (Text.utf8 m.toText)) := by
    have hstar : ∀ c ∈ ['*', '/'].head?, isPayloadChar c = false := by
      rintro c ⟨⟩
      rfl
    rw [wholeBlock?, hopen, Option.bind_eq_bind, Option.bind_some, payload?_write m hstar]
    rfl
  obtain ⟨c, line, hline⟩ : ∃ c line, write m .block = c :: line := ⟨_, _, rfl⟩
  rw [hline] at hwhole ⊢
  rw [block?, hwhole]

theorem isLineEnd_of_mem_write {style : CommentStyle} {c : Char} (h : c ∈ write m style) :
    isLineEnd c = false := by
  rw [write_eq] at h
  simp only [List.mem_append] at h
  rcases h with h | h | h | h | h
  · exact Text.eq_false_of_all_not (by cases style <;> rfl) h
  · exact Text.eq_false_of_all_not (t := urlStart) rfl h
  · exact Text.eq_false_of_all_not (t := payloadStart) rfl h
  · exact (not_blank_of_isPayloadChar (isPayloadChar_of_mem_encode h)).2
  · exact Text.eq_false_of_all_not (by cases style <;> rfl) h

theorem trimEnd_write (style : CommentStyle) : Text.trimEnd (write m style) = write m style := by
  apply Text.trimEnd_eq_self
  intro c hc
  rw [write_eq, ← List.append_assoc, List.getLast?_append, Option.mem_def,
    Option.or_eq_some_iff] at hc
  have hmem : c ∈ payloadStart ++ (Base64.encode (Text.utf8 m.toText) ++ closing style) := by
    rcases hc with hc | ⟨hnone, -⟩
    · exact List.mem_of_getLast? hc
    · rw [List.getLast?_eq_none_iff] at hnone
      exact absurd hnone (List.append_ne_nil_of_left_ne_nil (List.cons_ne_nil _ _) _)
  simp only [List.mem_append] at hmem
  rcases hmem with h | h | h
  · exact Text.eq_false_of_all_not (t := payloadStart) rfl h
  · exact (not_blank_of_isPayloadChar (isPayloadChar_of_mem_encode h)).1
  · exact Text.eq_false_of_all_not (by cases style <;> rfl) h

theorem exists_not_blank_write (style : CommentStyle) :
    ∃ c ∈ write m style, Text.isBlank c = false := by
  cases style <;> exact ⟨'/', List.mem_cons_self, rfl⟩

/-! ## The last line -/

theorem lastLine_append_of_not_lineEnd {line : Text} (h : ∀ c ∈ line, isLineEnd c = false)
    (t : Text) : lastLine (t ++ line) = lastLine t ++ line := by
  have hrun : ∀ c ∈ line.reverse, (!isLineEnd c) = true := fun c hc => by
    simp [h c (List.mem_reverse.1 hc)]
  rw [lastLine, List.reverse_append, List.takeWhile_append_of_pos hrun, List.reverse_append,
    List.reverse_reverse, lastLine]

theorem lastLine_eq_self {line : Text} (h : ∀ c ∈ line, isLineEnd c = false) :
    lastLine line = line :=
  lastLine_append_of_not_lineEnd h []

theorem beforeLastLine_eq_nil {line : Text} (h : ∀ c ∈ line, isLineEnd c = false) :
    beforeLastLine line = [] := by
  rw [beforeLastLine, List.dropWhile_eq_nil_iff.2, List.reverse_nil]
  exact fun c hc => by simp [h c (List.mem_reverse.1 hc)]

/-- A text that is empty or ends with the end of a line. -/
def EndsLine (above : Text) : Prop := ∀ c ∈ above.getLast?, isLineEnd c = true

def terminators : List Text := [['\n'], ['\r'], ['\r', '\n']]

theorem endsLine_append {nl : Text} (h : nl ∈ terminators) (t : Text) : EndsLine (t ++ nl) := by
  simp only [terminators, List.mem_cons, List.not_mem_nil, or_false] at h
  rcases h with rfl | rfl | rfl <;> simp [EndsLine, isLineEnd]

section Above

variable {above : Text} (h : EndsLine above)
include h

theorem not_head?_reverse_of_endsLine : ∀ c ∈ above.reverse.head?, (!isLineEnd c) = false :=
  fun c hc => by simp [h c (List.head?_reverse ▸ hc)]

theorem lastLine_append (t : Text) : lastLine (above ++ t) = lastLine t := by
  rw [lastLine, List.reverse_append,
    Text.takeWhile_append_of_head? (not_head?_reverse_of_endsLine h), lastLine]

theorem beforeLastLine_append (t : Text) :
    beforeLastLine (above ++ t) = above ++ beforeLastLine t := by
  rw [beforeLastLine, List.reverse_append,
    Text.dropWhile_append_of_head? (not_head?_reverse_of_endsLine h), List.reverse_append,
    List.reverse_reverse, beforeLastLine]

/-- **Lines above are not searched.** The annotation is that of the text below them, if that is not
blank. -/
theorem find?_append {t : Text} (ht : ∃ c ∈ t, Text.isBlank c = false) :
    find? (above ++ t) = (find? t).map fun a => ⟨above ++ a.before, a.payload⟩ := by
  rw [find?, Text.trimEnd_append ht, find?]
  simp only [lastLine_append h, beforeLastLine_append h]
  cases inline? (lastLine (Text.trimEnd t)) with
  | some payload => rfl
  | none =>
    simp only [Option.map_map, List.append_assoc]
    rfl

end Above

theorem find?_write (style : CommentStyle) :
    find? (write m style) = some ⟨[], Base64.encode (Text.utf8 m.toText)⟩ := by
  have hends : ∀ c ∈ write m style, isLineEnd c = false := fun c => isLineEnd_of_mem_write m
  rw [find?, trimEnd_write]
  simp only [lastLine_eq_self hends, beforeLastLine_eq_nil hends]
  cases style with
  | inline => rw [inline?_write_inline]
  | block => rw [inline?_write_block, block?_write_block, Option.map_some, List.append_nil]

/-- **A written annotation is found**, whatever stands in front of its line. -/
theorem find?_append_write (t : Text) (style : CommentStyle) :
    find? (t ++ '\n' :: write m style) =
      some ⟨t ++ ['\n'], Base64.encode (Text.utf8 m.toText)⟩ := by
  have hline := find?_append (endsLine_append List.mem_cons_self t) (exists_not_blank_write m style)
  rw [List.append_assoc, find?_write, Option.map_some, List.append_nil] at hline
  exact hline

/-! ## Reading -/

theorem readPayload_encode :
    readPayload (Base64.encode (Text.utf8 m.toText)) = PositionMap.ofText m.toText := by
  simp only [readPayload, Base64.decode?_encode, Text.ofUtf8?_utf8]

theorem content_trimEnd_append (t payload : Text) :
    MapComment.content ⟨Text.trimEnd t ++ ['\n'], payload⟩ = Text.trimEnd t := by
  rw [MapComment.content, Text.trimEnd_append_blanks (List.forall_mem_singleton.2 rfl),
    Text.trimEnd_trimEnd]

theorem decodeStrict_append_write (content : Text) (style : CommentStyle) :
    decodeStrict (Text.trimEnd content ++ '\n' :: write m style) =
      (PositionMap.ofText m.toText).map fun m' => (Text.trimEnd content, m') := by
  rw [decodeStrict, find?_append_write]
  simp only [readPayload_encode, content_trimEnd_append]

theorem strip_append_write (content : Text) (style : CommentStyle) :
    strip (Text.trimEnd content ++ '\n' :: write m style) = Text.trimEnd content := by
  rw [strip, find?_append_write]
  exact content_trimEnd_append content _

/-- **What is encoded is decoded.** The content comes back without the blanks it ended with,
whatever else it holds, and the map comes back as it is read from its own text. If that cannot be
read, no map is found and the text stays as it is. -/
theorem decode_encode (content : Text) (style : CommentStyle) :
    ∃ text, encode content (some m) style = .ok text ∧ strip text = Text.trimEnd content ∧
      match PositionMap.ofText m.toText with
      | .ok m' => decode text = ⟨Text.trimEnd content, some m'⟩ ∧
          decodeStrict text = .ok (Text.trimEnd content, m')
      | .error e => decode text = ⟨text, none⟩ ∧ decodeStrict text = .error e := by
  refine ⟨_, rfl, strip_append_write m content style, ?_⟩
  have hstrict := decodeStrict_append_write m content style
  cases hread : PositionMap.ofText m.toText with
  | ok m' =>
    rw [hread] at hstrict
    exact ⟨by rw [decode, hstrict]; rfl, hstrict⟩
  | error e =>
    rw [hread] at hstrict
    exact ⟨by rw [decode, hstrict]; rfl, hstrict⟩

end MapComment

end Provenance
