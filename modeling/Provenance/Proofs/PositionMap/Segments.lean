import Provenance.PositionMap.Writing
import Provenance.Proofs.PositionMap.Reading
import Provenance.Proofs.Text.Cutting
import Provenance.Proofs.Vlq

/-!
# The mappings text is read as it was written

Writer and reader carry the same running totals, so that after each segment they stand at the same
`Totals`; this is the invariant that links the two loops.

* `PositionMap.piecesFrom_segments` : the text falls into the segments that were written;
* `Totals.add_advance` : the fields of a mapping add up to the totals behind it;
  `Totals.read_advance` : a segment is read as its mapping, and the totals behind it agree;
* `PositionMap.readSegments_writtenPieces` : the segments of a whole list of mappings.
-/

namespace Provenance

/-! ## Cutting the text -/

namespace PositionMap

/-- The segments of one line, each with the number of the line. -/
def linePieces (number : Nat) (line : Text) : List (Nat × Text) :=
  ((line.splitOn ',').filter (!·.isEmpty)).map (number, ·)

def piecesFrom (number : Nat) (t : Text) : List (Nat × Text) :=
  ((t.splitOn ';').zipIdx number).flatMap fun (line, number) => linePieces number line

theorem piecesFrom_eq {t line : Text} {lines : List Text} (number : Nat)
    (h : t.splitOn ';' = line :: lines) :
    piecesFrom number t = linePieces number line ++
      (lines.zipIdx (number + 1)).flatMap fun (line, number) => linePieces number line := by
  rw [piecesFrom, h, List.zipIdx_cons, List.flatMap_cons]

theorem piecesFrom_semicolon (number : Nat) (t : Text) :
    piecesFrom number (';' :: t) = piecesFrom (number + 1) t := by
  have h : (';' :: t).splitOn ';' = [] :: t.splitOn ';' := by
    rw [List.splitOn_cons_eq_if_modifyHead, if_pos (by rfl)]
  rw [piecesFrom_eq number h]
  rfl

theorem piecesFrom_replicate (number k : Nat) (t : Text) :
    piecesFrom number (List.replicate k ';' ++ t) = piecesFrom (number + k) t := by
  induction k generalizing number with
  | zero => rfl
  | succ k ih =>
    rw [List.replicate_succ, List.cons_append, piecesFrom_semicolon, ih]
    congr 1
    omega

theorem linePieces_comma (number : Nat) (line : Text) :
    linePieces number (',' :: line) = linePieces number line := by
  rw [linePieces, List.splitOn_cons_eq_if_modifyHead, if_pos (by rfl)]
  rfl

theorem linePieces_append {w line : Text} (number : Nat) (hne : w ≠ []) (hw : ',' ∉ w)
    (hline : ∀ c ∈ line.head?, c = ',') :
    linePieces number (w ++ line) = (number, w) :: linePieces number line := by
  have hkeep : (!w.isEmpty) = true := by simpa using hne
  cases line with
  | nil =>
    rw [List.append_nil, linePieces, List.splitOn_eq_singleton hw, List.filter_cons, if_pos hkeep]
    rfl
  | cons c line =>
    obtain rfl := hline c rfl
    rw [linePieces_comma, linePieces, List.splitOn_append_cons_self_of_not_mem hw,
      List.filter_cons, if_pos hkeep, List.map_cons, ← linePieces]

/-- A text that a separator begins, or that is empty. -/
def Parted (t : Text) : Prop := ∀ c ∈ t.head?, c = ';' ∨ c = ','

theorem exists_splitOn_of_parted {t : Text} (ht : Parted t) :
    ∃ line lines, t.splitOn ';' = line :: lines ∧ ∀ c ∈ line.head?, c = ',' := by
  cases t with
  | nil => exact ⟨[], [], rfl, by simp⟩
  | cons c t =>
    rcases ht c rfl with rfl | rfl
    · refine ⟨[], t.splitOn ';', ?_, by simp⟩
      rw [List.splitOn_cons_eq_if_modifyHead, if_pos (by rfl)]
    · obtain ⟨line, lines, h⟩ := List.exists_cons_of_ne_nil (List.splitOn_ne_nil ';' t)
      refine ⟨',' :: line, lines, ?_, by simp⟩
      rw [List.splitOn_cons_eq_if_modifyHead, if_neg (by decide), h, List.modifyHead_cons]

theorem piecesFrom_comma (number : Nat) (t : Text) :
    piecesFrom number (',' :: t) = piecesFrom number t := by
  obtain ⟨line, lines, h⟩ := List.exists_cons_of_ne_nil (List.splitOn_ne_nil ';' t)
  have hcomma : (',' :: t).splitOn ';' = (',' :: line) :: lines := by
    rw [List.splitOn_cons_eq_if_modifyHead, if_neg (by decide), h, List.modifyHead_cons]
  rw [piecesFrom_eq number hcomma, piecesFrom_eq number h, linePieces_comma]

theorem piecesFrom_append {w t : Text} (number : Nat) (hne : w ≠ [])
    (hw : ∀ c ∈ w, c ≠ ';' ∧ c ≠ ',') (ht : Parted t) :
    piecesFrom number (w ++ t) = (number, w) :: piecesFrom number t := by
  obtain ⟨line, lines, h, hline⟩ := exists_splitOn_of_parted ht
  have hfirst : (w ++ t).splitOn ';' = (w ++ line) :: lines := by
    rw [Text.splitOn_append_of_not_mem (fun h => (hw _ h).1 rfl), h, List.modifyHead_cons]
  rw [piecesFrom_eq number hfirst, piecesFrom_eq number h,
    linePieces_append number hne (fun h => (hw _ h).2 rfl) hline, List.cons_append]

end PositionMap

/-! ## The segments that are written -/

namespace Totals

/-- The three forms of a segment: without an origin, with one, and with an origin and a name. -/
theorem advance_cases (t : Totals) (sources names : List Text) (m : Mapping) :
    ∃ column, column = Word.signed m.generated.column ∧
      (m.origin = none ∧ t.advance sources names m = ([column - t.column], { t with column }) ∨
        ∃ o, m.origin = some o ∧ ∃ source originLine originColumn,
          source = Word.signed (sources.idxOf o.source) ∧ originLine = Word.signed o.line - 1 ∧
          originColumn = Word.signed o.column ∧
          (m.name = none ∧ t.advance sources names m =
              ([column - t.column, source - t.source, originLine - t.originLine,
                originColumn - t.originColumn],
                { t with column, source, originLine, originColumn }) ∨
            ∃ n, m.name = some n ∧ ∃ name, name = Word.signed (names.idxOf n) ∧
              t.advance sources names m =
                ([column - t.column, source - t.source, originLine - t.originLine,
                  originColumn - t.originColumn, name - t.name],
                  { t with column, source, originLine, originColumn, name }))) := by
  refine ⟨_, rfl, ?_⟩
  cases ho : m.origin with
  | none =>
    refine Or.inl ⟨rfl, ?_⟩
    unfold advance
    rw [ho]
  | some o =>
    refine Or.inr ⟨o, rfl, _, _, _, rfl, rfl, rfl, ?_⟩
    cases hn : m.name with
    | none =>
      refine Or.inl ⟨rfl, ?_⟩
      unfold advance
      rw [ho, hn]
    | some n =>
      refine Or.inr ⟨n, rfl, _, rfl, ?_⟩
      unfold advance
      rw [ho, hn]
      simp only [List.cons_append, List.nil_append]

theorem advance_line (t : Totals) (sources names : List Text) (m : Mapping) :
    (t.advance sources names m).2.line = t.line := by
  obtain ⟨c, -, ⟨-, h⟩ | ⟨o, -, s, l, k, -, -, -, ⟨-, h⟩ | ⟨n, -, i, -, h⟩⟩⟩ :=
    advance_cases t sources names m <;> rw [h]

theorem advance_ne_nil (t : Totals) (sources names : List Text) (m : Mapping) :
    (t.advance sources names m).1 ≠ [] := by
  obtain ⟨c, -, ⟨-, h⟩ | ⟨o, -, s, l, k, -, -, -, ⟨-, h⟩ | ⟨n, -, i, -, h⟩⟩⟩ :=
    advance_cases t sources names m <;> rw [h] <;> exact List.cons_ne_nil _ _

end Totals

namespace PositionMap

variable (sources names : List Text)

/-- The segments of mappings behind the totals, each with its line. -/
def writtenPieces (t : Totals) : List Mapping → List (Nat × Text)
  | [] => []
  | m :: rest =>
    let written := (t.enter m.generated.line).advance sources names m
    (m.generated.line, written.1.flatMap Vlq.encode) :: writtenPieces written.2 rest

theorem segments_cons (t : Totals) (started : Bool) (m : Mapping) (rest : List Mapping) :
    segments sources names t started (m :: rest) =
      separator t started m.generated.line ++
        (((t.enter m.generated.line).advance sources names m).1.flatMap Vlq.encode ++
          segments sources names ((t.enter m.generated.line).advance sources names m).2 true
            rest) := by
  rw [← List.append_assoc]
  rfl

theorem parted_separator (t : Totals) (line : Nat) (u : Text) :
    Parted (separator t true line ++ u) := by
  unfold separator
  split
  · next h =>
    have hk : line - t.line = line - t.line - 1 + 1 := by omega
    rw [hk, List.replicate_succ]
    exact fun c hc => Or.inl (by simpa using hc.symm)
  · exact fun c hc => Or.inr (by simpa using hc.symm)

theorem parted_segments (t : Totals) (ms : List Mapping) :
    Parted (segments sources names t true ms) := by
  cases ms with
  | nil => exact fun c hc => by simp [segments] at hc
  | cons m rest =>
    rw [segments_cons]
    exact parted_separator t _ _

theorem piecesFrom_separator {t : Totals} {line : Nat} (h : t.line ≤ line) (started : Bool)
    (u : Text) : piecesFrom t.line (separator t started line ++ u) = piecesFrom line u := by
  unfold separator
  split
  · rw [piecesFrom_replicate]
    congr 1
    omega
  · obtain rfl : t.line = line := by omega
    cases started with
    | true => exact piecesFrom_comma _ _
    | false => rfl

theorem piecesFrom_segments {ms : List Mapping} (t : Totals) (started : Bool)
    (hms : ms.Pairwise fun a b => a.generated.line ≤ b.generated.line)
    (ht : ∀ m ∈ ms, t.line ≤ m.generated.line) :
    piecesFrom t.line (segments sources names t started ms) = writtenPieces sources names t ms := by
  induction ms generalizing t started with
  | nil => rfl
  | cons m rest ih =>
    have hline :
        ((t.enter m.generated.line).advance sources names m).2.line = m.generated.line := by
      rw [Totals.advance_line, Totals.enter_line (ht m List.mem_cons_self)]
    rw [List.pairwise_cons] at hms
    rw [segments_cons, piecesFrom_separator (ht m List.mem_cons_self),
      piecesFrom_append _ (Vlq.flatMap_encode_ne_nil (Totals.advance_ne_nil _ _ _ _))
        (fun c hc => Vlq.not_separator_of_mem_flatMap_encode hc) (parted_segments _ _ _ _),
      writtenPieces]
    have hrest := ih _ true hms.2 fun b hb => by
      rw [hline]
      exact hms.1 b hb
    rw [hline] at hrest
    rw [hrest]

end PositionMap

/-! ## Reading a segment -/

/-- The mapping that is read for a mapping that was written: a name without an origin is lost. -/
def Mapping.written (m : Mapping) : Mapping :=
  { m with name := m.origin.bind fun _ => m.name }

/-- The numbers of a mapping are in range, and the tables hold its source and its name. -/
structure Mapping.Fits (sources names : List Text) (m : Mapping) : Prop where
  column : m.generated.column < Word.quarter
  origin : ∀ o, m.origin = some o →
    1 ≤ o.line ∧ o.line < Word.quarter ∧ o.column < Word.quarter ∧ o.source ∈ sources
  name : ∀ o n, m.origin = some o → m.name = some n → n ∈ names

namespace Totals

/-- A total in the range that is written and read. -/
def InRange (i : Int) : Prop := 0 ≤ i ∧ i < Word.quarter

theorem inRange_natCast {n : Nat} (h : n < Word.quarter) : InRange n :=
  ⟨Int.natCast_nonneg n, Int.ofNat_lt.2 h⟩

structure Natural (t : Totals) : Prop where
  column : InRange t.column
  source : InRange t.source
  originLine : InRange t.originLine
  originColumn : InRange t.originColumn
  name : InRange t.name

theorem inRange_zero : InRange 0 := ⟨Int.le_refl 0, by decide⟩

theorem natural_zero : Natural {} :=
  ⟨inRange_zero, inRange_zero, inRange_zero, inRange_zero, inRange_zero⟩

theorem Natural.enter {t : Totals} (h : t.Natural) (line : Nat) : (t.enter line).Natural := by
  unfold Totals.enter
  split
  · exact { h with column := inRange_zero }
  · exact h

theorem ofInt_sub_lt {a b : Int} (ha : InRange a) (hb : InRange b) :
    Vlq.ofInt (a - b) < Word.size := by
  have hw : (Word.quarter : Int) + Word.quarter + Word.quarter + Word.quarter = Word.size := by
    decide
  unfold InRange at ha hb
  unfold Vlq.ofInt
  generalize Word.quarter = q at *
  generalize Word.size = w at *
  split <;> omega

theorem InRange.isSigned {i : Int} (h : InRange i) : Word.IsSigned i ∧ 0 ≤ i := by
  have hq : (Word.quarter : Int) ≤ Word.half := by decide
  refine ⟨⟨Int.le_trans ?_ h.1, Int.lt_of_lt_of_le h.2 hq⟩, h.1⟩
  decide

/-- Of totals in range, only the indices are in question. -/
theorem Natural.admits {t : Totals} {sources names : List Text} {n : Nat} (h : t.Natural)
    (hcount : n = 1 ∨ n = 4 ∨ n = 5) (hsource : 4 ≤ n → t.source < sources.length)
    (hname : n = 5 → t.name < names.length) : t.Admits sources names n where
  count := hcount
  column := h.column.isSigned
  source hn := ⟨h.source.isSigned.1, h.source.1, hsource hn⟩
  originLine _ := h.originLine.isSigned
  originColumn _ := h.originColumn.isSigned
  name hn := ⟨h.name.isSigned.1, h.name.1, hname hn⟩

variable {t : Totals} {sources names : List Text}

theorem add_advance (t : Totals) (sources names : List Text) (m : Mapping) :
    t.add (t.advance sources names m).1 = (t.advance sources names m).2 := by
  have hsum : ∀ a b : Int, a + (b - a) = b := fun a b => by omega
  obtain ⟨c, -, ⟨-, h⟩ | ⟨o, -, s, l, k, -, -, -, ⟨-, h⟩ | ⟨n, -, i, -, h⟩⟩⟩ :=
    advance_cases t sources names m <;>
  · rw [h]
    simp [add, addColumn, addOrigin, addName, hsum]

theorem getElem?_idxOf {table : List Text} {x : Text} (h : x ∈ table) :
    table[(table.idxOf x : Int).toNat]? = some x := by
  rw [Int.toNat_natCast, List.getElem?_eq_getElem (List.idxOf_lt_length_of_mem h),
    List.getElem_idxOf]

/-- The segment of a mapping is read as it was written if the totals behind it say the mapping. -/
theorem read_advance_of_admits {m : Mapping} {vs : List Int} {next : Totals}
    (h : t.advance sources names m = (vs, next)) (hvs : ∀ v ∈ vs, Vlq.ofInt v < Word.size)
    (hadmits : next.Admits sources names vs.length)
    (hmapping : next.mapping sources names vs.length = m.written) :
    t.read sources names ((t.advance sources names m).1.flatMap Vlq.encode) =
      .ok (m.written, (t.advance sources names m).2) := by
  have hadd := add_advance t sources names m
  rw [h] at hadd ⊢
  have hread := read_of_admits (t := t) (Vlq.decode_flatMap_encode vs hvs) (by rwa [hadd])
  rwa [hadd, hmapping] at hread

/-- **One segment.** Reading the segment of a mapping gives the mapping, and the totals that writing
it left behind. -/
theorem read_advance {m : Mapping} (ht : t.Natural) (hline : t.line = m.generated.line)
    (hm : m.Fits sources names) (hsources : sources.length < Word.quarter)
    (hnames : names.length < Word.quarter) :
    (t.advance sources names m).2.Natural ∧
      t.read sources names ((t.advance sources names m).1.flatMap Vlq.encode) =
        .ok (m.written, (t.advance sources names m).2) := by
  have hwritten : m.written =
      ⟨⟨t.line, m.generated.column⟩, m.origin, m.origin.bind fun _ => m.name⟩ := by
    rw [hline]
    rfl
  have hcolumn := inRange_natCast hm.column
  obtain ⟨column, hc₀, h⟩ := advance_cases t sources names m
  rw [Word.signed_of_lt_quarter hm.column] at hc₀
  subst hc₀
  -- Each field is a difference of totals in range, the old one and the new one.
  have hfirst := ofInt_sub_lt hcolumn ht.column
  rcases h with ⟨ho, h⟩ | ⟨o, ho, source, originLine, originColumn, hs₀, hol, hc₀, h⟩
  · have hnatural : (t.advance sources names m).2.Natural := by
      rw [h]
      exact { ht with column := hcolumn }
    refine ⟨hnatural, read_advance_of_admits h (by simpa using hfirst) ?_ ?_⟩
    · rw [h] at hnatural
      exact hnatural.admits (Or.inl rfl) (by simp) nofun
    · rw [hwritten, ho]
      rfl
  · obtain ⟨hpos, hl, hc, hmem⟩ := hm.origin o ho
    have hidx := List.idxOf_lt_length_of_mem hmem
    obtain rfl : originLine = (o.line - 1 : Nat) := by
      rw [hol, Word.signed_of_lt_quarter hl]
      omega
    rw [Word.signed_of_lt_quarter (Nat.lt_trans hidx hsources)] at hs₀
    rw [Word.signed_of_lt_quarter hc] at hc₀
    subst hs₀ hc₀
    have horigin : (⟨o.source, o.line - 1 + 1, o.column⟩ : Origin) = o := by
      rw [Nat.sub_add_cancel hpos]
    have hsource := inRange_natCast (Nat.lt_trans hidx hsources)
    have horiginLine := inRange_natCast (Nat.lt_of_le_of_lt (Nat.sub_le o.line 1) hl)
    have horiginColumn := inRange_natCast hc
    have hfour := And.intro hfirst (And.intro (ofInt_sub_lt hsource ht.source)
      (And.intro (ofInt_sub_lt horiginLine ht.originLine)
        (ofInt_sub_lt horiginColumn ht.originColumn)))
    rcases h with ⟨hn, h⟩ | ⟨n, hn, name, hn₀, h⟩
    · have hnatural : (t.advance sources names m).2.Natural := by
        rw [h]
        exact ⟨hcolumn, hsource, horiginLine, horiginColumn, ht.name⟩
      refine ⟨hnatural, read_advance_of_admits h (by simpa using hfour) ?_ ?_⟩
      · rw [h] at hnatural
        exact hnatural.admits (Or.inr (Or.inl rfl)) (fun _ => Int.ofNat_lt.2 hidx) nofun
      · rw [hwritten, ho, hn, ← horigin]
        exact mapping_four (getElem?_idxOf hmem)
    · have hnmem := hm.name o n ho hn
      have hnidx := List.idxOf_lt_length_of_mem hnmem
      rw [Word.signed_of_lt_quarter (Nat.lt_trans hnidx hnames)] at hn₀
      subst hn₀
      have hname := inRange_natCast (Nat.lt_trans hnidx hnames)
      have hnatural : (t.advance sources names m).2.Natural := by
        rw [h]
        exact ⟨hcolumn, hsource, horiginLine, horiginColumn, hname⟩
      refine ⟨hnatural, read_advance_of_admits h ?_ ?_ ?_⟩
      · simpa using ⟨hfour.1, hfour.2.1, hfour.2.2.1, hfour.2.2.2, ofInt_sub_lt hname ht.name⟩
      · rw [h] at hnatural
        exact hnatural.admits (Or.inr (Or.inr rfl)) (fun _ => Int.ofNat_lt.2 hidx)
          fun _ => Int.ofNat_lt.2 hnidx
      · rw [hwritten, ho, hn, ← horigin]
        exact mapping_five (getElem?_idxOf hmem) (getElem?_idxOf hnmem)

end Totals

namespace PositionMap

variable {sources names : List Text}

/-- **A whole text.** Reading the segments of mappings in generated order gives these mappings. -/
theorem readSegments_writtenPieces {ms : List Mapping} (t : Totals) (index : Nat) (ht : t.Natural)
    (hms : ms.Pairwise fun a b => a.generated.line ≤ b.generated.line)
    (hline : ∀ m ∈ ms, t.line ≤ m.generated.line) (hfits : ∀ m ∈ ms, m.Fits sources names)
    (hsources : sources.length < Word.quarter) (hnames : names.length < Word.quarter) :
    readSegments sources names index t (writtenPieces sources names t ms) =
      .ok (ms.map Mapping.written) := by
  -- Writer and reader stand at the same totals, which the induction quantifies over.
  induction ms generalizing t index with
  | nil => rfl
  | cons m rest ih =>
    rw [List.pairwise_cons] at hms
    rw [List.forall_mem_cons] at hline hfits
    have henter := Totals.enter_line hline.1
    obtain ⟨hnatural, hread⟩ := Totals.read_advance (ht.enter m.generated.line) henter hfits.1
      hsources hnames
    have hnext : ∀ e ∈ rest,
        ((t.enter m.generated.line).advance sources names m).2.line ≤ e.generated.line := by
      intro e he
      rw [Totals.advance_line, henter]
      exact hms.1 e he
    rw [writtenPieces, readSegments, hread]
    simp only
    rw [ih _ (index + 1) hnatural hms.2 hnext hfits.2]
    rfl

end PositionMap

end Provenance
