import Mathlib.Data.List.Chain
import Provenance.Proofs.PositionMap.RoundTrip

/-!
# How large the written numbers are

Each number of a segment is the difference of two numbers of the map. To be written it is doubled,
for its sign, and the double has to fit into a word with a sign, so the difference has to be below
`Word.quarter`. The reader takes numbers and sums that are twice as large.

* `PositionMap.deltas` : the numbers that are written for a map; `PositionMap.filter_segments` : the
  mappings text spells them;
* `Close` : successive numbers less than a bound apart;
* `PositionMap.forall_deltasFrom_lt_iff` : the deltas are below a bound if the columns of each line
  and the lines and columns of origins are that close;
* `PositionMap.deltas_lt_quarter_iff` : the same for a map that was read; `deltas_not_doubled` : a
  map that is read, with a delta that cannot be doubled.
-/

namespace Provenance

/-! ## What is written -/

namespace PositionMap

variable (sources names : List Text)

/-- The numbers that are written for mappings in generated order behind the totals. -/
def deltasFrom (t : Totals) : List Mapping → List Int
  | [] => []
  | m :: rest =>
    let written := (t.enter m.generated.line).advance sources names m
    written.1 ++ deltasFrom written.2 rest

def deltas (m : PositionMap) : List Int :=
  deltasFrom m.toSourceMap.sources m.toSourceMap.names {} m.ordered

theorem filter_separator (t : Totals) (started : Bool) (line : Nat) :
    (separator t started line).filter (fun c => c ≠ ';' && c ≠ ',') = [] := by
  rw [List.filter_eq_nil_iff]
  intro c hc
  unfold separator at hc
  split at hc
  · simp [List.eq_of_mem_replicate hc]
  · split at hc
    · simp [List.mem_singleton.1 hc]
    · simp at hc

/-- Separators apart, the mappings text spells the numbers in order. -/
theorem filter_segments (t : Totals) (started : Bool) (ms : List Mapping) :
    (segments sources names t started ms).filter (fun c => c ≠ ';' && c ≠ ',') =
      (deltasFrom sources names t ms).flatMap Vlq.encode := by
  induction ms generalizing t started with
  | nil => rfl
  | cons m rest ih =>
    have hkeep : ∀ vs : List Int, (vs.flatMap Vlq.encode).filter (fun c => c ≠ ';' && c ≠ ',') =
        vs.flatMap Vlq.encode := fun vs => by
      rw [List.filter_eq_self]
      intro c hc
      simpa using Vlq.not_separator_of_mem_flatMap_encode hc
    rw [segments_cons, List.filter_append, List.filter_append, filter_separator, hkeep, ih,
      List.nil_append, deltasFrom, List.flatMap_append]

end PositionMap

/-! ## Successive numbers -/

/-- Every number but the first is less than `bound` away from the one before it. -/
def Close (bound : Nat) (xs : List Int) : Prop := xs.IsChain fun a b => (b - a).natAbs < bound

namespace Mapping

/-- The column of a mapping on a line, as the writer has it. -/
def columnOn (line : Nat) (e : Mapping) : Option Int :=
  if e.generated.line = line then some (Word.signed e.generated.column) else none

def originLine (e : Mapping) : Option Int := e.origin.map fun o => Word.signed o.line - 1

def originColumn (e : Mapping) : Option Int := e.origin.map fun o => Word.signed o.column

end Mapping

theorem close_singleton (bound : Nat) (a : Int) : Close bound [a] := List.IsChain.singleton a

theorem close_filterMap_cons {bound : Nat} {f : Mapping → Option Int} {a : Int} {m : Mapping}
    {rest : List Mapping} :
    Close bound (a :: (m :: rest).filterMap f) ↔
      (∀ x, f m = some x → (x - a).natAbs < bound) ∧
        Close bound ((f m).getD a :: rest.filterMap f) := by
  cases h : f m with
  | none => simp [h]
  | some x => simp [h, Close]

theorem close_of_forall {bound : Nat} {xs : List Int}
    (h : ∀ a ∈ xs, ∀ b ∈ xs, (b - a).natAbs < bound) : Close bound xs :=
  (List.pairwise_of_forall_mem_list fun a ha b hb => h a ha b hb).isChain

/-! ## Writing numbers of any size -/

/-- The tables hold the source and the name of a mapping. -/
structure Mapping.Listed (sources names : List Text) (m : Mapping) : Prop where
  source : ∀ o, m.origin = some o → o.source ∈ sources
  name : ∀ o n, m.origin = some o → m.name = some n → n ∈ names

namespace Totals

/-- The indices among the totals of the writer are those of entries, or 0. -/
structure Indexed (t : Totals) : Prop where
  source : InRange t.source
  name : InRange t.name

theorem Indexed.enter {t : Totals} (h : t.Indexed) (line : Nat) : (t.enter line).Indexed := by
  unfold Totals.enter
  split
  · exact ⟨h.source, h.name⟩
  · exact h

theorem enter_origin (t : Totals) (line : Nat) :
    (t.enter line).originLine = t.originLine ∧ (t.enter line).originColumn = t.originColumn := by
  unfold Totals.enter
  split <;> exact ⟨rfl, rfl⟩

theorem natAbs_sub_lt_quarter {a b : Int} (ha : InRange a) (hb : InRange b) :
    (a - b).natAbs < Word.quarter := by
  unfold InRange at ha hb
  omega

theorem inRange_signed_idxOf {table : List Text} {x : Text} (hx : x ∈ table)
    (htable : table.length < Word.quarter) : InRange (Word.signed (table.idxOf x)) := by
  have hlt := Nat.lt_trans (List.idxOf_lt_length_of_mem hx) htable
  rw [Word.signed_of_lt_quarter hlt]
  exact inRange_natCast hlt

variable {bound : Nat} {t : Totals} {sources names : List Text} {m : Mapping}

/-- **One segment.** Its fields are below the bound if its column and the line and column of its
origin are that close to the totals. Indices are always close. -/
theorem forall_advance_lt_iff (hbound : Word.quarter ≤ bound) (ht : t.Indexed)
    (hm : m.Listed sources names) (hsources : sources.length < Word.quarter)
    (hnames : names.length < Word.quarter) :
    (∀ d ∈ (t.advance sources names m).1, d.natAbs < bound) ↔
      (Word.signed m.generated.column - t.column).natAbs < bound ∧
      (∀ x, m.originLine = some x → (x - t.originLine).natAbs < bound) ∧
      ∀ x, m.originColumn = some x → (x - t.originColumn).natAbs < bound := by
  obtain ⟨column, hc, ⟨ho, h⟩ | ⟨o, ho, source, line, originColumn, hs, hl, hk, h⟩⟩ :=
    advance_cases t sources names m
  · simp [h, hc, Mapping.originLine, Mapping.originColumn, ho]
  · have hsource : (Word.signed (sources.idxOf o.source) - t.source).natAbs < bound :=
      Nat.lt_of_lt_of_le (natAbs_sub_lt_quarter
        (inRange_signed_idxOf (hm.source o ho) hsources) ht.source) hbound
    rcases h with ⟨-, h⟩ | ⟨n, hn, name, hi, h⟩
    · simp [h, hc, hs, hl, hk, Mapping.originLine, Mapping.originColumn, ho, hsource]
    · have hname : (Word.signed (names.idxOf n) - t.name).natAbs < bound :=
        Nat.lt_of_lt_of_le (natAbs_sub_lt_quarter
          (inRange_signed_idxOf (hm.name o n ho hn) hnames) ht.name) hbound
      simp [h, hc, hs, hl, hk, hi, Mapping.originLine, Mapping.originColumn, ho, hsource, hname]

/-- The totals behind a segment are the numbers of its mapping, where it has them. -/
theorem advance_totals (t : Totals) (sources names : List Text) (m : Mapping) :
    (t.advance sources names m).2.column = Word.signed m.generated.column ∧
      (t.advance sources names m).2.originLine = m.originLine.getD t.originLine ∧
      (t.advance sources names m).2.originColumn = m.originColumn.getD t.originColumn := by
  obtain ⟨column, hc, ⟨ho, h⟩ | ⟨o, ho, source, line, originColumn, -, hl, hk, h⟩⟩ :=
    advance_cases t sources names m
  · rw [h, Mapping.originLine, Mapping.originColumn, ho]
    exact ⟨hc, rfl, rfl⟩
  · rw [Mapping.originLine, Mapping.originColumn, ho, Option.map_some, Option.map_some,
      Option.getD_some, Option.getD_some]
    rcases h with ⟨-, h⟩ | ⟨n, -, name, -, h⟩
    · rw [h]
      exact ⟨hc, hl, hk⟩
    · rw [h]
      exact ⟨hc, hl, hk⟩

theorem Indexed.advance (ht : t.Indexed) (hm : m.Listed sources names)
    (hsources : sources.length < Word.quarter) (hnames : names.length < Word.quarter) :
    (t.advance sources names m).2.Indexed := by
  obtain ⟨column, -, ⟨-, h⟩ | ⟨o, ho, source, line, originColumn, hs, -, -, h⟩⟩ :=
    advance_cases t sources names m
  · rw [h]
    exact ⟨ht.source, ht.name⟩
  · have hsource := inRange_signed_idxOf (hm.source o ho) hsources
    rw [← hs] at hsource
    rcases h with ⟨-, h⟩ | ⟨n, hn, name, hi, h⟩
    · rw [h]
      exact ⟨hsource, ht.name⟩
    · have hname := inRange_signed_idxOf (hm.name o n ho hn) hnames
      rw [← hi] at hname
      rw [h]
      exact ⟨hsource, hname⟩

end Totals

namespace PositionMap

variable {bound : Nat} {sources names : List Text}

/-- The columns of the lines from that of the first mapping on: nothing precedes the columns of a
later line, and those of the first go on from its mapping. -/
theorem close_columns_cons {t next : Totals} {m : Mapping} {rest : List Mapping}
    (hle : t.line ≤ m.generated.line) (hrest : ∀ e ∈ rest, m.generated.line ≤ e.generated.line)
    (hline : next.line = m.generated.line)
    (hcolumn : next.column = Word.signed m.generated.column) :
    (∀ line, Close bound ((t.enter line).column :: (m :: rest).filterMap (Mapping.columnOn line))) ↔
      (Word.signed m.generated.column - (t.enter m.generated.line).column).natAbs < bound ∧
        ∀ line,
          Close bound ((next.enter line).column :: rest.filterMap (Mapping.columnOn line)) := by
  have hafter : ∀ line, Close bound
      ((m.columnOn line).getD (t.enter line).column :: rest.filterMap (Mapping.columnOn line)) ↔
      Close bound ((next.enter line).column :: rest.filterMap (Mapping.columnOn line)) := by
    intro line
    rcases Nat.lt_trichotomy line m.generated.line with hlt | rfl | hlt
    · have hnone : rest.filterMap (Mapping.columnOn line) = [] := by
        rw [List.filterMap_eq_nil_iff]
        intro e he
        have := hrest e he
        exact if_neg (by omega)
      rw [hnone]
      exact iff_of_true (close_singleton _ _) (close_singleton _ _)
    · have hsame : next.enter m.generated.line = next := by
        unfold Totals.enter
        rw [if_neg (by omega)]
      rw [hsame, hcolumn, Mapping.columnOn, if_pos rfl, Option.getD_some]
    · have hzero : (t.enter line).column = 0 ∧ (next.enter line).column = 0 := by
        unfold Totals.enter
        rw [if_pos (by omega), if_pos (by omega)]
        exact ⟨rfl, rfl⟩
      rw [Mapping.columnOn, if_neg (by omega), Option.getD_none, hzero.1, hzero.2]
  simp only [close_filterMap_cons, hafter, forall_and]
  refine and_congr_left fun _ => ⟨fun h => h _ _ (if_pos rfl), fun h line x hx => ?_⟩
  unfold Mapping.columnOn at hx
  split at hx
  · next heq =>
    obtain rfl := Option.some.inj hx
    rwa [← heq]
  · simp at hx

/-- **A whole text.** All numbers that are written are below the bound if successive columns of each
line, and successive lines and columns of origins, are that close. -/
theorem forall_deltasFrom_lt_iff (hbound : Word.quarter ≤ bound)
    (hsources : sources.length < Word.quarter) (hnames : names.length < Word.quarter)
    {ms : List Mapping} {t : Totals} (ht : t.Indexed)
    (hms : ms.Pairwise fun a b => a.generated.line ≤ b.generated.line)
    (hle : ∀ e ∈ ms, t.line ≤ e.generated.line) (hlisted : ∀ e ∈ ms, e.Listed sources names) :
    (∀ d ∈ deltasFrom sources names t ms, d.natAbs < bound) ↔
      (∀ line, Close bound ((t.enter line).column :: ms.filterMap (Mapping.columnOn line))) ∧
      Close bound (t.originLine :: ms.filterMap Mapping.originLine) ∧
      Close bound (t.originColumn :: ms.filterMap Mapping.originColumn) := by
  induction ms generalizing t with
  | nil => simp [deltasFrom, close_singleton]
  | cons m rest ih =>
    rw [List.pairwise_cons] at hms
    rw [List.forall_mem_cons] at hle hlisted
    obtain ⟨hcolumn, hline, horiginColumn⟩ :=
      (t.enter m.generated.line).advance_totals sources names m
    have hnext :
        ((t.enter m.generated.line).advance sources names m).2.line = m.generated.line := by
      rw [Totals.advance_line, Totals.enter_line hle.1]
    have henter := ht.enter m.generated.line
    have hafter : ∀ e ∈ rest,
        ((t.enter m.generated.line).advance sources names m).2.line ≤ e.generated.line := by
      rw [hnext]
      exact hms.1
    rw [deltasFrom, List.forall_mem_append,
      Totals.forall_advance_lt_iff hbound henter hlisted.1 hsources hnames,
      ih (henter.advance hlisted.1 hsources hnames) hms.2 hafter hlisted.2,
      close_columns_cons hle.1 hms.1 hnext hcolumn, close_filterMap_cons, close_filterMap_cons,
      hline, horiginColumn, (t.enter_origin _).1, (t.enter_origin _).2]
    exact ⟨fun ⟨⟨a₁, a₂, a₃⟩, b₁, b₂, b₃⟩ => ⟨⟨a₁, b₁⟩, ⟨a₂, b₂⟩, a₃, b₃⟩,
      fun ⟨⟨a₁, b₁⟩, ⟨a₂, b₂⟩, a₃, b₃⟩ => ⟨⟨a₁, a₂, a₃⟩, b₁, b₂, b₃⟩⟩

/-- The deltas of a map are below a bound if its numbers are that close, as the writer has them. -/
theorem forall_deltas_lt_iff (hbound : Word.quarter ≤ bound) {m : PositionMap}
    (hlines : ∀ e ∈ m.mappings, 1 ≤ e.generated.line) (hcount : m.mappings.length < Word.quarter) :
    (∀ d ∈ m.deltas, d.natAbs < bound) ↔
      (∀ line, Close bound (0 :: m.ordered.filterMap (Mapping.columnOn line))) ∧
      Close bound (0 :: m.ordered.filterMap Mapping.originLine) ∧
      Close bound (0 :: m.ordered.filterMap Mapping.originColumn) := by
  have hordered : m.ordered.length < Word.quarter := m.length_ordered ▸ hcount
  have hlisted : ∀ e ∈ m.ordered, e.Listed m.toSourceMap.sources m.toSourceMap.names := by
    refine fun e he => ⟨fun o ho => mem_table he ?_, fun o n ho hn => mem_table he ?_⟩
    · rw [ho, Option.map_some]
    · rw [ho, Option.bind_some, hn]
  have h := forall_deltasFrom_lt_iff hbound (length_table_lt hordered) (length_table_lt hordered)
    ⟨Totals.inRange_zero, Totals.inRange_zero⟩ m.pairwise_line_ordered
    (fun e he => hlines e (m.mem_ordered.1 he)) hlisted (t := {})
  simp only [Totals.enter_column_eq_zero (t := {}) rfl] at h
  exact h

end PositionMap

/-! ## Maps that were read -/

/-- What is read has columns that fit into a word with a sign, and lines that are at most one more
than such a word. -/
theorem Totals.Admits.mapping_le {sources names : List Text} {n : Nat} {t : Totals}
    (h : t.Admits sources names n) :
    (t.mapping sources names n).generated.column < Word.half ∧
      ∀ o, (t.mapping sources names n).origin = some o →
        1 ≤ o.line ∧ o.line ≤ Word.half ∧ o.column < Word.half := by
  have hnat : ∀ i, Word.IsSigned i ∧ 0 ≤ i → i.toNat < Word.half := by
    rintro i ⟨⟨-, hlt⟩, hpos⟩
    omega
  refine ⟨hnat _ h.column, fun o ho => ?_⟩
  unfold mapping at ho
  split at ho
  · next hn =>
    obtain ⟨path, -, rfl⟩ := Option.map_eq_some_iff.1 ho
    exact ⟨Nat.le_add_left 1 _, hnat _ (h.originLine hn), hnat _ (h.originColumn hn)⟩
  · simp at ho

/-- In a list of lines from 1 to `Word.half`, of which only the last does not fit into a word with a
sign, those that the writer has are close if all fit and are close themselves. -/
theorem close_signed_lines_iff {bound : Nat} (hbound : bound ≤ Word.half) {os : List Origin}
    {a : Int} (ha : 0 ≤ a) (hos : ∀ o ∈ os, 1 ≤ o.line ∧ o.line ≤ Word.half) :
    Close bound (a :: os.map fun o => Word.signed o.line - 1) ↔
      (∀ o ∈ os, o.line < Word.half) ∧ Close bound (a :: os.map fun o => (o.line : Int) - 1) := by
  induction os generalizing a with
  | nil => simp
  | cons o os ih =>
    rw [List.forall_mem_cons] at hos
    rw [List.map_cons, List.map_cons, Close, Close, List.isChain_cons_cons,
      List.isChain_cons_cons, ← Close, ← Close, List.forall_mem_cons]
    by_cases hfits : o.line < Word.half
    · rw [Word.signed_of_lt_half hfits, ih (by omega) hos.2]
      simp only [hfits, true_and]
      exact and_left_comm
    · have hline : o.line = Word.half := Nat.le_antisymm hos.1.2 (Nat.not_lt.1 hfits)
      have hsigned : Word.signed Word.half = -Word.half := by decide
      refine iff_of_false (fun h => ?_) fun h => hfits h.1.1
      have hfar := h.1
      rw [hline, hsigned] at hfar
      omega

namespace PositionMap

variable {s : SourceMap} {m : PositionMap}

theorem mapping_le_of_ofSourceMap (h : ofSourceMap s = .ok m) {e : Mapping} (he : e ∈ m.mappings) :
    e.generated.column < Word.half ∧
      ∀ o, e.origin = some o → 1 ≤ o.line ∧ o.line ≤ Word.half ∧ o.column < Word.half := by
  obtain ⟨t, n, hadmits, rfl⟩ :=
    exists_admits_of_mem_readSegments (readSegments_of_ofSourceMap h) he
  exact hadmits.mapping_le

theorem origin_le_of_ofSourceMap (h : ofSourceMap s = .ok m) {o : Origin}
    (ho : o ∈ m.ordered.filterMap Mapping.origin) :
    1 ≤ o.line ∧ o.line ≤ Word.half ∧ o.column < Word.half := by
  obtain ⟨e, he, heo⟩ := List.mem_filterMap.1 ho
  exact (mapping_le_of_ofSourceMap h (m.mem_ordered.1 he)).2 o heo

/-- The deltas of a map that was read are below a bound if its numbers are that close. -/
theorem forall_deltas_lt_iff_of_ofSourceMap {bound : Nat} (hlow : Word.quarter ≤ bound)
    (hhigh : bound ≤ Word.half) (h : ofSourceMap s = .ok m)
    (hcount : m.mappings.length < Word.quarter) :
    let origins := m.ordered.filterMap Mapping.origin
    (∀ d ∈ m.deltas, d.natAbs < bound) ↔
      (∀ line, Close bound (0 :: (m.ordered.filter fun e => e.generated.line = line).map
        fun e => (e.generated.column : Int))) ∧
      ((∀ o ∈ origins, o.line < Word.half) ∧
        Close bound (0 :: origins.map fun o => (o.line : Int) - 1)) ∧
      Close bound (0 :: origins.map fun o => (o.column : Int)) := by
  intro origins
  have hcolumns : ∀ line, m.ordered.filterMap (Mapping.columnOn line) =
      (m.ordered.filter fun e => e.generated.line = line).map
        fun e => (e.generated.column : Int) := by
    intro line
    rw [← List.filterMap_eq_map', List.filterMap_filter]
    refine List.filterMap_congr fun e he => ?_
    have hfits := (mapping_le_of_ofSourceMap h (m.mem_ordered.1 he)).1
    rw [Mapping.columnOn, Word.signed_of_lt_half hfits]
    simp
  have hlines : m.ordered.filterMap Mapping.originLine =
      origins.map fun o => Word.signed o.line - 1 := List.map_filterMap.symm
  have horiginColumns : m.ordered.filterMap Mapping.originColumn =
      origins.map fun o => (o.column : Int) := by
    have hwritten : m.ordered.filterMap Mapping.originColumn =
        origins.map fun o => Word.signed o.column := List.map_filterMap.symm
    rw [hwritten]
    refine List.map_congr_left fun o ho => ?_
    rw [Word.signed_of_lt_half (origin_le_of_ofSourceMap h ho).2.2]
  rw [forall_deltas_lt_iff hlow (fun _ => one_le_line_of_ofSourceMap h) hcount, hlines,
    horiginColumns, close_signed_lines_iff hhigh (Int.le_refl 0) fun o ho => ?_]
  · simp only [hcolumns]
  · obtain ⟨h₁, h₂, -⟩ := origin_le_of_ofSourceMap h ho
    exact ⟨h₁, h₂⟩

/-- Where every line fits into a word with a sign, so does every delta. -/
theorem natAbs_delta_lt_half (h : ofSourceMap s = .ok m) (hcount : m.mappings.length < Word.quarter)
    (hlines : ∀ o ∈ m.ordered.filterMap Mapping.origin, o.line < Word.half) {d : Int}
    (hd : d ∈ m.deltas) : d.natAbs < Word.half := by
  have hclose : ∀ xs : List Int, (∀ x ∈ xs, 0 ≤ x ∧ x < Word.half) → Close Word.half (0 :: xs) := by
    intro xs hxs
    have hall : ∀ x ∈ 0 :: xs, 0 ≤ x ∧ x < Word.half :=
      List.forall_mem_cons.2 ⟨⟨Int.le_refl 0, by decide⟩, hxs⟩
    refine close_of_forall fun a ha b hb => ?_
    have := hall a ha
    have := hall b hb
    omega
  refine (forall_deltas_lt_iff_of_ofSourceMap (by decide) (Nat.le_refl _) h hcount).2
    ⟨fun line => hclose _ ?_, ⟨hlines, hclose _ ?_⟩, hclose _ ?_⟩ d hd
  · intro x hx
    obtain ⟨e, he, rfl⟩ := List.mem_map.1 hx
    have := (mapping_le_of_ofSourceMap h (m.mem_ordered.1 (List.mem_filter.1 he).1)).1
    omega
  · intro x hx
    obtain ⟨o, ho, rfl⟩ := List.mem_map.1 hx
    have := (origin_le_of_ofSourceMap h ho).1
    have := hlines o ho
    omega
  · intro x hx
    obtain ⟨o, ho, rfl⟩ := List.mem_map.1 hx
    have := (origin_le_of_ofSourceMap h ho).2.2
    omega

/-- **When a map that was read can be written.** Its mappings text spells the deltas. They fit into
a word with a sign, unless a line does not, but they are only below `Word.quarter`, so that they can
be doubled, if successive columns of each line, and successive lines and columns of origins, are
less than that apart. -/
theorem deltas_lt_quarter_iff (h : ofSourceMap s = .ok m)
    (hcount : m.mappings.length < Word.quarter) :
    let origins := m.ordered.filterMap Mapping.origin
    m.toSourceMap.mappings.filter (fun c => c ≠ ';' && c ≠ ',') = m.deltas.flatMap Vlq.encode ∧
      ((∀ o ∈ origins, o.line < Word.half) → ∀ d ∈ m.deltas, d.natAbs < Word.half) ∧
      ((∀ d ∈ m.deltas, d.natAbs < Word.quarter) ↔
        (∀ line, Close Word.quarter (0 :: (m.ordered.filter fun e => e.generated.line = line).map
          fun e => (e.generated.column : Int))) ∧
        ((∀ o ∈ origins, o.line < Word.half) ∧
          Close Word.quarter (0 :: origins.map fun o => (o.line : Int) - 1)) ∧
        Close Word.quarter (0 :: origins.map fun o => (o.column : Int))) :=
  ⟨filter_segments _ _ _ _ _, fun hlines _ => natAbs_delta_lt_half h hcount hlines,
    forall_deltas_lt_iff_of_ofSourceMap (Nat.le_refl _) (by decide) h hcount⟩

/-- Two columns, the second of which is `2 ^ 62` but close to the first. -/
theorem deltas_lt_quarter_of_close :
    let s : SourceMap := ⟨3, none, none, [], none, [], "+///////////H,C".toList⟩
    let m : PositionMap :=
      ⟨none, none, [⟨⟨1, 4611686018427387903⟩, none, none⟩, ⟨⟨1, 4611686018427387904⟩, none, none⟩]⟩
    ofSourceMap s = .ok m ∧ ∀ d ∈ m.deltas, d.natAbs < Word.quarter := by
  intro s m
  have h : ofSourceMap s = .ok m := by decide
  have hordered : m.ordered = m.mappings := ordered_eq_of_pairwise (by decide)
  refine ⟨h, (deltas_lt_quarter_iff h (by decide)).2.2.2 ?_⟩
  rw [hordered]
  refine ⟨fun line => ?_, ⟨by decide, close_singleton _ _⟩, close_singleton _ _⟩
  by_cases hline : line = 1
  · subst hline
    unfold Close
    decide
  · have hnone : (m.mappings.filter fun e => e.generated.line = line) = [] := by
      simp [m, Ne.symm hline]
    rw [hnone]
    exact close_singleton _ _

/-- A column of `2 ^ 62` is read, and writing it would need its double. -/
theorem deltas_not_doubled :
    let s : SourceMap := ⟨3, none, none, [], none, [], "ggggggggggggI".toList⟩
    ∃ m, ofSourceMap s = .ok m ∧
      ∃ d ∈ m.deltas, ¬d.natAbs < Word.quarter ∧ ¬Word.IsSigned (2 * d) := by
  refine ⟨⟨none, none, [⟨⟨1, 4611686018427387904⟩, none, none⟩]⟩, by decide,
    4611686018427387904, ?_⟩
  rw [deltas, ordered_eq_of_pairwise (by simp)]
  decide

end PositionMap

end Provenance
