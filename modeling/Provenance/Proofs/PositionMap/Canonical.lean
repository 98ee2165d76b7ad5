import Mathlib.Data.List.Induction
import Mathlib.Data.List.Nodup
import Provenance.Proofs.PositionMap.RoundTrip

/-!
# The text of a map is canonical

* `ListsFirsts` : a table that lists the entries of a list, each once, in the order in which they
  appear first; `listsFirsts_eraseDups` : such tables are written;
* `PositionMap.writeInterning_eq` : the tables may as well grow while the mappings are written;
* `PositionMap.Filled` : a mappings text none of whose segments is empty;
  `PositionMap.filled_segments`, `PositionMap.getLast?_segments_ne` : what stands between separators
  and at the end;
* `PositionMap.toSourceMap_readBack` : the document is a function of what can be read from it;
  `PositionMap.toSourceMap_canonical` : all of this for a whole map.
-/

namespace Provenance

/-! ## The tables -/

/-- `table` lists the entries of `ts`, each once, in the order in which they appear first. -/
structure ListsFirsts (table ts : List Text) : Prop where
  nodup : table.Nodup
  mem_iff : ∀ t, t ∈ table ↔ t ∈ ts
  ordered : table.Pairwise fun a b => ts.idxOf a < ts.idxOf b

theorem eraseDups_concat (ts : List Text) (t : Text) :
    (ts ++ [t]).eraseDups = if t ∈ ts then ts.eraseDups else ts.eraseDups ++ [t] := by
  rw [List.eraseDups_append, List.removeAll]
  split
  · next h => simp [h]
  · next h => simp [h, List.eraseDups_cons]

theorem ListsFirsts.concat {table ts : List Text} (h : ListsFirsts table ts) (t : Text) :
    ListsFirsts (if t ∈ ts then table else table ++ [t]) (ts ++ [t]) := by
  have hordered : table.Pairwise fun a b => (ts ++ [t]).idxOf a < (ts ++ [t]).idxOf b := by
    refine h.ordered.imp_of_mem fun ha hb hab => ?_
    rwa [List.idxOf_append_of_mem ((h.mem_iff _).1 ha),
      List.idxOf_append_of_mem ((h.mem_iff _).1 hb)]
  split
  · next ht =>
    refine ⟨h.nodup, fun u => ?_, hordered⟩
    rw [h.mem_iff, List.mem_append, List.mem_singleton]
    exact ⟨Or.inl, fun hu => hu.elim id fun hu => hu ▸ ht⟩
  · next ht =>
    refine ⟨List.nodup_append.2 ⟨h.nodup, List.nodup_singleton t, ?_⟩, fun u => ?_,
      List.pairwise_append.2 ⟨hordered, List.pairwise_singleton _ t, ?_⟩⟩
    · rintro a ha b hb rfl
      exact ht ((h.mem_iff _).1 (List.mem_singleton.1 hb ▸ ha))
    · rw [List.mem_append, List.mem_append, h.mem_iff]
    · intro a ha b hb
      obtain rfl := List.mem_singleton.1 hb
      have hmem := (h.mem_iff a).1 ha
      rw [List.idxOf_append_of_mem hmem, List.idxOf_append_of_notMem ht]
      exact Nat.lt_of_lt_of_le (List.idxOf_lt_length_of_mem hmem) (Nat.le_add_right _ _)

theorem listsFirsts_eraseDups (ts : List Text) : ListsFirsts ts.eraseDups ts := by
  induction ts using List.reverseRecOn with
  | nil => exact ⟨List.nodup_nil, fun _ => Iff.rfl, List.Pairwise.nil⟩
  | append_singleton ts t ih =>
    rw [eraseDups_concat]
    exact ih.concat t

/-! ## Tables that grow along the way -/

/-- A table with a text in it, which is put at its end unless the table has it. -/
def intern (table : List Text) : Option Text → List Text
  | none => table
  | some t => if t ∈ table then table else table ++ [t]

section Interning

variable {f : Mapping → Option Text}

theorem intern_eraseDups (f : Mapping → Option Text) (ms : List Mapping) (m : Mapping) :
    intern (ms.filterMap f).eraseDups (f m) = ((ms ++ [m]).filterMap f).eraseDups := by
  rw [List.filterMap_append]
  cases hm : f m with
  | none => simp [hm, intern]
  | some t => simp [hm, intern, eraseDups_concat]

/-- The index of a text in the table so far is its index in the table at the end. -/
theorem idxOf_eraseDups_concat {m : Mapping} {t : Text} (hm : f m = some t)
    (before after : List Mapping) :
    ((before ++ [m]).filterMap f).eraseDups.idxOf t =
      ((before ++ m :: after).filterMap f).eraseDups.idxOf t := by
  have hmem : t ∈ ((before ++ [m]).filterMap f).eraseDups :=
    List.mem_eraseDups.2 (List.mem_filterMap.2 ⟨m, by simp, hm⟩)
  have hall : (before ++ m :: after).filterMap f =
      (before ++ [m]).filterMap f ++ after.filterMap f := by
    rw [List.append_cons, List.filterMap_append]
  rw [hall, List.eraseDups_append, List.idxOf_append_of_mem hmem]

end Interning

namespace PositionMap

def sourceTable (ms : List Mapping) : List Text :=
  (ms.filterMap fun e => e.origin.map Origin.source).eraseDups

/-- The names that are written for mappings, in order of first appearance. -/
def nameTable (ms : List Mapping) : List Text :=
  (ms.filterMap fun e => e.origin.bind fun _ => e.name).eraseDups

theorem advance_tables_concat (t : Totals) (before after : List Mapping) (m : Mapping) :
    t.advance (sourceTable (before ++ [m])) (nameTable (before ++ [m])) m =
      t.advance (sourceTable (before ++ m :: after)) (nameTable (before ++ m :: after)) m := by
  unfold Totals.advance
  cases ho : m.origin with
  | none => rfl
  | some o =>
    have hsource := idxOf_eraseDups_concat (f := fun e => e.origin.map Origin.source)
      (t := o.source) (by rw [ho, Option.map_some]) before after
    cases hn : m.name with
    | none => simp only [sourceTable, hsource]
    | some n =>
      have hname := idxOf_eraseDups_concat (f := fun e => e.origin.bind fun _ => e.name)
        (t := n) (by rw [ho, Option.bind_some, hn]) before after
      simp only [sourceTable, nameTable, hsource, hname]

/-- Writes mappings in one pass. Each adds its source and its name to the tables before it is
written. -/
def writeInterning (sources names : List Text) (t : Totals) (started : Bool) :
    List Mapping → List Text × List Text × Text
  | [] => (sources, names, [])
  | m :: rest =>
    let sources := intern sources (m.origin.map Origin.source)
    let names := intern names (m.origin.bind fun _ => m.name)
    let (fields, next) := (t.enter m.generated.line).advance sources names m
    let (allSources, allNames, text) := writeInterning sources names next true rest
    (allSources, allNames,
      separator t started m.generated.line ++ fields.flatMap Vlq.encode ++ text)

theorem writeInterning_tables (before : List Mapping) (t : Totals) (started : Bool)
    (ms : List Mapping) :
    writeInterning (sourceTable before) (nameTable before) t started ms =
      (sourceTable (before ++ ms), nameTable (before ++ ms),
        segments (sourceTable (before ++ ms)) (nameTable (before ++ ms)) t started ms) := by
  induction ms generalizing before t started with
  | nil => rw [List.append_nil, writeInterning, segments]
  | cons m rest ih =>
    have hsources : intern (sourceTable before) (m.origin.map Origin.source) =
        sourceTable (before ++ [m]) :=
      intern_eraseDups (fun e => e.origin.map Origin.source) before m
    have hnames : intern (nameTable before) (m.origin.bind fun _ => m.name) =
        nameTable (before ++ [m]) :=
      intern_eraseDups (fun e => e.origin.bind fun _ => e.name) before m
    have hrest := ih (before ++ [m])
    rw [List.append_assoc, List.singleton_append] at hrest
    simp only [writeInterning, hsources, hnames]
    rw [advance_tables_concat _ before rest, hrest, segments_cons, List.append_assoc]

/-- Tables that grow while the mappings are written come to the same document. -/
theorem writeInterning_eq (m : PositionMap) :
    writeInterning [] [] {} false m.ordered =
      (m.toSourceMap.sources, m.toSourceMap.names, m.toSourceMap.mappings) :=
  writeInterning_tables [] {} false m.ordered

/-! ## The mappings text -/

/-- Of the lines of a text, those that are not empty have no empty segment. -/
def Filled (t : Text) : Prop := ∀ line ∈ t.splitOn ';', line ≠ [] → [] ∉ line.splitOn ','

instance (t : Text) : Decidable (Filled t) :=
  inferInstanceAs (Decidable (∀ line ∈ t.splitOn ';', line ≠ [] → [] ∉ line.splitOn ','))

structure IsSegment (w : Text) : Prop where
  ne_nil : w ≠ []
  not_separator : ∀ c ∈ w, c ≠ ';' ∧ c ≠ ','

section Filled

variable {w w' u : Text}

theorem IsSegment.semicolon_notMem (h : IsSegment w) : ';' ∉ w := fun hw =>
  (h.not_separator _ hw).1 rfl

theorem IsSegment.comma_notMem (h : IsSegment w) : ',' ∉ w := fun hw =>
  (h.not_separator _ hw).2 rfl

theorem filled_nil : Filled [] := by decide

theorem filled_of_isSegment (h : IsSegment w) : Filled w := by
  rw [Filled, List.splitOn_eq_singleton h.semicolon_notMem]
  intro line hline _
  rw [List.mem_singleton.1 hline, List.splitOn_eq_singleton h.comma_notMem, List.mem_singleton]
  exact h.ne_nil.symm

theorem filled_semicolons (hu : Filled u) (k : Nat) : Filled (List.replicate k ';' ++ u) := by
  induction k with
  | zero => exact hu
  | succ k ih =>
    rw [List.replicate_succ, List.cons_append, Filled, List.splitOn_cons_eq_if_modifyHead,
      if_pos (by rfl), List.forall_mem_cons]
    exact ⟨fun h => absurd rfl h, ih⟩

theorem filled_append_semicolon (h : IsSegment w) (hu : Filled u) : Filled (w ++ ';' :: u) := by
  rw [Filled, List.splitOn_append_cons_self_of_not_mem h.semicolon_notMem, List.forall_mem_cons]
  refine ⟨fun _ => ?_, hu⟩
  rw [List.splitOn_eq_singleton h.comma_notMem, List.mem_singleton]
  exact h.ne_nil.symm

theorem filled_append_comma (h : IsSegment w) (h' : IsSegment w') (hu : Filled (w' ++ u)) :
    Filled (w ++ ',' :: (w' ++ u)) := by
  obtain ⟨line, lines, hlines⟩ := List.exists_cons_of_ne_nil (List.splitOn_ne_nil ';' u)
  have hsplit : (w' ++ u).splitOn ';' = (w' ++ line) :: lines := by
    rw [Text.splitOn_append_of_not_mem h'.semicolon_notMem, hlines, List.modifyHead_cons]
  have hfirst : (w ++ ',' :: (w' ++ u)).splitOn ';' = (w ++ ',' :: (w' ++ line)) :: lines := by
    rw [Text.splitOn_append_of_not_mem h.semicolon_notMem, List.splitOn_cons_eq_if_modifyHead,
      if_neg (by decide), hsplit, List.modifyHead_cons, List.modifyHead_cons]
  rw [Filled, hsplit, List.forall_mem_cons] at hu
  rw [Filled, hfirst, List.forall_mem_cons]
  refine ⟨fun _ => ?_, hu.2⟩
  rw [List.splitOn_append_cons_self_of_not_mem h.comma_notMem, List.mem_cons, not_or]
  exact ⟨h.ne_nil.symm, hu.1 (List.append_ne_nil_of_left_ne_nil h'.ne_nil _)⟩

end Filled

variable (sources names : List Text)

theorem isSegment_advance (t : Totals) (m : Mapping) :
    IsSegment ((t.advance sources names m).1.flatMap Vlq.encode) :=
  ⟨Vlq.flatMap_encode_ne_nil (Totals.advance_ne_nil _ _ _ _),
    fun _ => Vlq.not_separator_of_mem_flatMap_encode⟩

/-- Behind a segment, a separator stands before the next one only. -/
theorem filled_append_segments {w : Text} (h : IsSegment w) (t : Totals) (ms : List Mapping) :
    Filled (w ++ segments sources names t true ms) := by
  induction ms generalizing w t with
  | nil =>
    rw [segments, List.append_nil]
    exact filled_of_isSegment h
  | cons m rest ih =>
    have hnext := isSegment_advance sources names (t.enter m.generated.line) m
    have hrest := ih hnext ((t.enter m.generated.line).advance sources names m).2
    rw [segments_cons, separator]
    split
    · next hline =>
      obtain ⟨k, hk⟩ := Nat.exists_eq_add_of_lt hline
      have hlines : m.generated.line - t.line = k + 1 := by omega
      rw [hlines, List.replicate_succ, List.cons_append]
      exact filled_append_semicolon h (filled_semicolons hrest k)
    · rw [if_pos rfl, List.singleton_append]
      exact filled_append_comma h hnext hrest

theorem filled_segments (t : Totals) (ms : List Mapping) :
    Filled (segments sources names t false ms) := by
  cases ms with
  | nil => exact filled_nil
  | cons m rest =>
    have hrest := filled_append_segments sources names
      (isSegment_advance sources names (t.enter m.generated.line) m)
      ((t.enter m.generated.line).advance sources names m).2 rest
    rw [segments_cons, separator]
    split
    · exact filled_semicolons hrest _
    · exact hrest

theorem getLast?_segments_ne (t : Totals) (started : Bool) (ms : List Mapping) :
    (segments sources names t started ms).getLast? ≠ some ';' := by
  induction ms generalizing t started with
  | nil => exact nofun
  | cons m rest ih =>
    have hw := isSegment_advance sources names (t.enter m.generated.line) m
    rw [segments_cons, List.getLast?_append, List.getLast?_append,
      List.getLast?_eq_some_getLast hw.ne_nil]
    cases hlast : (segments sources names ((t.enter m.generated.line).advance sources names m).2
      true rest).getLast? with
    | none => simpa using (hw.not_separator _ (List.getLast_mem hw.ne_nil)).1
    | some c => exact fun hc => ih _ _ (hlast.trans hc)

/-! ## Writing what was read -/

theorem advance_written (t : Totals) (m : Mapping) :
    t.advance sources names m.written = t.advance sources names m := by
  unfold Totals.advance Mapping.written
  cases m.origin <;> rfl

theorem segments_map_written (t : Totals) (started : Bool) (ms : List Mapping) :
    segments sources names t started (ms.map Mapping.written) =
      segments sources names t started ms := by
  induction ms generalizing t started with
  | nil => rfl
  | cons m rest ih =>
    have hline : m.written.generated = m.generated := rfl
    rw [List.map_cons, segments_cons, segments_cons, hline, advance_written, ih]

/-- Order and lost names leave no trace in the document. -/
theorem toSourceMap_readBack (m : PositionMap) : m.readBack.toSourceMap = m.toSourceMap := by
  have hsources : (m.ordered.map Mapping.written).filterMap (fun e => e.origin.map Origin.source) =
      m.ordered.filterMap fun e => e.origin.map Origin.source := by
    rw [List.filterMap_map]
    rfl
  have hnames : (m.ordered.map Mapping.written).filterMap (fun e => e.origin.bind fun _ => e.name) =
      m.ordered.filterMap fun e => e.origin.bind fun _ => e.name := by
    rw [List.filterMap_map]
    refine congrArg (List.filterMap · m.ordered) (funext fun e => ?_)
    cases e with
    | mk _ origin _ => cases origin <;> rfl
  simp only [toSourceMap]
  rw [ordered_readBack, hsources, hnames, segments_map_written]
  rfl

/-- **The document is canonical.** Its tables list the sources and the names of the mappings in
generated order, each once, in order of first appearance; its mappings text has no empty segment and
no line behind the last segment; and the map that is read from its text, with these mappings in that
order, has the same text. -/
theorem toSourceMap_canonical {m : PositionMap} (h : m.Writable) :
    ∃ sorted, StablySorted sorted m.mappings ∧
      ListsFirsts m.toSourceMap.sources (sorted.filterMap fun e => e.origin.map Origin.source) ∧
      ListsFirsts m.toSourceMap.names (sorted.filterMap fun e => e.origin.bind fun _ => e.name) ∧
      Filled m.toSourceMap.mappings ∧ m.toSourceMap.mappings.getLast? ≠ some ';' ∧
      ∃ m', ofText m.toText = .ok m' ∧ m'.mappings = sorted.map Mapping.written ∧
        m'.toText = m.toText := by
  refine ⟨m.ordered, m.stablySorted_ordered, listsFirsts_eraseDups _, listsFirsts_eraseDups _,
    filled_segments _ _ _ _, getLast?_segments_ne _ _ _ _ _, m.readBack, ofText_toText_eq h, rfl,
    ?_⟩
  rw [toText, toSourceMap_readBack, toText]

/-- Sources that appear in another order than they were recorded, two mappings at one position, a
name without an origin and a skipped line. -/
theorem toSourceMap_canonical_mixed :
    let m : PositionMap := ⟨some ['o'], none,
      [⟨⟨4, 2⟩, some ⟨['b'], 1, 0⟩, some ['n']⟩, ⟨⟨1, 0⟩, none, some ['x']⟩,
        ⟨⟨4, 2⟩, some ⟨['a'], 7, 3⟩, none⟩, ⟨⟨2, 0⟩, some ⟨['a'], 1, 0⟩, none⟩]⟩
    ∃ sorted, StablySorted sorted m.mappings ∧
      ListsFirsts m.toSourceMap.sources (sorted.filterMap fun e => e.origin.map Origin.source) ∧
      ListsFirsts m.toSourceMap.names (sorted.filterMap fun e => e.origin.bind fun _ => e.name) ∧
      Filled m.toSourceMap.mappings ∧ m.toSourceMap.mappings.getLast? ≠ some ';' ∧
      ∃ m', ofText m.toText = .ok m' ∧ m'.mappings = sorted.map Mapping.written ∧
        m'.toText = m.toText :=
  toSourceMap_canonical (by decide)

end PositionMap

end Provenance
