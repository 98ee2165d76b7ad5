import Provenance.PositionMap.Basic

/-!
# Looking up mappings

Looking up by generated position goes through a sorted copy of the mappings. What it finds is said
here of the mappings as they were recorded, so that recording more of them can be followed.

* `StablySorted` : a list in generated order in which mappings at one position keep their order;
  `PositionMap.stablySorted_ordered` : the order in which a map looks things up is such a list;
* `Mapping.Governs` : the last of the recorded mappings at the greatest position that does not come
  after the one asked for, on the same line; `PositionMap.mappingFor_eq_some_iff` : this is what
  the look-up finds;
* `Mapping.reaching`, `Mapping.rightmost` : the mappings on the line of a position that are not
  behind it, and those at the greatest column of them; `PositionMap.mappingFor_rightmost` : what
  the look-up finds, computed from these.
-/

namespace Provenance

namespace Position

theorem eq_of_line_of_column {a b : Position} (hl : a.line = b.line) (hc : a.column = b.column) :
    a = b := by
  obtain ⟨al, ac⟩ := a
  obtain ⟨rfl, rfl⟩ : al = b.line ∧ ac = b.column := ⟨hl, hc⟩
  rfl

theorem le_antisymm {a b : Position} (h : a ≤ b) (k : b ≤ a) : a = b := by
  rw [le_iff] at h k
  exact eq_of_line_of_column (by omega) (by omega)

theorem lt_of_lt_of_le {a b c : Position} (h : a < b) (k : b ≤ c) : a < c := by
  rw [le_iff] at k
  rw [lt_iff] at *
  omega

theorem le_of_lt {a b : Position} (h : a < b) : a ≤ b := by
  rw [lt_iff] at h
  rw [le_iff]
  omega

theorem not_lt {a b : Position} : ¬a < b ↔ b ≤ a := by
  simp only [le_iff, lt_iff]
  omega

theorem lt_of_le_of_ne {a b : Position} (h : a ≤ b) (hne : a ≠ b) : a < b := by
  rw [← not_le]
  exact fun k => hne (le_antisymm h k)

theorem lt_irrefl (a : Position) : ¬a < a := by simp [lt_iff]

theorem line_le_of_le {a b : Position} (h : a ≤ b) : a.line ≤ b.line := by
  rw [le_iff] at h
  omega

theorem le_iff_column_le {a b : Position} (h : a.line = b.line) : a ≤ b ↔ a.column ≤ b.column := by
  rw [le_iff]
  omega

theorem line_eq_of_le_of_le {a b c : Position} (h : a ≤ b) (k : b ≤ c) (hl : a.line = c.line) :
    b.line = c.line := by
  rw [le_iff] at h k
  omega

end Position

/-! ## Generated order -/

/-- `sorted` holds the mappings `recorded` in generated order, and those with one generated
position in the order in which they were recorded. -/
structure StablySorted (sorted recorded : List Mapping) : Prop where
  perm : sorted.Perm recorded
  pairwise : sorted.Pairwise fun a b => a.generated ≤ b.generated
  stable : ∀ p, (sorted.filter fun e => e.generated = p) = recorded.filter fun e => e.generated = p

namespace PositionMap

variable (m : PositionMap)

theorem perm_ordered : m.ordered.Perm m.mappings := List.mergeSort_perm _ _

theorem mem_ordered {e : Mapping} : e ∈ m.ordered ↔ e ∈ m.mappings := m.perm_ordered.mem_iff

theorem pairwise_ordered : m.ordered.Pairwise fun a b => a.generated ≤ b.generated := by
  have h : m.ordered.Pairwise fun a b => decide (a.generated ≤ b.generated) = true := by
    refine List.pairwise_mergeSort (fun a b c hab hbc => ?_) (fun a b => ?_) m.mappings
    · simp only [decide_eq_true_eq] at *
      exact Position.le_trans hab hbc
    · simpa using Position.le_total a.generated b.generated
  exact h.imp fun hab => by simpa using hab

theorem filter_ordered (p : Position) :
    (m.ordered.filter fun e => e.generated = p) = m.mappings.filter fun e => e.generated = p := by
  have hsub : (m.mappings.filter fun e => e.generated = p).Sublist m.ordered := by
    refine List.sublist_mergeSort (fun a b c hab hbc => ?_)
      (fun a b => by simpa using Position.le_total a.generated b.generated) ?_ List.filter_sublist
    · simp only [decide_eq_true_eq] at *
      exact Position.le_trans hab hbc
    · have hall : (m.mappings.filter fun e => e.generated = p).Pairwise fun _ _ => True :=
        List.pairwise_of_forall fun _ _ => trivial
      refine hall.imp_of_mem fun {a b} ha hb _ => ?_
      simp only [List.mem_filter, decide_eq_true_eq] at ha hb
      simp [ha.2, hb.2, Position.le_refl]
  have hkeep := hsub.filter fun e => decide (e.generated = p)
  rw [List.filter_filter] at hkeep
  simp only [Bool.and_self] at hkeep
  exact (hkeep.eq_of_length (m.perm_ordered.symm.filter _).length_eq).symm

theorem stablySorted_ordered : StablySorted m.ordered m.mappings :=
  ⟨m.perm_ordered, m.pairwise_ordered, m.filter_ordered⟩

variable {m}

theorem ordered_eq_of_pairwise (h : m.mappings.Pairwise fun a b => a.generated ≤ b.generated) :
    m.ordered = m.mappings :=
  List.mergeSort_of_pairwise (by simpa using h)

end PositionMap

/-! ## The governing mapping -/

/-- Of the mappings recorded, `e` is the one that governs `p`. -/
structure Mapping.Governs (recorded : List Mapping) (p : Position) (e : Mapping) : Prop where
  line : e.generated.line = p.line
  le : e.generated ≤ p
  last : (recorded.filter fun b => b.generated = e.generated).getLast? = some e
  greatest : ∀ b ∈ recorded, b.generated ≤ p → b.generated ≤ e.generated

namespace Mapping

variable {recorded sorted : List Mapping} {p : Position} {e : Mapping}

theorem Governs.mem (h : Governs recorded p e) : e ∈ recorded :=
  (List.mem_filter.1 (List.mem_of_getLast? h.last)).1

theorem Governs.unique {e' : Mapping} (h : Governs recorded p e) (h' : Governs recorded p e') :
    e = e' := by
  have heq : e.generated = e'.generated :=
    Position.le_antisymm (h'.greatest e h.mem h.le) (h.greatest e' h'.mem h'.le)
  have hlast := h.last
  rw [heq, h'.last] at hlast
  exact (Option.some.inj hlast).symm

theorem takeWhile_eq_filter (h : sorted.Pairwise fun a b => a.generated ≤ b.generated)
    (p : Position) :
    (sorted.takeWhile fun b => b.generated ≤ p) = sorted.filter fun b => b.generated ≤ p := by
  induction sorted with
  | nil => rfl
  | cons a sorted ih =>
    rw [List.pairwise_cons] at h
    by_cases ha : a.generated ≤ p
    · rw [List.takeWhile_cons_of_pos (by simpa using ha),
        List.filter_cons_of_pos (by simpa using ha), ih h.2]
    · rw [List.takeWhile_cons_of_neg (by simpa using ha),
        List.filter_cons_of_neg (by simpa using ha), List.filter_eq_nil_iff.2]
      intro b hb hle
      exact ha (Position.le_trans (h.1 b hb) (by simpa using hle))

/-- The last mapping of a sorted list that does not come after `p` is at the greatest position,
and the last at that. -/
theorem getLast?_takeWhile (h : StablySorted sorted recorded)
    (hlast : (sorted.takeWhile fun b => b.generated ≤ p).getLast? = some e) :
    e.generated ≤ p ∧ (recorded.filter fun b => b.generated = e.generated).getLast? = some e ∧
      ∀ b ∈ recorded, b.generated ≤ p → b.generated ≤ e.generated := by
  rw [takeWhile_eq_filter h.pairwise] at hlast
  obtain ⟨front, hfront⟩ := List.getLast?_eq_some_iff.1 hlast
  have hpair := h.pairwise.filter fun b => decide (b.generated ≤ p)
  rw [hfront, List.pairwise_append] at hpair
  have hle : e.generated ≤ p := by
    have hmem : e ∈ sorted.filter fun b => decide (b.generated ≤ p) := List.mem_of_getLast? hlast
    simpa using (List.mem_filter.1 hmem).2
  refine ⟨hle, ?_, fun b hb hbp => ?_⟩
  · have hsub : (sorted.filter fun b => decide (b.generated = e.generated)) =
        (sorted.filter fun b => decide (b.generated ≤ p)).filter
          fun b => decide (b.generated = e.generated) := by
      rw [List.filter_filter]
      apply List.filter_congr
      intro b _
      by_cases hb : b.generated = e.generated
      · simp [hb, hle]
      · simp [hb]
    rw [← h.stable, hsub, hfront, List.filter_append, List.filter_cons_of_pos (by simp),
      List.filter_nil, List.getLast?_append, List.getLast?_singleton, Option.some_or]
  · have hmem : b ∈ sorted.filter fun b => decide (b.generated ≤ p) :=
      List.mem_filter.2 ⟨h.perm.mem_iff.2 hb, by simpa using hbp⟩
    rw [hfront, List.mem_append, List.mem_singleton] at hmem
    rcases hmem with hmem | rfl
    · exact hpair.2.2 b hmem e (List.mem_singleton_self e)
    · exact Position.le_refl _

theorem exists_getLast?_takeWhile (h : StablySorted sorted recorded) (he : e ∈ recorded)
    (hle : e.generated ≤ p) :
    ∃ b, (sorted.takeWhile fun b => b.generated ≤ p).getLast? = some b := by
  have hmem : e ∈ sorted.takeWhile fun b => decide (b.generated ≤ p) := by
    rw [takeWhile_eq_filter h.pairwise]
    exact List.mem_filter.2 ⟨h.perm.mem_iff.2 he, by simpa using hle⟩
  apply Option.ne_none_iff_exists'.1
  intro hnone
  simp [List.getLast?_eq_none_iff.1 hnone] at hmem

theorem governing_eq_some_iff (h : StablySorted sorted recorded) :
    governing sorted p = some e ↔ Governs recorded p e := by
  rw [governing, Option.filter_eq_some_iff]
  constructor
  · rintro ⟨hlast, hline⟩
    obtain ⟨hle, hat, hgreatest⟩ := getLast?_takeWhile h hlast
    exact ⟨by simpa using hline, hle, hat, hgreatest⟩
  · intro hg
    obtain ⟨b, hb⟩ := exists_getLast?_takeWhile h hg.mem hg.le
    obtain ⟨hle, hat, hgreatest⟩ := getLast?_takeWhile h hb
    have hline := Position.line_eq_of_le_of_le (hgreatest e hg.mem hg.le) hle hg.line
    obtain rfl := hg.unique ⟨hline, hle, hat, hgreatest⟩
    exact ⟨hb, by simpa using hline⟩

theorem governing_eq_none_iff (h : StablySorted sorted recorded) :
    governing sorted p = none ↔
      ∀ b ∈ recorded, b.generated.line = p.line → ¬b.generated ≤ p := by
  constructor
  · intro hnone b hb hline hle
    obtain ⟨e, he⟩ := exists_getLast?_takeWhile h hb hle
    obtain ⟨hep, -, hgreatest⟩ := getLast?_takeWhile h he
    have hel := Position.line_eq_of_le_of_le (hgreatest b hb hle) hep hline
    rw [governing, he, Option.filter_some, if_pos (by simpa using hel)] at hnone
    exact Option.some_ne_none e hnone
  · intro hall
    rw [Option.eq_none_iff_forall_ne_some]
    intro e he
    have hg := (governing_eq_some_iff h).1 he
    exact hall e hg.mem hg.line hg.le

theorem governing_map {f : Mapping → Mapping} (hf : ∀ e, (f e).generated = e.generated)
    (sorted : List Mapping) (p : Position) :
    governing (sorted.map f) p = (governing sorted p).map f := by
  have htake : (fun e : Mapping => decide (e.generated ≤ p)) ∘ f =
      fun e => decide (e.generated ≤ p) := by
    funext e
    rw [Function.comp_apply, hf]
  rw [governing, governing, List.takeWhile_map, htake, List.getLast?_map]
  cases ((sorted.takeWhile fun e => decide (e.generated ≤ p)).getLast?) with
  | none => rfl
  | some e =>
    rw [Option.map_some, Option.filter_some, Option.filter_some, hf]
    split <;> rfl

end Mapping

namespace PositionMap

variable {m : PositionMap} {p : Position} {e : Mapping}

theorem mappingFor_eq_some_iff : m.mappingFor p = some e ↔ Mapping.Governs m.mappings p e :=
  Mapping.governing_eq_some_iff m.stablySorted_ordered

theorem mappingFor_eq_none_iff :
    m.mappingFor p = none ↔ ∀ b ∈ m.mappings, b.generated.line = p.line → ¬b.generated ≤ p :=
  Mapping.governing_eq_none_iff m.stablySorted_ordered

/-- Look-up in a map whose mappings were changed where they are. -/
theorem mappingFor_map {f : Mapping → Mapping} (hf : ∀ e, (f e).generated = e.generated)
    (m : PositionMap) (p : Position) :
    ({ m with mappings := m.mappings.map f } : PositionMap).mappingFor p =
      (m.mappingFor p).map f := by
  have hordered : ({ m with mappings := m.mappings.map f } : PositionMap).ordered =
      m.ordered.map f := by
    refine (List.map_mergeSort fun a _ b _ => ?_).symm
    rw [hf, hf]
  rw [mappingFor, hordered, Mapping.governing_map hf, mappingFor]

theorem resolve_of_sourceRoot_eq_none (h : m.sourceRoot = none) (source : Text) :
    m.resolve source = source := by
  rw [resolve, h]

theorem originFor_eq_some_iff {o : Origin} : m.originFor p = some o ↔
    ∃ found origin, m.mappingFor p = some found ∧ found.origin = some origin ∧
      o = m.resolveOrigin origin := by
  simp only [originFor, Option.map_eq_some_iff, Option.bind_eq_some_iff]
  constructor
  · rintro ⟨origin, ⟨found, hfound, horigin⟩, rfl⟩
    exact ⟨found, origin, hfound, horigin, rfl⟩
  · rintro ⟨found, origin, hfound, horigin, rfl⟩
    exact ⟨origin, ⟨found, hfound, horigin⟩, rfl⟩

theorem originFor_eq_bind (hroot : m.sourceRoot = none) (p : Position) :
    m.originFor p = (m.mappingFor p).bind Mapping.origin := by
  have hsame : m.resolveOrigin = id := by
    funext o
    rw [resolveOrigin, resolve_of_sourceRoot_eq_none hroot]
    rfl
  rw [originFor, hsame, Option.map_id, id]

theorem originFor_of_governs {o : Origin} (hroot : m.sourceRoot = none)
    (he : Mapping.Governs m.mappings p e) (ho : e.origin = some o) : m.originFor p = some o := by
  rw [originFor_eq_bind hroot, mappingFor_eq_some_iff.2 he, Option.bind_some, ho]

end PositionMap

/-! ## Recording more mappings -/

namespace Mapping

variable {recorded added : List Mapping} {p : Position} {e : Mapping}

/-- Mappings recorded later that are not in front of `p` on its line change nothing there. -/
theorem governs_append_iff
    (h : ∀ b ∈ added, b.generated.line = p.line → ¬b.generated ≤ p) :
    Governs (recorded ++ added) p e ↔ Governs recorded p e := by
  have hnone : e.generated.line = p.line → e.generated ≤ p →
      (added.filter fun b => decide (b.generated = e.generated)) = [] := by
    intro hline hle
    rw [List.filter_eq_nil_iff]
    intro b hb hbe
    obtain hbe : b.generated = e.generated := by simpa using hbe
    exact h b hb (by rw [hbe, hline]) (by rw [hbe]; exact hle)
  constructor
  · intro hg
    refine ⟨hg.line, hg.le, ?_, fun b hb => hg.greatest b (List.mem_append_left _ hb)⟩
    have hlast := hg.last
    rwa [List.filter_append, hnone hg.line hg.le, List.append_nil] at hlast
  · intro hg
    refine ⟨hg.line, hg.le, ?_, fun b hb hle => ?_⟩
    · rw [List.filter_append, hnone hg.line hg.le, List.append_nil]
      exact hg.last
    · rcases List.mem_append.1 hb with hb | hb
      · exact hg.greatest b hb hle
      · have hne : b.generated.line ≠ p.line := fun hline => h b hb hline hle
        have hline := hg.line
        rw [Position.le_iff] at hle ⊢
        omega

/-- A mapping that governs among those recorded later governs all if none recorded before comes
after it. -/
theorem Governs.append_left (hg : Governs added p e)
    (h : ∀ b ∈ recorded, b.generated ≤ e.generated) : Governs (recorded ++ added) p e := by
  refine ⟨hg.line, hg.le, ?_, fun b hb hle => ?_⟩
  · rw [List.filter_append, List.getLast?_append, hg.last, Option.some_or]
  · rcases List.mem_append.1 hb with hb | hb
    · exact h b hb
    · exact hg.greatest b hb hle

/-- A mapping governs if those recorded before do not come after it, and those recorded later are
not in front of `p` on its line. -/
theorem Governs.of_split (hline : e.generated.line = p.line) (hle : e.generated ≤ p)
    (hbefore : ∀ b ∈ recorded, b.generated ≤ e.generated)
    (hafter : ∀ b ∈ added, b.generated.line = p.line → ¬b.generated ≤ p) :
    Governs (recorded ++ e :: added) p e := by
  have hsingle : Governs [e] p e := by
    refine ⟨hline, hle, by simp, fun b hb _ => ?_⟩
    rw [List.mem_singleton.1 hb]
    exact Position.le_refl _
  rw [List.append_cons]
  exact (governs_append_iff hafter).2 (hsingle.append_left hbefore)

end Mapping

theorem PositionMap.mappingFor_append_of_not_le (m : PositionMap) {added : List Mapping}
    {p : Position} (h : ∀ b ∈ added, b.generated.line = p.line → ¬b.generated ≤ p) :
    ({ m with mappings := m.mappings ++ added } : PositionMap).mappingFor p = m.mappingFor p := by
  apply Option.ext
  intro e
  rw [mappingFor_eq_some_iff, mappingFor_eq_some_iff, Mapping.governs_append_iff h]

/-! ## The rightmost mappings on a line -/

namespace Mapping

/-- The mappings on the line of `p` that are not behind `p`. -/
def reaching (recorded : List Mapping) (p : Position) : List Mapping :=
  recorded.filter fun e => e.generated.line = p.line ∧ e.generated.column ≤ p.column

/-- The mappings whose column no other exceeds. -/
def rightmost (es : List Mapping) : List Mapping :=
  es.filter fun e => ∀ b ∈ es, b.generated.column ≤ e.generated.column

variable {recorded : List Mapping} {p : Position} {e : Mapping}

theorem mem_reaching : e ∈ reaching recorded p ↔
    e ∈ recorded ∧ e.generated.line = p.line ∧ e.generated.column ≤ p.column := by
  rw [reaching, List.mem_filter, decide_eq_true_eq]

theorem reaching_filter_line (recorded : List Mapping) (p : Position) :
    reaching (recorded.filter fun e => e.generated.line = p.line) p = reaching recorded p := by
  rw [reaching, List.filter_filter]
  apply List.filter_congr
  intro e _
  by_cases h : e.generated.line = p.line <;> simp [h]

theorem Governs.column_le (h : Governs recorded p e) : e.generated.column ≤ p.column :=
  (Position.le_iff_column_le h.line).1 h.le

theorem Governs.filter_reaching (h : Governs recorded p e) :
    ((reaching recorded p).filter fun b => b.generated = e.generated) =
      recorded.filter fun b => b.generated = e.generated := by
  rw [reaching, List.filter_filter]
  apply List.filter_congr
  intro b _
  by_cases heq : b.generated = e.generated
  · simp [heq, h.line, h.column_le]
  · simp [heq]

/-- The rightmost mappings are those at the place of the one that governs. -/
theorem Governs.rightmost_reaching (h : Governs recorded p e) :
    rightmost (reaching recorded p) = recorded.filter fun b => b.generated = e.generated := by
  have he : e ∈ reaching recorded p := mem_reaching.2 ⟨h.mem, h.line, h.column_le⟩
  -- Whatever reaches `p` is on the line of `e`, so that columns alone compare.
  have hmax : ∀ b ∈ reaching recorded p,
      b.generated.line = e.generated.line ∧ b.generated.column ≤ e.generated.column := by
    intro b hb
    obtain ⟨hmem, hline, hcolumn⟩ := mem_reaching.1 hb
    have hle := h.greatest b hmem ((Position.le_iff_column_le hline).2 hcolumn)
    have hsame := hline.trans h.line.symm
    exact ⟨hsame, (Position.le_iff_column_le hsame).1 hle⟩
  rw [← h.filter_reaching, rightmost]
  apply List.filter_congr
  intro b hb
  obtain ⟨hline, hcolumn⟩ := hmax b hb
  rw [decide_eq_decide]
  constructor
  · intro hright
    exact Position.eq_of_line_of_column hline (Nat.le_antisymm hcolumn (hright e he))
  · intro heq c hc
    rw [heq]
    exact (hmax c hc).2

end Mapping

namespace PositionMap

variable {m : PositionMap}

theorem mappingFor_eq_none_iff_reaching {p : Position} :
    m.mappingFor p = none ↔ Mapping.reaching m.mappings p = [] := by
  rw [mappingFor_eq_none_iff, Mapping.reaching, List.filter_eq_nil_iff]
  constructor
  · intro h b hb hreach
    obtain ⟨hline, hcolumn⟩ := of_decide_eq_true hreach
    exact h b hb hline ((Position.le_iff_column_le hline).2 hcolumn)
  · intro h b hb hline hle
    exact h b hb (decide_eq_true ⟨hline, (Position.le_iff_column_le hline).1 hle⟩)

theorem mappingFor_eq_getLast? (m : PositionMap) (p : Position) :
    m.mappingFor p = (Mapping.rightmost (Mapping.reaching m.mappings p)).getLast? := by
  cases hfound : m.mappingFor p with
  | none =>
    rw [mappingFor_eq_none_iff_reaching.1 hfound]
    rfl
  | some e =>
    have hgoverns := mappingFor_eq_some_iff.1 hfound
    rw [hgoverns.rightmost_reaching, hgoverns.last]

/-- **What governs a position.** Of the mappings on its line that do not come after it, those at the
greatest column, and of these the one recorded last. Nothing governs the position exactly if no
mapping on its line is at or in front of it, and the mappings on other lines have no part in this. -/
theorem mappingFor_rightmost (m : PositionMap) (p : Position) :
    m.mappingFor p = (Mapping.rightmost (Mapping.reaching m.mappings p)).getLast? ∧
      (m.mappingFor p = none ↔
        ∀ e ∈ m.mappings, ¬(e.generated.line = p.line ∧ e.generated.column ≤ p.column)) ∧
      ({ m with mappings := m.mappings.filter fun e => e.generated.line = p.line } :
        PositionMap).mappingFor p = m.mappingFor p := by
  refine ⟨m.mappingFor_eq_getLast? p, ?_, ?_⟩
  · rw [mappingFor_eq_none_iff_reaching, Mapping.reaching, List.filter_eq_nil_iff]
    simp only [decide_eq_true_eq]
  · rw [mappingFor_eq_getLast?, mappingFor_eq_getLast?, Mapping.reaching_filter_line]

end PositionMap

end Provenance
