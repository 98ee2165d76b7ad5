import Provenance.Json.Record
import Provenance.Proofs.Json.RoundTrip

/-!
# Records are read as they were written

* `Field.ofOption`, `Json.fields?_record` : the fields of a written record: those with a value are
  given, the others are absent;
* `Json.IsPlain.record`, `Json.isPlain_quoted`, ... : which records have a text that is read back;
* `Json.toNat?_ofNat`, `Json.toList?_map` : numbers and lists.
-/

namespace Provenance.Json

/-! ## Fields -/

/-- What a written record says about a field with this value. -/
def Field.ofOption : Option Json → Field
  | some j => .given j
  | none => .absent

theorem Field.ofOption_some (j : Json) : Field.ofOption (some j) = .given j := rfl

def membersOf (fields : List (Text × Option Json)) : List (Text × Json) :=
  fields.filterMap fun (k, v) => v.map (k, ·)

theorem record_eq (keys : List Text) (values : List (Option Json)) :
    record keys values = .obj ((membersOf (keys.zip values)).map fun m => (some m.1, m.2)) := by
  rw [record, membersOf, List.map_filterMap]
  congr 2
  funext ⟨k, v⟩
  cases v <;> rfl

theorem membersOf_cons (k : Text) (v : Option Json) (fields : List (Text × Option Json)) :
    membersOf ((k, v) :: fields) = (v.map (k, ·)).toList ++ membersOf fields := by
  cases v <;> rfl

theorem filter_membersOf_of_not_mem {key : Text} {fields : List (Text × Option Json)}
    (h : key ∉ fields.map Prod.fst) : (membersOf fields).filter (·.1 == key) = [] := by
  rw [List.filter_eq_nil_iff]
  rintro ⟨k, j⟩ hk heq
  obtain ⟨⟨k', v⟩, hmem, hv⟩ := List.mem_filterMap.1 hk
  obtain ⟨j', rfl, hkj⟩ := Option.map_eq_some_iff.1 hv
  obtain rfl : k' = k := congrArg Prod.fst hkj
  obtain rfl : k' = key := by simpa using heq
  exact h (List.mem_map.2 ⟨_, hmem, rfl⟩)

theorem filter_membersOf {fields : List (Text × Option Json)} (h : (fields.map Prod.fst).Nodup)
    {key : Text} {v : Option Json} (hmem : (key, v) ∈ fields) :
    (membersOf fields).filter (·.1 == key) = (v.map (key, ·)).toList := by
  induction fields with
  | nil => simp at hmem
  | cons field fields ih =>
    obtain ⟨k, w⟩ := field
    rw [List.map_cons, List.nodup_cons] at h
    rw [membersOf_cons, List.filter_append]
    rcases List.mem_cons.1 hmem with heq | hmem
    · obtain ⟨rfl, rfl⟩ := Prod.mk.inj heq
      rw [filter_membersOf_of_not_mem h.1, List.append_nil]
      cases v <;> simp
    · have hne : k ≠ key := by
        rintro rfl
        exact h.1 (List.mem_map.2 ⟨_, hmem, rfl⟩)
      rw [ih h.2 hmem]
      cases w <;> simp [hne]

theorem member?_membersOf {fields : List (Text × Option Json)} (h : (fields.map Prod.fst).Nodup)
    {key : Text} {v : Option Json} (hmem : (key, v) ∈ fields) :
    member? (membersOf fields) key = some (.ofOption v) := by
  rw [member?, filter_membersOf h hmem]
  cases v <;> rfl

theorem mapM_eq_some_map {α β γ : Type} {f : β → Option γ} {g : α → γ} {h : α → β} {l : List α}
    (hf : ∀ a ∈ l, f (h a) = some (g a)) : (l.map h).mapM f = some (l.map g) := by
  induction l with
  | nil => rfl
  | cons a l ih =>
    rw [List.forall_mem_cons] at hf
    rw [List.map_cons, List.mapM_cons, hf.1, ih hf.2]
    rfl

/-- **The fields of a written record.** -/
theorem fields?_record {keys : List Text} {values : List (Option Json)} (h : keys.Nodup)
    (hlen : keys.length = values.length) :
    (record keys values).fields? keys = some (values.map Field.ofOption) := by
  have hkeys : (keys.zip values).map Prod.fst = keys := List.map_fst_zip (Nat.le_of_eq hlen)
  have hvalues : (keys.zip values).map Prod.snd = values :=
    List.map_snd_zip (Nat.le_of_eq hlen.symm)
  have hmembers : ((membersOf (keys.zip values)).map fun m => (some m.1, m.2)).mapM
      (fun m : Option Text × Json => m.1.map (·, m.2)) = some (membersOf (keys.zip values)) := by
    have hall := mapM_eq_some_map (l := membersOf (keys.zip values)) (g := id)
      (f := fun m : Option Text × Json => m.1.map (·, m.2)) (h := fun m => (some m.1, m.2))
      fun _ _ => rfl
    rwa [List.map_id] at hall
  have hfields : ((keys.zip values).map Prod.fst).mapM (member? (membersOf (keys.zip values))) =
      some ((keys.zip values).map fun field => Field.ofOption field.2) := by
    apply mapM_eq_some_map
    rintro ⟨k, v⟩ hmem
    exact member?_membersOf (by rwa [hkeys]) hmem
  have hsnd : ((keys.zip values).map fun field => Field.ofOption field.2) =
      values.map Field.ofOption := by
    conv => rhs; rw [← hvalues, List.map_map]
    rfl
  rw [hkeys, hsnd] at hfields
  rw [record_eq, fields?]
  exact (congrArg (Option.bind · _) hmembers).trans hfields

/-! ## Plain values -/

theorem itemsPlain_iff {items : List Json} : ItemsPlain items ↔ ∀ j ∈ items, j.IsPlain := by
  induction items with
  | nil => simp [ItemsPlain]
  | cons j items ih => rw [ItemsPlain, ih, List.forall_mem_cons]

theorem membersPlain_iff {members : List (Option Text × Json)} :
    MembersPlain members ↔ ∀ m ∈ members, m.1.isSome ∧ m.2.IsPlain := by
  induction members with
  | nil => simp [MembersPlain]
  | cons m members ih =>
    obtain ⟨k, j⟩ := m
    rw [MembersPlain, ih, List.forall_mem_cons, and_assoc]

theorem isPlain_quoted (t : Text) : (quoted t).IsPlain := rfl

theorem isPlain_ofNat (n : Nat) : (ofNat n).IsPlain := ⟨n, rfl⟩

theorem isPlain_arr_map {α : Type} {f : α → Json} {l : List α} (h : ∀ a ∈ l, (f a).IsPlain) :
    (Json.arr (l.map f)).IsPlain := by
  refine itemsPlain_iff.2 fun j hj => ?_
  obtain ⟨a, ha, rfl⟩ := List.mem_map.1 hj
  exact h a ha

theorem IsPlain.record {keys : List Text} {values : List (Option Json)}
    (h : ∀ v ∈ values, ∀ j ∈ v, j.IsPlain) : (record keys values).IsPlain := by
  refine membersPlain_iff.2 fun m hm => ?_
  obtain ⟨⟨k, v⟩, hkv, hm⟩ := List.mem_filterMap.1 hm
  obtain ⟨j, hj, rfl⟩ := Option.map_eq_some_iff.1 hm
  exact ⟨rfl, h v (List.of_mem_zip hkv).2 j hj⟩

/-! ## Values of simple kinds -/

theorem toNat?_ofNat {n bound : Nat} (h : n < bound) : toNat? bound (ofNat n) = some n :=
  Numeral.toNat?_ofNat h

theorem toList?_map {α : Type} {read : Json → Option α} {f : α → Json} {l : List α}
    (h : ∀ a ∈ l, read (f a) = some a) : toList? read (.arr (l.map f)) = some l := by
  have hall := mapM_eq_some_map (g := id) h
  rwa [List.map_id] at hall

end Provenance.Json
