import Mathlib.Data.Finset.Card
import Mathlib.Data.List.Basic
import Provenance.SourceContext

/-!
# Registering sources

* `SourceContext.exists_add_eq` : all that registering a source does;
* `SourceContext.find?_add`, `SourceContext.paths_add` : which sources there are then;
* `SourceContext.addAll` : registers sources one after the other; `paths_isPrefix_addAll` : a path
  stays in its place; `fst_addAll` : the places that are told; `find?_addAll` : of the sources with
  a path, the last one counts (`SourceContext.lastGiven`);
* `SourceContext.addAll_empty_stable` : all of this for the contexts that come from an empty one.
-/

namespace Provenance.SourceContext

variable {c : SourceContext} {p q : Text} {content : Option Text} {fs : List SourceFile}

def paths (c : SourceContext) : List Text := c.files.map SourceFile.path

theorem length_paths (c : SourceContext) : c.paths.length = c.size := List.length_map _

theorem map_path_get? (c : SourceContext) (id : FileId) :
    (c.get? id).map SourceFile.path = c.paths[id.index]? := List.getElem?_map.symm

theorem get?_idxOf (c : SourceContext) (q : Text) : c.get? ⟨c.paths.idxOf q⟩ = c.find? q := by
  obtain ⟨files⟩ := c
  simp only [get?, find?, paths]
  induction files with
  | nil => rfl
  | cons f files ih =>
    by_cases h : f.path = q
    · simp [h]
    · rw [List.map_cons, List.idxOf_cons_ne _ h, List.getElem?_cons_succ, ih,
        List.find?_cons_of_neg (by simpa using h)]

/-! ## Registering one source -/

/-- A registered source stands behind sources with other paths. Either there was one with its path
before, in the same place, or it stands at the end. -/
theorem exists_add_eq (c : SourceContext) (p : Text) (content : Option Text) :
    ∃ front back, p ∉ front.map SourceFile.path ∧
      c.add p content = (⟨front.length⟩, ⟨front ++ ⟨p, content⟩ :: back⟩) ∧
      ((∃ old, c.files = front ++ ⟨p, old⟩ :: back) ∨ c.files = front ∧ back = []) := by
  unfold add
  cases h : c.files.findIdx? fun f => f.path == p with
  | none =>
    rw [List.findIdx?_eq_none_iff] at h
    refine ⟨c.files, [], ?_, rfl, Or.inr ⟨rfl, rfl⟩⟩
    simpa using h
  | some i =>
    obtain ⟨hi, hpath, hfirst⟩ := List.findIdx?_eq_some_iff_getElem.1 h
    obtain rfl : c.files[i].path = p := by simpa using hpath
    refine ⟨c.files.take i, c.files.drop (i + 1), ?_, ?_, Or.inl ⟨c.files[i].content, ?_⟩⟩
    · intro hmem
      obtain ⟨f, hf, heq⟩ := List.mem_map.1 hmem
      obtain ⟨j, hj, rfl⟩ := List.mem_take_iff_getElem.1 hf
      exact hfirst j (by omega) (by simpa using heq)
    · show ((⟨i⟩ : FileId), SourceContext.mk (c.files.modify i _)) = _
      rw [List.length_take_of_le (Nat.le_of_lt hi), List.modify_eq_take_cons_drop hi]
    · rw [← List.drop_eq_getElem_cons, List.take_append_drop]

theorem find?_add (c : SourceContext) (p q : Text) (content : Option Text) :
    (c.add p content).2.find? q = if p = q then some ⟨p, content⟩ else c.find? q := by
  obtain ⟨front, back, hfront, hadd, hfiles⟩ := c.exists_add_eq p content
  have hnone : front.find? (fun f => f.path == p) = none := by simpa using hfront
  rw [hadd, find?, List.find?_append]
  split
  · next h =>
    subst h
    rw [hnone, Option.none_or, List.find?_cons_of_pos (by simp)]
  · next h =>
    rw [List.find?_cons_of_neg (by simpa using h)]
    rcases hfiles with ⟨old, hfiles⟩ | ⟨hfiles, rfl⟩
    · rw [find?, hfiles, List.find?_append, List.find?_cons_of_neg (by simpa using h)]
    · rw [find?, hfiles, List.find?_nil, Option.or_none]

theorem paths_add (c : SourceContext) (p : Text) (content : Option Text) :
    (c.add p content).2.paths = if p ∈ c.paths then c.paths else c.paths ++ [p] := by
  obtain ⟨front, back, hfront, hadd, ⟨old, hfiles⟩ | ⟨hfiles, rfl⟩⟩ := c.exists_add_eq p content
  · -- The content alone is replaced, so that the paths stay as they are.
    have hpaths : c.paths = front.map SourceFile.path ++ p :: back.map SourceFile.path := by
      rw [paths, hfiles, List.map_append, List.map_cons]
    rw [if_pos (by simp [hpaths]), hpaths, hadd, paths, List.map_append, List.map_cons]
  · have hpaths : c.paths = front.map SourceFile.path := by rw [paths, hfiles]
    rw [if_neg (hpaths ▸ hfront), hpaths, hadd, paths, List.map_append]
    rfl

theorem fst_add (c : SourceContext) (p : Text) (content : Option Text) :
    (c.add p content).1 = ⟨(c.add p content).2.paths.idxOf p⟩ := by
  obtain ⟨front, back, hfront, hadd, -⟩ := c.exists_add_eq p content
  rw [hadd, paths, List.map_append, List.map_cons, List.idxOf_append_of_notMem hfront,
    List.idxOf_cons_self, List.length_map]
  rfl

theorem mem_paths_add : q ∈ (c.add p content).2.paths ↔ q = p ∨ q ∈ c.paths := by
  rw [paths_add]
  split
  · next h => exact ⟨Or.inr, fun hq => hq.elim (fun hq => hq ▸ h) id⟩
  · rw [List.mem_append, List.mem_singleton, or_comm]

theorem paths_isPrefix_add (c : SourceContext) (p : Text) (content : Option Text) :
    c.paths <+: (c.add p content).2.paths := by
  rw [paths_add]
  split
  · exact List.prefix_rfl
  · exact List.prefix_append _ _

theorem nodup_paths_add (h : c.paths.Nodup) : (c.add p content).2.paths.Nodup := by
  rw [paths_add]
  split
  · exact h
  · next hp =>
    refine List.nodup_append.2 ⟨h, List.nodup_singleton p, ?_⟩
    rintro a ha b hb rfl
    exact hp (List.mem_singleton.1 hb ▸ ha)

/-! ## Registering sources one after the other -/

/-- Registers sources in order. The places that were told come first, then the sources. -/
def addAll (c : SourceContext) : List SourceFile → List FileId × SourceContext
  | [] => ([], c)
  | f :: rest =>
    let (id, next) := c.add f.path f.content
    let (ids, last) := next.addAll rest
    (id :: ids, last)

theorem addAll_nil (c : SourceContext) : c.addAll [] = ([], c) := rfl

theorem addAll_cons (c : SourceContext) (f : SourceFile) (fs : List SourceFile) :
    c.addAll (f :: fs) = ((c.add f.path f.content).1 ::
      ((c.add f.path f.content).2.addAll fs).1, ((c.add f.path f.content).2.addAll fs).2) := rfl

theorem paths_isPrefix_addAll (c : SourceContext) (fs : List SourceFile) :
    c.paths <+: (c.addAll fs).2.paths := by
  induction fs generalizing c with
  | nil => exact List.prefix_rfl
  | cons f fs ih => exact (c.paths_isPrefix_add f.path f.content).trans (ih _)

theorem nodup_paths_addAll (h : c.paths.Nodup) (fs : List SourceFile) :
    (c.addAll fs).2.paths.Nodup := by
  induction fs generalizing c with
  | nil => exact h
  | cons f fs ih => exact ih (nodup_paths_add h)

theorem mem_paths_addAll :
    q ∈ (c.addAll fs).2.paths ↔ q ∈ fs.map SourceFile.path ∨ q ∈ c.paths := by
  induction fs generalizing c with
  | nil => simp [addAll_nil]
  | cons f fs ih =>
    rw [addAll_cons, ih, mem_paths_add, List.map_cons, List.mem_cons, or_left_comm, or_assoc]

/-- Each call tells the place where its path is in the end. -/
theorem fst_addAll (c : SourceContext) (fs : List SourceFile) :
    (c.addAll fs).1 = fs.map fun f => ⟨(c.addAll fs).2.paths.idxOf f.path⟩ := by
  induction fs generalizing c with
  | nil => rfl
  | cons f fs ih =>
    -- Later calls add paths behind this one, so that it stays in its place.
    have hmem : f.path ∈ (c.add f.path f.content).2.paths := mem_paths_add.2 (Or.inl rfl)
    obtain ⟨more, hmore⟩ := paths_isPrefix_addAll (c.add f.path f.content).2 fs
    rw [addAll_cons, ih, List.map_cons, fst_add]
    simp only [← hmore, List.idxOf_append_of_mem hmem]

/-- Of the sources with a path, the last one that was given. -/
def lastGiven (fs : List SourceFile) (q : Text) : Option SourceFile :=
  fs.reverse.find? fun f => f.path == q

/-- Of the sources with a path, the last one that was registered is found. -/
theorem find?_addAll (c : SourceContext) (fs : List SourceFile) (q : Text) :
    (c.addAll fs).2.find? q = (lastGiven fs q).or (c.find? q) := by
  unfold lastGiven
  induction fs generalizing c with
  | nil => rfl
  | cons f fs ih =>
    rw [addAll_cons, ih, find?_add, List.reverse_cons, List.find?_append, Option.or_assoc]
    congr 1
    split
    · next h =>
      subst h
      simp
    · next h => simp [h]

/-- What is told for a source is where its path is in the end. -/
theorem eq_of_mem_zip_addAll {x : SourceFile × FileId} (hx : x ∈ fs.zip (c.addAll fs).1) :
    x.1.path ∈ (c.addAll fs).2.paths ∧ x.2 = ⟨(c.addAll fs).2.paths.idxOf x.1.path⟩ := by
  rw [fst_addAll, ← List.map_prod_left_eq_zip] at hx
  obtain ⟨f, hf, rfl⟩ := List.mem_map.1 hx
  exact ⟨mem_paths_addAll.2 (Or.inl (List.mem_map_of_mem hf)), rfl⟩

/-- A place keeps its path whatever is registered later. -/
theorem map_path_get?_addAll (h : q ∈ c.paths) (fs : List SourceFile) :
    ((c.addAll fs).2.get? ⟨c.paths.idxOf q⟩).map SourceFile.path = some q := by
  obtain ⟨more, hmore⟩ := c.paths_isPrefix_addAll fs
  rw [map_path_get?, ← hmore, List.getElem?_append_left (List.idxOf_lt_length_of_mem h),
    List.getElem?_idxOf h]

/-! ## From the empty context on -/

theorem nodup_paths_addAll_empty (calls : List SourceFile) :
    (empty.addAll calls).2.paths.Nodup := by
  have hempty : empty.paths.Nodup := List.nodup_nil
  exact nodup_paths_addAll hempty calls

theorem size_addAll_empty (calls : List SourceFile) :
    (empty.addAll calls).2.size = (calls.map SourceFile.path).toFinset.card := by
  rw [← length_paths, ← List.toFinset_card_of_nodup (nodup_paths_addAll_empty calls)]
  congr 1
  ext path
  rw [List.mem_toFinset, List.mem_toFinset, mem_paths_addAll]
  simp [empty, paths]

theorem find?_addAll_empty (calls : List SourceFile) (path : Text) :
    (empty.addAll calls).2.find? path = lastGiven calls path := by
  rw [find?_addAll]
  exact Option.or_none

/-- **The registered sources are a map with stable places.** After any calls on the empty context
the paths are different, and there are as many as different paths were given. The calls tell the
same place exactly if they were given the same path, and that place keeps this path whatever is
registered later. Both the path and its place give the last source that was registered for it. What
that holds in memory is read without a look at the files. -/
theorem addAll_empty_stable (calls : List SourceFile) :
    let ids := (empty.addAll calls).1
    let c := (empty.addAll calls).2
    c.paths.Nodup ∧ c.size = (calls.map SourceFile.path).toFinset.card ∧
      ids.length = calls.length ∧
      (∀ x ∈ calls.zip ids, ∀ y ∈ calls.zip ids, x.2 = y.2 ↔ x.1.path = y.1.path) ∧
      (∀ x ∈ calls.zip ids, ∀ later,
        ((c.addAll later).2.get? x.2).map SourceFile.path = some x.1.path) ∧
      (∀ path, c.find? path = lastGiven calls path) ∧
      (∀ x ∈ calls.zip ids, c.get? x.2 = lastGiven calls x.1.path) ∧
      ∀ path files, c.read files path =
        ((lastGiven calls path).bind SourceFile.content).elim (files.read path) .ok := by
  intro ids c
  refine ⟨nodup_paths_addAll_empty calls, size_addAll_empty calls, ?_, ?_, ?_,
    find?_addAll_empty calls, ?_, ?_⟩
  · show (empty.addAll calls).1.length = calls.length
    rw [fst_addAll, List.length_map]
  · intro x hx y hy
    obtain ⟨hpath, hplace⟩ := eq_of_mem_zip_addAll hx
    obtain ⟨-, hplace'⟩ := eq_of_mem_zip_addAll hy
    rw [hplace, hplace', FileId.mk.injEq, List.idxOf_inj hpath]
  · intro x hx later
    obtain ⟨hpath, hplace⟩ := eq_of_mem_zip_addAll hx
    rw [hplace]
    exact map_path_get?_addAll hpath later
  · intro x hx
    obtain ⟨-, hplace⟩ := eq_of_mem_zip_addAll hx
    rw [hplace, get?_idxOf]
    exact find?_addAll_empty calls x.1.path
  · intro path files
    rw [read, find?_addAll_empty]
    cases (lastGiven calls path).bind SourceFile.content <;> rfl

/-- A path that is registered a second time, without a content in memory. -/
theorem addAll_empty_stable_twice :
    let a := "a.js".toList
    let b := "b.js".toList
    let calls : List SourceFile := [⟨a, some ['x']⟩, ⟨b, some ['y']⟩, ⟨a, none⟩]
    let c := (empty.addAll calls).2
    calls.zip (empty.addAll calls).1 =
        [(⟨a, some ['x']⟩, ⟨0⟩), (⟨b, some ['y']⟩, ⟨1⟩), (⟨a, none⟩, ⟨0⟩)] ∧
      c.size = 2 ∧ c.get? ⟨0⟩ = some ⟨a, none⟩ ∧ ∀ files, c.read files b = .ok ['y'] := by
  intro a b calls c
  have hzip : calls.zip (empty.addAll calls).1 =
      [(⟨a, some ['x']⟩, ⟨0⟩), (⟨b, some ['y']⟩, ⟨1⟩), (⟨a, none⟩, ⟨0⟩)] := by decide
  obtain ⟨-, hsize, -, -, -, -, hget, hread⟩ := addAll_empty_stable calls
  exact ⟨hzip, hsize.trans (by decide), hget (⟨a, some ['x']⟩, ⟨0⟩) (by rw [hzip]; simp),
    hread b⟩

end Provenance.SourceContext
