import KvStorageEngine.Engine.Correctness.VersionWf

/-!
# `Engine.Correctness.TableNames` — tables found and removed by their names

A table is looked for by the text `_<id>.` in its path, metadata by the number. In a directory whose own name contains
that text, every table is the one with this id: `findSSTableById` answers with the first, and `removeSSTablesByIds`
removes them all, while the levels keep their metadata. `idsAgree_iff` says exactly when names and numbers agree.
-/

namespace KvStorageEngine

variable [Platform]

/-- A table to be written by `SSTable::flush`, with the metadata it is added under. -/
structure Flushed where
  snapshot : SortedMap Bytes Entry
  tableMeta : SSTableMeta

namespace Flushed

def id (f : Flushed) : Nat := f.tableMeta.id

/-- The table under `data_dir/sstables/`. -/
def table (dataDir : Bytes) (f : Flushed) : SSTable := SSTable.flush f.snapshot (sstableDir dataDir) f.id

end Flushed

namespace TableVersion

/-- The version with `added`, one `addSSTable` after the other, starting from `numLevels` empty levels. -/
def ofFlushed (dataDir : Bytes) (numLevels : Nat) (added : List Flushed) : TableVersion :=
  added.foldl (fun v f => v.addSSTable (f.table dataDir) f.tableMeta) ⟨List.replicate numLevels [], [], 0, 0⟩

/-- `findSSTableById` answers with the table that was flushed with this id, if there is one. -/
def FindsOwn (dataDir : Bytes) (numLevels : Nat) (added : List Flushed) (id : Nat) : Prop :=
  (ofFlushed dataDir numLevels added).findSSTableById id = (added.find? fun f => f.id = id).map (Flushed.table dataDir)

/-- `removeSSTablesByIds` leaves the tables and the metadata with other ids, in their order. -/
def RemovesOwn (dataDir : Bytes) (numLevels : Nat) (added : List Flushed) (ids : List Nat) : Prop :=
  let left := added.filter fun f => f.id ∉ ids
  let v := (ofFlushed dataDir numLevels added).removeSSTablesByIds ids
  v.sstables = left.map (Flushed.table dataDir) ∧
    ∀ i, v.level i = (left.map Flushed.tableMeta).filter fun m => m.level = i

variable {dataDir : Bytes} {numLevels : Nat} {added : List Flushed}

theorem sstables_ofFlushed : (ofFlushed dataDir numLevels added).sstables = added.map (Flushed.table dataDir) := by
  induction added using List.reverseRecOn with
  | nil => rfl
  | append_singleton added f ih =>
      unfold ofFlushed at ih ⊢
      rw [List.foldl_append, List.foldl_cons, List.foldl_nil, sstables_addSSTable, ih, List.map_append,
        List.map_singleton]

theorem level_ofFlushed (i : Nat) :
    (ofFlushed dataDir numLevels added).level i = (added.map Flushed.tableMeta).filter fun m => m.level = i := by
  induction added using List.reverseRecOn with
  | nil =>
      show (List.replicate numLevels ([] : List SSTableMeta)).getD i [] = []
      rw [List.getD_eq_getElem?_getD, List.getElem?_replicate]
      split_ifs <;> rfl
  | append_singleton added f ih =>
      unfold ofFlushed at ih ⊢
      rw [List.foldl_append, List.foldl_cons, List.foldl_nil, level_addSSTable, ih, List.map_append,
        List.map_singleton, List.filter_append]
      by_cases hi : i = f.tableMeta.level
      · simp [hi]
      · simp [hi, Ne.symm hi]

theorem matchesId_table (f : Flushed) (id : Nat) :
    (f.table dataDir).matchesId id = true ↔ f.id = id ∨ idPattern id <:+: dataDir :=
  matchesId_iff_or (SSTable.path_flush _ _ _) id

/-- Tables with different ids are different tables. -/
theorem id_eq_of_table_eq {f g : Flushed} (h : f.table dataDir = g.table dataDir) : f.id = g.id := by
  have hpath := congrArg SSTable.path h
  exact sstablePath_inj hpath

/-- The lookup is right unless the directory contains the pattern, and then the first table has to be the one. -/
theorem findsOwn_iff (id : Nat) : FindsOwn dataDir numLevels added id ↔
    (idPattern id <:+: dataDir → ∀ f, added.head? = some f → f.id = id) := by
  unfold FindsOwn findSSTableById
  rw [sstables_ofFlushed, List.find?_map]
  by_cases hin : idPattern id <:+: dataDir
  · -- every table matches
    have hall : added.find? ((fun t : SSTable => t.matchesId id) ∘ Flushed.table dataDir) = added.head? := by
      cases added with
      | nil => rfl
      | cons f added => exact List.find?_cons_of_pos ((matchesId_table f id).mpr (Or.inr hin))
    rw [hall, imp_iff_right hin]
    cases added with
    | nil => simp
    | cons f added =>
        simp only [List.head?_cons, Option.map_some, Option.some.injEq, forall_eq']
        constructor
        · intro h
          obtain ⟨g, hg, htable⟩ := Option.map_eq_some_iff.mp h.symm
          have hid : g.id = id := by simpa using List.find?_some hg
          exact (id_eq_of_table_eq htable).symm.trans hid
        · intro hid
          simp [hid]
  · have hsame : ((fun t : SSTable => t.matchesId id) ∘ Flushed.table dataDir) = fun f => decide (f.id = id) := by
      funext f
      rw [Function.comp_apply, Bool.eq_iff_iff, matchesId_table, or_iff_left hin, decide_eq_true_eq]
    rw [hsame]
    exact iff_of_true rfl fun h => absurd h hin

/-- So is the removal, and then all tables have to go. -/
theorem removesOwn_iff (ids : List Nat) : RemovesOwn dataDir numLevels added ids ↔
    ∀ i ∈ ids, idPattern i <:+: dataDir → ∀ f ∈ added, f.id ∈ ids := by
  have hmatch : ∀ f : Flushed, (!ids.any ((f.table dataDir).matchesId ·)) = true ↔
      ∀ i ∈ ids, ¬(f.id = i ∨ idPattern i <:+: dataDir) := by
    intro f
    simp only [Bool.not_eq_true', List.any_eq_false, matchesId_table]
  have hlevel : ∀ i, ((ofFlushed dataDir numLevels added).removeSSTablesByIds ids).level i =
      ((added.filter fun f => f.id ∉ ids).map Flushed.tableMeta).filter fun m => m.level = i := by
    intro i
    rw [level_removeSSTablesByIds, level_ofFlushed, List.filter_filter, List.filter_map, List.filter_map,
      List.filter_filter]
    congr 1
    apply List.filter_congr
    intro f _
    have hid : f.tableMeta.id = f.id := rfl
    simp [hid, Bool.and_comm]
  unfold RemovesOwn removeSSTablesByIds
  dsimp only
  rw [sstables_ofFlushed, List.filter_map]
  constructor
  · rintro ⟨htables, -⟩ i hi hin f hf
    have hnone : added.filter ((fun t : SSTable => !ids.any (t.matchesId ·)) ∘ Flushed.table dataDir) = [] := by
      rw [List.filter_eq_nil_iff]
      intro g _ hg
      exact (hmatch g).mp hg i hi (Or.inr hin)
    rw [hnone, List.map_nil] at htables
    have hleft := List.map_eq_nil_iff.mp htables.symm
    by_contra hnot
    exact List.filter_eq_nil_iff.mp hleft f hf (decide_eq_true hnot)
  · intro h
    refine ⟨?_, hlevel⟩
    congr 1
    apply List.filter_congr
    intro f hf
    rw [Function.comp_apply, Bool.eq_iff_iff, hmatch, decide_eq_true_eq]
    constructor
    · intro hno hmem
      exact hno f.id hmem (Or.inl rfl)
    · rintro hnot i hi (rfl | hin)
      · exact hnot hi
      · exact hnot (h i hi hin f hf)

/-- **Names and ids agree** exactly if the directory has no pattern of the id that is looked for, or the first table has
    that id, and no pattern of an id that is removed, or every table is. -/
theorem idsAgree_iff (dataDir : Bytes) (numLevels : Nat) (added : List Flushed) (id : Nat) (ids : List Nat) :
    FindsOwn dataDir numLevels added id ∧ RemovesOwn dataDir numLevels added ids ↔
      (idPattern id <:+: dataDir → ∀ f, added.head? = some f → f.id = id) ∧
        ∀ i ∈ ids, idPattern i <:+: dataDir → ∀ f ∈ added, f.id ∈ ids :=
  and_congr (findsOwn_iff id) (removesOwn_iff ids)

/-- Two tables in a directory named after a version. -/
def versionedTables : List Flushed :=
  [⟨SortedMap.empty.insert (Bytes.ascii "a") ⟨Bytes.ascii "1", 1, .put⟩,
      ⟨1, Bytes.ascii "a", Bytes.ascii "a", 1, 100, 0⟩⟩,
    ⟨SortedMap.empty.insert (Bytes.ascii "b") ⟨Bytes.ascii "2", 2, .put⟩,
      ⟨2, Bytes.ascii "b", Bytes.ascii "b", 2, 100, 0⟩⟩]

omit [Platform] in
/-- In `kv_2.0` the first table is taken for the one with id 2, and removing id 2 removes both. -/
theorem ids_not_agree : letI := Platform.sample
    ¬ FindsOwn (Bytes.ascii "kv_2.0") 4 versionedTables 2 ∧
      ¬ RemovesOwn (Bytes.ascii "kv_2.0") 4 versionedTables [2] := by
  let := Platform.sample
  rw [findsOwn_iff, removesOwn_iff]
  decide

end TableVersion

end KvStorageEngine
