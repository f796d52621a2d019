import KvStorageEngine.Engine.Compaction

/-!
# `Engine.Correctness.VersionWf` — well-formed versions

Metadata and tables are two lists that only a file name joins. `Joined` says that the join is one to one and
that the metadata tells the truth about the tables; `Wf` adds what the search of the deeper levels relies
on, that they are sorted into disjoint ranges. The edits of a version (`addSSTable`, `removeSSTablesByIds`,
the sort of a level) keep `Joined` each on their own; `Wf` is a matter of what is added where.

Layout of the file:
* **A** — what each edit does to one level.
* **B** — `Joined`, and the lookup of a table by id under it.
* **C** — `Joined` through the edits.
* **D** — `Wf`, and what a version `Holds`.
* **E**, **F** — `Wf` and `Holds` through the edits of the flush thread and of a compaction.
-/

namespace KvStorageEngine

variable [Platform]

namespace TableVersion

/-! ## A. One level under each edit

Both edits go through `roomFor` and `modify` on the list of levels. Read level by level they are plain list
operations: `addSSTable` appends to one level, `removeSSTablesByIds` filters every level. -/

omit [Platform] in
/-- Resizing to no fewer levels changes no level. -/
theorem getD_resizeLevels (levels : List (List SSTableMeta)) {n : Nat} (h : levels.length ≤ n) (i : Nat) :
    (resizeLevels levels n).getD i [] = levels.getD i [] := by
  rw [resizeLevels, List.take_of_length_le h, List.getD_eq_getElem?_getD, List.getD_eq_getElem?_getD]
  by_cases hi : i < levels.length
  · rw [List.getElem?_append_left hi]
  · rw [List.getElem?_append_right (by omega), List.getElem?_replicate,
      List.getElem?_eq_none (l := levels) (by omega)]
    split_ifs <;> rfl

omit [Platform] in
theorem flatten_resizeLevels (levels : List (List SSTableMeta)) {n : Nat} (h : levels.length ≤ n) :
    (resizeLevels levels n).flatten = levels.flatten := by
  rw [resizeLevels, List.take_of_length_le h, List.flatten_append, List.flatten_replicate_nil,
    List.append_nil]

omit [Platform] in
theorem length_resizeLevels (levels : List (List SSTableMeta)) (n : Nat) :
    (resizeLevels levels n).length = n := by
  rw [resizeLevels, List.length_append, List.length_take, List.length_replicate]
  omega

omit [Platform] in
theorem lt_length_roomFor (levels : List (List SSTableMeta)) (level : Nat) :
    level < (roomFor levels level).length := by
  unfold roomFor
  split_ifs with h
  · rw [length_resizeLevels]; omega
  · omega

omit [Platform] in
theorem getD_roomFor (levels : List (List SSTableMeta)) (level i : Nat) :
    (roomFor levels level).getD i [] = levels.getD i [] := by
  unfold roomFor
  split_ifs with h
  · exact getD_resizeLevels levels (by omega) i
  · rfl

omit [Platform] in
theorem flatten_roomFor (levels : List (List SSTableMeta)) (level : Nat) :
    (roomFor levels level).flatten = levels.flatten := by
  unfold roomFor
  split_ifs with h
  · exact flatten_resizeLevels levels (by omega)
  · rfl

omit [Platform] in
theorem getD_modify {levels : List (List SSTableMeta)} (f : List SSTableMeta → List SSTableMeta)
    {n : Nat} (hn : n < levels.length) (i : Nat) :
    (levels.modify n f).getD i [] = if i = n then f (levels.getD i []) else levels.getD i [] := by
  rw [List.getD_eq_getElem?_getD, List.getD_eq_getElem?_getD, List.getElem?_modify]
  split_ifs with h h' h'
  · subst h
    rw [List.getElem?_eq_getElem hn]
    rfl
  · exact absurd h.symm h'
  · exact absurd h'.symm h
  · cases levels[i]? <;> rfl

omit [Platform] in
/-- Replacing one level by a list with the same elements and `extra` more. -/
theorem flatten_modify_perm {levels : List (List SSTableMeta)} {f : List SSTableMeta → List SSTableMeta}
    (extra : List SSTableMeta) (hf : ∀ l, (f l).Perm (extra ++ l)) {n : Nat} (hn : n < levels.length) :
    (levels.modify n f).flatten.Perm (extra ++ levels.flatten) := by
  induction levels generalizing n with
  | nil => exact absurd hn (by simp)
  | cons l levels ih =>
      cases n with
      | zero =>
          show (f l ++ levels.flatten).Perm _
          rw [List.flatten_cons, ← List.append_assoc]
          exact (hf l).append_right _
      | succ n =>
          show (l ++ (levels.modify n f).flatten).Perm _
          have ih := ih (n := n) (by simpa using hn)
          apply (ih.append_left l).trans
          rw [List.flatten_cons, ← List.append_assoc, ← List.append_assoc]
          exact List.perm_append_comm.append_right _

theorem levels_addSSTable (v : TableVersion) (sst : SSTable) (m : SSTableMeta) :
    (v.addSSTable sst m).levels = (roomFor v.levels m.level).modify m.level (· ++ [m]) := rfl

@[simp] theorem sstables_addSSTable (v : TableVersion) (sst : SSTable) (m : SSTableMeta) :
    (v.addSSTable sst m).sstables = v.sstables ++ [sst] := rfl

/-- `addSSTable`, level by level. -/
theorem level_addSSTable (v : TableVersion) (sst : SSTable) (m : SSTableMeta) (i : Nat) :
    (v.addSSTable sst m).level i = if i = m.level then v.level i ++ [m] else v.level i := by
  rw [level, levels_addSSTable, getD_modify _ (lt_length_roomFor _ _), getD_roomFor]
  rfl

/-- `removeSSTablesByIds`, level by level. -/
theorem level_removeSSTablesByIds (v : TableVersion) (ids : List Nat) (i : Nat) :
    (v.removeSSTablesByIds ids).level i = (v.level i).filter fun m => !ids.contains m.id := by
  simp only [level, removeSSTablesByIds, List.getD_eq_getElem?_getD, List.getElem?_map]
  cases v.levels[i]? <;> rfl

/-- All metadata of a version. -/
def metas (v : TableVersion) : List SSTableMeta := v.levels.flatten

theorem mem_metas {v : TableVersion} {m : SSTableMeta} : m ∈ v.metas ↔ ∃ i, m ∈ v.level i := by
  unfold metas level
  rw [List.mem_flatten]
  constructor
  · rintro ⟨l, hl, hm⟩
    obtain ⟨i, hi⟩ := List.mem_iff_getElem?.mp hl
    exact ⟨i, by rwa [List.getD_eq_getElem?_getD, hi]⟩
  · rintro ⟨i, hm⟩
    rw [List.getD_eq_getElem?_getD] at hm
    cases hl : v.levels[i]? with
    | none => rw [hl] at hm; exact absurd hm List.not_mem_nil
    | some l =>
        rw [hl] at hm
        exact ⟨l, List.mem_of_getElem? hl, hm⟩

theorem mem_metas_of_level {v : TableVersion} {m : SSTableMeta} {i : Nat} (h : m ∈ v.level i) :
    m ∈ v.metas := mem_metas.mpr ⟨i, h⟩

/-- All metadata after an `addSSTable`, up to their order. -/
theorem metas_addSSTable (v : TableVersion) (sst : SSTable) (m : SSTableMeta) :
    (v.addSSTable sst m).metas.Perm (m :: v.metas) := by
  unfold metas
  rw [levels_addSSTable]
  have h := flatten_modify_perm (f := (· ++ [m])) [m]
    (fun l => List.perm_append_comm) (lt_length_roomFor v.levels m.level)
  rwa [flatten_roomFor] at h

theorem metas_removeSSTablesByIds (v : TableVersion) (ids : List Nat) :
    (v.removeSSTablesByIds ids).metas = v.metas.filter fun m => !ids.contains m.id := by
  rw [metas, metas, List.filter_flatten]
  rfl

/-! ## B. Metadata and tables

A version keeps its metadata and its tables apart and joins them by file name. `Joined` says that the join is exact:
every piece of metadata has its table, every table its metadata, and ids and paths determine each other. With a data
directory that contains no id pattern, the textual match of `findSSTableById` is then equality of ids. -/

/-- Metadata and tables correspond: ids are used once and were given out already, the tables are the files of
    the ids, and the metadata repeats each table's range. -/
structure Joined (dataDir : Bytes) (n : Nat) (v : TableVersion) : Prop where
  ids_nodup : v.ids.Nodup
  ids_le : ∀ m ∈ v.metas, m.id ≤ n
  tables : (v.sstables.map (·.path)).Perm (v.ids.map (sstablePath (sstableDir dataDir)))
  range : ∀ m ∈ v.metas, ∀ t ∈ v.sstables, t.path = sstablePath (sstableDir dataDir) m.id →
    t.minKey = m.minKey ∧ t.maxKey = m.maxKey
  range_le : ∀ m ∈ v.metas, m.minKey ≤ m.maxKey

omit [Platform] in
/-- Tables with one path have one id. -/
theorem sstablePath_inj {dir : Bytes} {m n : Nat} (h : sstablePath dir m = sstablePath dir n) : m = n := by
  unfold sstablePath at h
  exact Bytes.toDecimal_inj (List.append_cancel_left (List.append_cancel_right h))

theorem ids_eq (v : TableVersion) : v.ids = v.metas.map (·.id) := rfl

section Joined

variable {dataDir : Bytes} {n : Nat} {v : TableVersion}

/-- Every table's path is that of an id in the levels. -/
theorem Joined.exists_id (h : Joined dataDir n v) {t : SSTable} (ht : t ∈ v.sstables) :
    ∃ m ∈ v.metas, t.path = sstablePath (sstableDir dataDir) m.id := by
  have hmem := h.tables.subset (List.mem_map_of_mem (f := (·.path)) ht)
  rw [ids_eq, List.map_map] at hmem
  obtain ⟨m, hm, he⟩ := List.mem_map.mp hmem
  exact ⟨m, hm, he.symm⟩

/-- Every id in the levels has its table. -/
theorem Joined.exists_table (h : Joined dataDir n v) {m : SSTableMeta} (hm : m ∈ v.metas) :
    ∃ t ∈ v.sstables, t.path = sstablePath (sstableDir dataDir) m.id := by
  have hmem : sstablePath (sstableDir dataDir) m.id ∈ v.sstables.map (·.path) := by
    rw [h.tables.mem_iff, ids_eq, List.map_map]
    exact List.mem_map_of_mem (f := fun m : SSTableMeta => sstablePath (sstableDir dataDir) m.id) hm
  obtain ⟨t, ht, he⟩ := List.mem_map.mp hmem
  exact ⟨t, ht, he⟩

/-- No two tables share a path. -/
theorem Joined.eq_of_path_eq (h : Joined dataDir n v) {t t' : SSTable} (ht : t ∈ v.sstables)
    (ht' : t' ∈ v.sstables) (hp : t.path = t'.path) : t = t' := by
  have hnd : (v.sstables.map (·.path)).Nodup := by
    rw [h.tables.nodup_iff]
    exact h.ids_nodup.map fun _ _ he => sstablePath_inj he
  exact List.inj_on_of_nodup_map hnd ht ht' hp

/-- With an exact directory a table matches an id when its path is the id's path. -/
theorem Joined.matchesId_iff (h : Joined dataDir n v) (hdir : ExactIds dataDir) {t : SSTable}
    (ht : t ∈ v.sstables) (id : Nat) :
    t.matchesId id = true ↔ t.path = sstablePath (sstableDir dataDir) id := by
  obtain ⟨m, -, hp⟩ := h.exists_id ht
  rw [matchesId_sstablePath hdir hp, hp]
  constructor
  · rintro rfl; rfl
  · exact sstablePath_inj

/-- **The lookup by id** finds the table with the id's path. -/
theorem Joined.findSSTableById_eq_some (h : Joined dataDir n v) (hdir : ExactIds dataDir) {id : Nat}
    {t : SSTable} : v.findSSTableById id = some t ↔
      t ∈ v.sstables ∧ t.path = sstablePath (sstableDir dataDir) id := by
  unfold findSSTableById
  constructor
  · intro hf
    have ht := List.mem_of_find?_eq_some hf
    exact ⟨ht, (h.matchesId_iff hdir ht id).mp (List.find?_some (p := fun x : SSTable => x.matchesId id) hf)⟩
  · rintro ⟨ht, hp⟩
    cases hf : v.sstables.find? (·.matchesId id) with
    | none =>
        have := List.find?_eq_none.mp hf t ht
        exact absurd ((h.matchesId_iff hdir ht id).mpr hp) this
    | some t' =>
        have ht' := List.mem_of_find?_eq_some hf
        have hp' := (h.matchesId_iff hdir ht' id).mp (List.find?_some (p := fun x : SSTable => x.matchesId id) hf)
        rw [h.eq_of_path_eq ht' ht (hp'.trans hp.symm)]

/-- The lookup succeeds on every id in the levels. -/
theorem Joined.findSSTableById_isSome (h : Joined dataDir n v) (hdir : ExactIds dataDir)
    {m : SSTableMeta} (hm : m ∈ v.metas) : ∃ t, v.findSSTableById m.id = some t := by
  obtain ⟨t, ht, hp⟩ := h.exists_table hm
  exact ⟨t, (h.findSSTableById_eq_some hdir).mpr ⟨ht, hp⟩⟩

/-- A fresh id finds nothing. -/
theorem Joined.findSSTableById_fresh (h : Joined dataDir n v) (hdir : ExactIds dataDir) {id : Nat}
    (hid : n < id) : v.findSSTableById id = none := by
  cases hf : v.findSSTableById id with
  | none => rfl
  | some t =>
      obtain ⟨ht, hp⟩ := (h.findSSTableById_eq_some hdir).mp hf
      obtain ⟨m, hm, hp'⟩ := h.exists_id ht
      have := h.ids_le m hm
      rw [hp] at hp'
      rw [← sstablePath_inj hp'] at this
      omega

/-- The metadata of an id says which range its table has. -/
theorem Joined.range_of_find (h : Joined dataDir n v) (hdir : ExactIds dataDir) {m : SSTableMeta}
    (hm : m ∈ v.metas) {t : SSTable} (ht : v.findSSTableById m.id = some t) :
    t.minKey = m.minKey ∧ t.maxKey = m.maxKey := by
  obtain ⟨ht, hp⟩ := (h.findSSTableById_eq_some hdir).mp ht
  exact h.range m hm t ht hp

/-- An id occurs in one level only, and there once. -/
theorem Joined.eq_of_id_eq (h : Joined dataDir n v) {m m' : SSTableMeta} {i j : Nat}
    (hm : m ∈ v.level i) (hm' : m' ∈ v.level j) (hid : m.id = m'.id) : i = j ∧ m = m' := by
  have hnd : v.metas.Nodup := List.Nodup.of_map _ h.ids_nodup
  obtain rfl : m = m' :=
    List.inj_on_of_nodup_map h.ids_nodup (mem_metas_of_level hm) (mem_metas_of_level hm') hid
  refine ⟨?_, rfl⟩
  have hpair := (List.pairwise_flatten.mp hnd).2
  have hget : ∀ {a}, m ∈ v.level a → ∃ ha : a < v.levels.length, m ∈ v.levels[a] := by
    intro a ha
    unfold level at ha
    rw [List.getD_eq_getElem?_getD] at ha
    by_cases hlt : a < v.levels.length
    · rw [List.getElem?_eq_getElem hlt] at ha
      exact ⟨hlt, ha⟩
    · rw [List.getElem?_eq_none (by omega)] at ha
      exact absurd ha List.not_mem_nil
  obtain ⟨hi, hmi⟩ := hget hm
  obtain ⟨hj, hmj⟩ := hget hm'
  rw [List.pairwise_iff_getElem] at hpair
  rcases lt_trichotomy i j with hlt | rfl | hlt
  · exact absurd rfl (hpair i j hi hj hlt m hmi m hmj)
  · rfl
  · exact absurd rfl (hpair j i hj hi hlt m hmj m hmi)

/-! ## C. The edits keep the join

Removing keeps `Joined` for any ids; adding keeps it for an id that is new and a table under that id's path. -/

/-- `Joined` looks at the tables and at the metadata up to order. -/
theorem Joined.of_perm {v' : TableVersion} (h : Joined dataDir n v) (hm : v'.metas.Perm v.metas)
    (hs : v'.sstables = v.sstables) : Joined dataDir n v' where
  ids_nodup := (hm.map _).nodup_iff.mpr h.ids_nodup
  ids_le m hm' := h.ids_le m (hm.mem_iff.mp hm')
  tables := by
    rw [hs]
    exact h.tables.trans ((hm.map (·.id)).map _).symm
  range m hm' t ht := h.range m (hm.mem_iff.mp hm') t (hs ▸ ht)
  range_le m hm' := h.range_le m (hm.mem_iff.mp hm')

/-- Removing ids removes their metadata and their tables. -/
theorem Joined.remove (h : Joined dataDir n v) (hdir : ExactIds dataDir) (ids : List Nat) :
    Joined dataDir n (v.removeSSTablesByIds ids) := by
  have hmetas := metas_removeSSTablesByIds v ids
  have hsub : ∀ m ∈ (v.removeSSTablesByIds ids).metas, m ∈ v.metas := by
    intro m hm
    rw [hmetas] at hm
    exact List.mem_of_mem_filter hm
  refine ⟨?_, fun m hm => h.ids_le m (hsub m hm), ?_,
    fun m hm t ht => h.range m (hsub m hm) t (List.mem_of_mem_filter ht),
    fun m hm => h.range_le m (hsub m hm)⟩
  · rw [ids_eq, hmetas]
    exact (List.filter_sublist.map _).nodup h.ids_nodup
  · -- both filters test the path, so they commute with the correspondence
    let gone : Bytes → Bool := fun p => ids.any fun id => p = sstablePath (sstableDir dataDir) id
    have htables : (v.removeSSTablesByIds ids).sstables.map (·.path)
        = (v.sstables.map (·.path)).filter (!gone ·) := by
      rw [List.filter_map]
      refine congrArg _ (List.filter_congr ?_)
      intro t ht
      refine congrArg (!·) (congrArg ids.any (funext ?_))
      intro id
      rw [Bool.eq_iff_iff, h.matchesId_iff hdir ht id, decide_eq_true_eq]
    have hids : (v.removeSSTablesByIds ids).ids.map (sstablePath (sstableDir dataDir))
        = (v.ids.map (sstablePath (sstableDir dataDir))).filter (!gone ·) := by
      rw [ids_eq, ids_eq, hmetas, List.map_map, List.map_map, List.filter_map]
      refine congrArg _ (List.filter_congr ?_)
      intro m _
      refine congrArg (!·) (Bool.eq_iff_iff.mpr ?_)
      simp only [gone, Function.comp_apply, List.contains_iff_mem, List.any_eq_true, decide_eq_true_eq]
      constructor
      · intro hm
        exact ⟨m.id, hm, rfl⟩
      · rintro ⟨id, hid, hp⟩
        exact sstablePath_inj hp ▸ hid
    rw [htables, hids]
    exact h.tables.filter _

/-- Adding a table under the next id, with metadata that repeats its range. -/
theorem Joined.add (h : Joined dataDir n v) {sst : SSTable} {m : SSTableMeta} (hid : m.id = n + 1)
    (hpath : sst.path = sstablePath (sstableDir dataDir) m.id)
    (hrange : sst.minKey = m.minKey ∧ sst.maxKey = m.maxKey) (hle : m.minKey ≤ m.maxKey) :
    Joined dataDir (n + 1) (v.addSSTable sst m) := by
  have hmetas := metas_addSSTable v sst m
  have hmem : ∀ x ∈ (v.addSSTable sst m).metas, x = m ∨ x ∈ v.metas := fun x hx =>
    List.mem_cons.mp (hmetas.mem_iff.mp hx)
  -- ids so far are at most `n`, so the new one is unused
  have hne : ∀ x ∈ v.metas, x.id ≠ m.id := by
    intro x hx he
    have := h.ids_le x hx
    omega
  refine ⟨?_, ?_, ?_, ?_, ?_⟩
  · rw [ids_eq, (hmetas.map _).nodup_iff, List.map_cons, List.nodup_cons]
    refine ⟨?_, h.ids_nodup⟩
    intro hmem
    obtain ⟨x, hx, he⟩ := List.mem_map.mp hmem
    exact hne x hx he
  · intro x hx
    rcases hmem x hx with rfl | hx
    · exact hid.le
    · have := h.ids_le x hx
      omega
  · rw [ids_eq, sstables_addSSTable, List.map_append]
    refine List.Perm.trans ?_ ((hmetas.map _).map _).symm
    apply (h.tables.append_right _).trans
    rw [List.map_cons, List.map_nil, hpath]
    exact List.perm_append_comm
  · intro x hx t ht hp
    rcases hmem x hx with rfl | hx <;> rcases List.mem_append.mp ht with ht | ht
    · obtain ⟨y, hy, hp'⟩ := h.exists_id ht
      exact absurd (sstablePath_inj (hp'.symm.trans hp)) (hne y hy)
    · obtain rfl := List.mem_singleton.mp ht
      exact hrange
    · exact h.range x hx t ht hp
    · rw [List.mem_singleton.mp ht] at hp
      exact absurd (sstablePath_inj (hp.symm.trans hpath)) (hne x hx)
  · intro x hx
    rcases hmem x hx with rfl | hx
    · exact hle
    · exact h.range_le x hx

/-- Removing some ids does not change what the others find. -/
theorem Joined.findSSTableById_remove (h : Joined dataDir n v) (hdir : ExactIds dataDir)
    {ids : List Nat} {id : Nat} (hid : id ∉ ids) :
    (v.removeSSTablesByIds ids).findSSTableById id = v.findSSTableById id := by
  apply Option.ext
  intro t
  rw [(h.remove hdir ids).findSSTableById_eq_some hdir, h.findSSTableById_eq_some hdir]
  apply and_congr_left
  intro hp
  show t ∈ v.sstables.filter _ ↔ _
  rw [List.mem_filter]
  apply and_iff_left_of_imp
  intro ht
  simp only [Bool.not_eq_true', List.any_eq_false]
  intro id' hid' hm
  rw [h.matchesId_iff hdir ht, hp] at hm
  exact hid (sstablePath_inj hm ▸ hid')

/-- The new id finds the new table, every other id what it found before. -/
theorem Joined.findSSTableById_add (h : Joined dataDir n v) (hdir : ExactIds dataDir) {sst : SSTable}
    {m : SSTableMeta} (hid : m.id = n + 1) (hpath : sst.path = sstablePath (sstableDir dataDir) m.id)
    (id : Nat) : (v.addSSTable sst m).findSSTableById id =
      if id = m.id then some sst else v.findSSTableById id := by
  unfold findSSTableById
  rw [sstables_addSSTable, List.find?_append]
  have hmatch : sst.matchesId id = true ↔ m.id = id := matchesId_sstablePath hdir hpath id
  split_ifs with he
  · have hnone : v.sstables.find? (·.matchesId id) = none :=
      h.findSSTableById_fresh hdir (by omega)
    rw [hnone, List.find?_cons_of_pos (p := fun x : SSTable => x.matchesId id)
      (hmatch.mpr he.symm), Option.none_or]
  · have hnot : ¬ sst.matchesId id = true := fun hm => he (hmatch.mp hm).symm
    rw [List.find?_cons_of_neg (p := fun x : SSTable => x.matchesId id) hnot, List.find?_nil,
      Option.or_none]

end Joined

/-! ## D. Well-formed versions

`Wf` adds what a search relies on: below level 0 the files of a level are apart and in order. `Holds` is what a
version says about a key at a level, whichever file says it. -/

/-- A version in which the metadata and the tables correspond and every level from 1 on is sorted into
    disjoint ranges. -/
structure Wf (dataDir : Bytes) (n : Nat) (v : TableVersion) : Prop extends Joined dataDir n v where
  disjoint : ∀ i, 0 < i → (v.level i).Pairwise fun a b => a.maxKey < b.minKey

/-- The table of `m` has the record `e` of `k`. -/
def HoldsAt (v : TableVersion) (m : SSTableMeta) (k : Bytes) (e : Entry) : Prop :=
  ∃ t, v.findSSTableById m.id = some t ∧ t.records.find? k = some e

/-- Some table of level `i` has the record `e` of `k`. -/
def Holds (v : TableVersion) (i : Nat) (k : Bytes) (e : Entry) : Prop :=
  ∃ m ∈ v.level i, v.HoldsAt m k e

/-- The empty store. -/
theorem level_initial (i : Nat) : initial.level i = [] := by
  unfold level initial
  rw [List.getD_eq_getElem?_getD, List.getElem?_replicate]
  split_ifs <;> rfl

theorem wf_initial (dataDir : Bytes) (n : Nat) : Wf dataDir n initial := by
  have hmetas : initial.metas = [] := rfl
  refine ⟨⟨List.nodup_nil, ?_, List.Perm.refl _, ?_, ?_⟩, ?_⟩
  · simp [hmetas]
  · simp [hmetas]
  · simp [hmetas]
  · intro i _
    rw [level_initial]
    exact List.Pairwise.nil

theorem not_holds_initial (i : Nat) (k : Bytes) (e : Entry) : ¬ initial.Holds i k e := by
  rintro ⟨m, hm, -⟩
  rw [level_initial] at hm
  exact absurd hm List.not_mem_nil

section Wf

variable {dataDir : Bytes} {n : Nat} {v : TableVersion}

/-- A record's key is in the range of its file. -/
theorem Joined.in_range (h : Joined dataDir n v) (hdir : ExactIds dataDir) {m : SSTableMeta}
    (hm : m ∈ v.metas) {k : Bytes} {e : Entry} (he : v.HoldsAt m k e) :
    m.minKey ≤ k ∧ k ≤ m.maxKey := by
  obtain ⟨t, ht, hk⟩ := he
  obtain ⟨hlo, hhi⟩ := h.range_of_find hdir hm ht
  have := t.in_range k e hk
  rwa [hlo, hhi] at this

/-- Two different files of a sorted level lie apart. -/
theorem Wf.apart (h : Wf dataDir n v) {i : Nat} (hi : 0 < i) {a b : SSTableMeta} (ha : a ∈ v.level i)
    (hb : b ∈ v.level i) (hne : a ≠ b) : a.maxKey < b.minKey ∨ b.maxKey < a.minKey := by
  have hpair := List.pairwise_iff_getElem.mp (h.disjoint i hi)
  obtain ⟨x, hx, rfl⟩ := List.mem_iff_getElem.mp ha
  obtain ⟨y, hy, rfl⟩ := List.mem_iff_getElem.mp hb
  rcases lt_trichotomy x y with hxy | rfl | hxy
  · exact Or.inl (hpair x y hx hy hxy)
  · exact absurd rfl hne
  · exact Or.inr (hpair y x hy hx hxy)

/-! ## E. The edits on what a version holds

The same edits once more, as changes of the relation `Holds`. From here on nobody looks at lists of metadata again. -/

variable {ids : List Nat} {sst : SSTable} {m : SSTableMeta} {i : Nat} {k : Bytes} {e : Entry}

/-- After a removal the version holds what the files that stay hold. -/
theorem Joined.holds_remove (h : Joined dataDir n v) (hdir : ExactIds dataDir) :
    (v.removeSSTablesByIds ids).Holds i k e ↔ ∃ x ∈ v.level i, x.id ∉ ids ∧ v.HoldsAt x k e := by
  unfold Holds HoldsAt
  rw [level_removeSSTablesByIds]
  constructor
  · rintro ⟨x, hx, t, ht, hk⟩
    obtain ⟨hx, hid⟩ := List.mem_filter.mp hx
    have hid : x.id ∉ ids := by simpa using hid
    rw [h.findSSTableById_remove hdir hid] at ht
    exact ⟨x, hx, hid, t, ht, hk⟩
  · rintro ⟨x, hx, hid, t, ht, hk⟩
    refine ⟨x, List.mem_filter.mpr ⟨hx, by simpa using hid⟩, t, ?_, hk⟩
    rw [h.findSSTableById_remove hdir hid]
    exact ht

/-- A version with a new table holds what it held, and the table's records on the table's level. -/
theorem Joined.holds_add (h : Joined dataDir n v) (hdir : ExactIds dataDir) (hid : m.id = n + 1)
    (hpath : sst.path = sstablePath (sstableDir dataDir) m.id) :
    (v.addSSTable sst m).Holds i k e ↔
      (i = m.level ∧ sst.records.find? k = some e) ∨ v.Holds i k e := by
  have hnew : (v.addSSTable sst m).HoldsAt m k e ↔ sst.records.find? k = some e := by
    unfold HoldsAt
    rw [h.findSSTableById_add hdir hid hpath, if_pos rfl]
    simp
  -- the files there were find their tables as before
  have hold : ∀ x ∈ v.level i, ((v.addSSTable sst m).HoldsAt x k e ↔ v.HoldsAt x k e) := by
    intro x hx
    have := h.ids_le x (mem_metas_of_level hx)
    unfold HoldsAt
    rw [h.findSSTableById_add hdir hid hpath, if_neg (by omega)]
  unfold Holds
  rw [level_addSSTable]
  split_ifs with hi
  · simp only [List.mem_append, List.mem_singleton]
    constructor
    · rintro ⟨x, hx | rfl, hxe⟩
      · exact Or.inr ⟨x, hx, (hold x hx).mp hxe⟩
      · exact Or.inl ⟨hi, hnew.mp hxe⟩
    · rintro (⟨-, hk⟩ | ⟨x, hx, hxe⟩)
      · exact ⟨m, Or.inr rfl, hnew.mpr hk⟩
      · exact ⟨x, Or.inl hx, (hold x hx).mpr hxe⟩
  · constructor
    · rintro ⟨x, hx, hxe⟩
      exact Or.inr ⟨x, hx, (hold x hx).mp hxe⟩
    · rintro (⟨hi', -⟩ | ⟨x, hx, hxe⟩)
      · exact absurd hi' hi
      · exact ⟨x, hx, (hold x hx).mpr hxe⟩

/-- The sort permutes a level, so it changes nothing that is held. -/
theorem holds_of_level_perm {v' : TableVersion} (hs : v'.sstables = v.sstables)
    (hl : ∀ i, (v'.level i).Perm (v.level i)) : v'.Holds i k e ↔ v.Holds i k e := by
  unfold Holds HoldsAt findSSTableById
  rw [hs]
  simp only [(hl i).mem_iff]

omit [Platform] in
/-- A sorted level of files that pairwise lie apart is ordered range by range. -/
theorem disjoint_sortByMinKey {l : List SSTableMeta} (hle : ∀ a ∈ l, a.minKey ≤ a.maxKey)
    (hapart : l.Pairwise fun a b => a.maxKey < b.minKey ∨ b.maxKey < a.minKey) :
    (sortByMinKey l).Pairwise fun a b => a.maxKey < b.minKey := by
  have hperm : (sortByMinKey l).Perm l := List.perm_insertionSort _ l
  have hsorted : (sortByMinKey l).Pairwise fun a b => a.minKey ≤ b.minKey :=
    List.pairwise_insertionSort _ l
  have hapart : (sortByMinKey l).Pairwise fun a b => a.maxKey < b.minKey ∨ b.maxKey < a.minKey :=
    (hperm.pairwise_iff fun h => h.symm).mpr hapart
  refine (hsorted.and hapart).imp_of_mem fun {a b} _ hb h => ?_
  rcases h.2 with hab | hba
  · exact hab
  · have hb := hle b (hperm.mem_iff.mp hb)
    exact absurd (h.1.trans hb) (not_le.mpr hba)

/-! ## F. Installing the output of a compaction

A compaction removes its inputs, adds its output and sorts the target level by its smallest keys; both compactions and
the flush are cases of this. -/

/-- The levels after a compaction has installed its output. -/
theorem level_installMerged (v : TableVersion) (ids : List Nat) (sst : SSTable) (m : SSTableMeta)
    (i : Nat) : (v.installMerged ids sst m).level i =
      if i = m.level then sortByMinKey ((v.level i).filter (fun x => !ids.contains x.id) ++ [m])
      else (v.level i).filter fun x => !ids.contains x.id := by
  have hlt : m.level < ((v.removeSSTablesByIds ids).addSSTable sst m).levels.length := by
    rw [levels_addSSTable, List.length_modify]
    exact lt_length_roomFor _ _
  have h : (v.installMerged ids sst m).level i
      = if i = m.level then sortByMinKey (((v.removeSSTablesByIds ids).addSSTable sst m).level i)
        else ((v.removeSSTablesByIds ids).addSSTable sst m).level i := getD_modify sortByMinKey hlt i
  rw [h, level_addSSTable, level_removeSSTablesByIds]
  split_ifs <;> rfl

theorem level_installMerged_perm (v : TableVersion) (ids : List Nat) (sst : SSTable)
    (m : SSTableMeta) (i : Nat) : ((v.installMerged ids sst m).level i).Perm
      (((v.removeSSTablesByIds ids).addSSTable sst m).level i) := by
  rw [level_installMerged, level_addSSTable, level_removeSSTablesByIds]
  split_ifs
  · exact List.perm_insertionSort _ _
  · exact List.Perm.refl _

/-- The room `editLevelN` makes first would be made anyway. -/
theorem editLevelN_eq (v : TableVersion) (ids : List Nat) (sst : SSTable) (m : SSTableMeta) :
    editLevelN v ids sst m = v.installMerged ids sst m := by
  have hmap : (roomFor v.levels m.level).map (fun level => level.filter fun x => !ids.contains x.id)
      = roomFor (v.levels.map fun level => level.filter fun x => !ids.contains x.id) m.level := by
    unfold roomFor
    rw [List.length_map]
    split_ifs
    · simp [resizeLevels, List.map_take]
    · rfl
  have hroom : ∀ levels : List (List SSTableMeta),
      roomFor (roomFor levels m.level) m.level = roomFor levels m.level := fun levels => by
    have := lt_length_roomFor levels m.level
    rw [roomFor, if_neg (by omega)]
  unfold editLevelN installMerged addSSTable removeSSTablesByIds
  simp only [hmap, hroom]

/-- Installing the output of a compaction keeps the join. -/
theorem Joined.installMerged (h : Joined dataDir n v) (hdir : ExactIds dataDir) (hid : m.id = n + 1)
    (hpath : sst.path = sstablePath (sstableDir dataDir) m.id)
    (hrange : sst.minKey = m.minKey ∧ sst.maxKey = m.maxKey) (hle : m.minKey ≤ m.maxKey) :
    Joined dataDir (n + 1) (v.installMerged ids sst m) := by
  refine ((h.remove hdir ids).add hid hpath hrange hle).of_perm ?_ rfl
  refine flatten_modify_perm [] (fun l => List.perm_insertionSort _ l) ?_
  rw [levels_addSSTable, List.length_modify]
  exact lt_length_roomFor _ _

/-- The edit of a compaction keeps a version well-formed when the output lies apart from what stays on its
    level. -/
theorem Wf.installMerged (h : Wf dataDir n v) (hdir : ExactIds dataDir) (hid : m.id = n + 1)
    (hpath : sst.path = sstablePath (sstableDir dataDir) m.id)
    (hrange : sst.minKey = m.minKey ∧ sst.maxKey = m.maxKey) (hle : m.minKey ≤ m.maxKey)
    (hapart : ∀ x ∈ v.level m.level, x.id ∉ ids → x.maxKey < m.minKey ∨ m.maxKey < x.minKey) :
    Wf dataDir (n + 1) (v.installMerged ids sst m) := by
  refine ⟨h.toJoined.installMerged hdir hid hpath hrange hle, ?_⟩
  intro i hi
  have hkept := (h.disjoint i hi).sublist
    (List.filter_sublist (p := fun x => !ids.contains x.id))
  rw [level_installMerged]
  split_ifs with him
  · refine disjoint_sortByMinKey ?_ (List.pairwise_append.mpr
      ⟨hkept.imp Or.inl, List.pairwise_singleton _ _, ?_⟩)
    · intro a ha
      rcases List.mem_append.mp ha with ha | ha
      · exact h.range_le a (mem_metas_of_level (List.mem_of_mem_filter ha))
      · rw [List.mem_singleton.mp ha]
        exact hle
    · intro a ha b hb
      obtain ⟨ha, hid⟩ := List.mem_filter.mp ha
      rw [List.mem_singleton.mp hb]
      exact hapart a (him ▸ ha) (by simpa using hid)
  · exact hkept

/-- What a version holds after a compaction's edit: the output, and the files that were not removed. -/
theorem Joined.holds_installMerged (h : Joined dataDir n v) (hdir : ExactIds dataDir)
    (hid : m.id = n + 1) (hpath : sst.path = sstablePath (sstableDir dataDir) m.id) :
    (v.installMerged ids sst m).Holds i k e ↔ (i = m.level ∧ sst.records.find? k = some e) ∨
      ∃ x ∈ v.level i, x.id ∉ ids ∧ v.HoldsAt x k e := by
  have hsort : (v.installMerged ids sst m).Holds i k e ↔
      ((v.removeSSTablesByIds ids).addSSTable sst m).Holds i k e :=
    holds_of_level_perm rfl (level_installMerged_perm v ids sst m)
  rw [hsort, (h.remove hdir ids).holds_add hdir hid hpath, h.holds_remove hdir]

/-- The flush thread's edit keeps a version well-formed: level 0 may overlap. -/
theorem Wf.installFlushed (h : Wf dataDir n v) (hid : m.id = n + 1) (hlevel : m.level = 0)
    (hpath : sst.path = sstablePath (sstableDir dataDir) m.id)
    (hrange : sst.minKey = m.minKey ∧ sst.maxKey = m.maxKey) (hle : m.minKey ≤ m.maxKey) :
    Wf dataDir (n + 1) { v.addSSTable sst m with flushCounter := m.id } := by
  refine ⟨(h.toJoined.add hid hpath hrange hle).of_perm (List.Perm.refl _) rfl, ?_⟩
  intro i hi
  show ((v.addSSTable sst m).level i).Pairwise _
  rw [level_addSSTable, if_neg (by omega)]
  exact h.disjoint i hi

end Wf

end TableVersion

end KvStorageEngine
