import KvStorageEngine.Engine.Correctness.VersionUpdates

/-!
# `Engine.Correctness.CompactionInputs` — the inputs of a compaction of level 0

All of level 0, and what it overlaps in level 1. Whether `compactL0toL1` writes anything depends on the records of these
tables alone (`exists_planL0toL1`, `planL0toL1_eq_none`), and whether an input is `Gone` from the version that is
installed on the ids in it.
-/

namespace KvStorageEngine

open TableVersion

variable [Platform]

/-! ## A. The inputs and their records

The inputs of a level-0 compaction, and the records they hold. The merge leaves nothing exactly where the newest
record of every key is a tombstone. -/

/-- The metadata of the inputs of `compactL0toL1`: all of level 0, and what it overlaps in level 1. -/
def inputMetas (v : TableVersion) : List SSTableMeta :=
  match v.level 0 with
  | [] => []
  | m :: rest => m :: rest ++
      (v.level 1).filter (·.overlaps (keyRange m rest).1 (keyRange m rest).2)

/-- A file is not in a version: neither is its metadata, nor is there a table for its id. -/
def Gone (v : TableVersion) (id : Nat) : Prop := (∀ m ∈ v.metas, m.id ≠ id) ∧ v.findSSTableById id = none

/-- A record of the inputs. -/
def InputRecord (v : TableVersion) (k : Bytes) (e : Entry) : Prop :=
  ∃ m ∈ inputMetas v, ∃ t, v.findSSTableById m.id = some t ∧ t.records.find? k = some e

/-- Records of one key in the inputs are told apart by their sequence numbers. -/
def DistinctSeqs (v : TableVersion) : Prop :=
  ∀ k e e', InputRecord v k e → InputRecord v k e' → e.seq = e'.seq → e = e'

/-- Some key has a put as its newest record in the inputs. -/
def SomePutLeft (v : TableVersion) : Prop :=
  ∃ k e, InputRecord v k e ∧ (∀ e', InputRecord v k e' → e'.seq ≤ e.seq) ∧ e.type = .put

variable {v : TableVersion}

/-- The plan is the merge of all its inputs that have a table. -/
theorem planL0toL1_eq (h : v.level 0 ≠ []) : planL0toL1 v = mergePlan (v.tablesOf (inputMetas v)) 1 := by
  obtain ⟨m, rest, hl⟩ := List.exists_cons_of_ne_nil h
  unfold planL0toL1 inputMetas tablesOf
  rw [hl]
  dsimp only
  rw [← List.filterMap_append]

theorem inputRecord_iff {k : Bytes} {e : Entry} : InputRecord v k e ↔
    ∃ t ∈ (v.tablesOf (inputMetas v)).map (·.2), t.records.find? k = some e := by
  constructor
  · rintro ⟨m, hm, t, ht, he⟩
    exact ⟨t, List.mem_map.mpr ⟨(m.id, t), mem_tablesOf.mpr ⟨m, hm, rfl, ht⟩, rfl⟩, he⟩
  · rintro ⟨t, ht, he⟩
    obtain ⟨p, hp, rfl⟩ := List.mem_map.mp ht
    obtain ⟨m, hm, -, hfind⟩ := mem_tablesOf.mp hp
    exact ⟨m, hm, p.2, hfind, he⟩

/-- The merge leaves something exactly if some key has a put as its newest record. -/
theorem mergeTables_isEmpty_iff (hseq : DistinctSeqs v) :
    (mergeTables ((v.tablesOf (inputMetas v)).map (·.2))).isEmpty = false ↔ SomePutLeft v := by
  have hties : ∀ k e e', (∃ t ∈ (v.tablesOf (inputMetas v)).map (·.2), t.records.find? k = some e) →
      (∃ t ∈ (v.tablesOf (inputMetas v)).map (·.2), t.records.find? k = some e') → e.seq = e'.seq → e = e' := by
    intro k e e' he he'
    exact hseq k e e' (inputRecord_iff.mpr he) (inputRecord_iff.mpr he')
  have hspec := mergeTables_spec hties
  rw [Bool.eq_false_iff, Ne, SortedMap.isEmpty_iff]
  constructor
  · intro h
    obtain ⟨k, hk⟩ := not_forall.mp h
    obtain ⟨e, he⟩ := Option.ne_none_iff_exists'.mp hk
    obtain ⟨⟨hin, hmax⟩, hput⟩ := (hspec k e).mp he
    exact ⟨k, e, inputRecord_iff.mpr hin, fun e' he' => hmax e' (inputRecord_iff.mp he'), hput⟩
  · rintro ⟨k, e, hin, hmax, hput⟩ h
    have hnone := h k
    rw [(hspec k e).mpr ⟨⟨inputRecord_iff.mp hin, fun e' he' => hmax e' (inputRecord_iff.mpr he')⟩, hput⟩] at hnone
    exact absurd hnone (by simp)

/-! ## B. The plan

So there is a plan exactly where some put is left. -/

/-- The ids that the compaction removes: those of the inputs that have a table. -/
def inputIds (v : TableVersion) : List Nat := (v.tablesOf (inputMetas v)).map (·.1)

theorem mem_inputIds {i : Nat} : i ∈ inputIds v ↔ ∃ m ∈ inputMetas v, m.id = i ∧ (v.findSSTableById i).isSome := by
  constructor
  · intro hi
    obtain ⟨p, hp, rfl⟩ := List.mem_map.mp hi
    obtain ⟨m, hm, hid, hfind⟩ := mem_tablesOf.mp hp
    refine ⟨m, hm, hid, ?_⟩
    rw [← hid, hfind]
    rfl
  · rintro ⟨m, hm, rfl, hsome⟩
    obtain ⟨t, ht⟩ := Option.isSome_iff_exists.mp hsome
    exact List.mem_map.mpr ⟨(m.id, t), mem_tablesOf.mpr ⟨m, hm, rfl, ht⟩, rfl⟩

/-- There is a plan if there is a put to write. -/
theorem exists_planL0toL1 (hne : v.level 0 ≠ []) (hseq : DistinctSeqs v) (hput : SomePutLeft v) :
    ∃ plan, planL0toL1 v = some plan ∧ plan.idsToRemove = inputIds v ∧ plan.targetLevel = 1 := by
  have hmerged := (mergeTables_isEmpty_iff hseq).mpr hput
  rw [planL0toL1_eq hne]
  unfold mergePlan
  dsimp only
  rw [if_neg (by rw [hmerged]; decide)]
  exact ⟨_, rfl, rfl, rfl⟩

/-- Without a put left there is no plan. -/
theorem planL0toL1_eq_none (hne : v.level 0 ≠ []) (hseq : DistinctSeqs v) (hnone : ¬ SomePutLeft v) :
    planL0toL1 v = none := by
  rw [planL0toL1_eq hne]
  unfold mergePlan
  dsimp only
  rw [← mergeTables_isEmpty_iff hseq, Bool.not_eq_false] at hnone
  rw [if_pos hnone]

/-! ## C. The versions that are installed

The compaction's edit puts its inputs out, a flush's edit brings none of them back. -/

theorem mem_metas_of_mem_inputMetas {m : SSTableMeta} (h : m ∈ inputMetas v) : m ∈ v.metas := by
  unfold inputMetas at h
  split at h
  · exact absurd h List.not_mem_nil
  · rename_i m₀ rest hl
    rcases List.mem_append.mp h with h | h
    · exact mem_metas_of_level (i := 0) (hl ▸ h)
    · exact mem_metas_of_level (List.mem_of_mem_filter h)

theorem mem_inputMetas_of_level {m : SSTableMeta} (h : m ∈ v.level 0) : m ∈ inputMetas v := by
  unfold inputMetas
  split
  · rename_i hl
    rwa [hl] at h
  · rename_i m₀ rest hl
    exact List.mem_append_left _ (hl ▸ h)

/-- The files after the compaction's edit, -/
theorem mem_metas_installMerged {ids : List Nat} {sst : SSTable} {m x : SSTableMeta} :
    x ∈ (v.installMerged ids sst m).metas ↔ x = m ∨ (x ∈ v.metas ∧ x.id ∉ ids) := by
  have hperm : x ∈ (v.installMerged ids sst m).metas ↔ x ∈ ((v.removeSSTablesByIds ids).addSSTable sst m).metas := by
    rw [mem_metas, mem_metas]
    exact exists_congr fun i => (level_installMerged_perm v ids sst m i).mem_iff
  rw [hperm, (metas_addSSTable _ _ _).mem_iff, List.mem_cons, metas_removeSSTablesByIds, List.mem_filter]
  simp

/-- and the tables. -/
theorem findSSTableById_installMerged {ids : List Nat} {sst : SSTable} {m : SSTableMeta} {id : Nat} (hid : id ∈ ids) :
    (v.installMerged ids sst m).findSSTableById id = if sst.matchesId id then some sst else none := by
  have hsstables : (v.installMerged ids sst m).sstables =
      (v.sstables.filter fun t => !ids.any (t.matchesId ·)) ++ [sst] := rfl
  have hold : (v.sstables.filter fun t => !ids.any (t.matchesId ·)).find? (·.matchesId id) = none := by
    rw [List.find?_eq_none]
    intro t ht hmatch
    have hno := (List.mem_filter.mp ht).2
    rw [Bool.not_eq_true', List.any_eq_false] at hno
    exact hno id hid hmatch
  unfold findSSTableById
  rw [hsstables, List.find?_append, hold, Option.none_or, List.find?_cons, List.find?_nil]
  cases sst.matchesId id <;> rfl

/-- An input that was removed is gone, unless the new table is taken for it. -/
theorem gone_installMerged_iff {dataDir : Bytes} {ids : List Nat} {sst : SSTable} {m : SSTableMeta}
    (hpath : sst.path = sstablePath (sstableDir dataDir) m.id) {id : Nat} (hid : id ∈ ids) :
    Gone (v.installMerged ids sst m) id ↔ id ≠ m.id ∧ ¬ idPattern id <:+: dataDir := by
  have hmatch := matchesId_iff_or hpath id
  unfold Gone
  rw [findSSTableById_installMerged hid]
  constructor
  · rintro ⟨hmetas, hnone⟩
    have hne : m.id ≠ id := hmetas m (mem_metas_installMerged.mpr (Or.inl rfl))
    refine ⟨hne.symm, ?_⟩
    intro hin
    rw [if_pos (hmatch.mpr (Or.inr hin))] at hnone
    exact absurd hnone (by simp)
  · rintro ⟨hne, hin⟩
    refine ⟨?_, if_neg ?_⟩
    · intro x hx hxid
      rcases mem_metas_installMerged.mp hx with rfl | ⟨-, hnot⟩
      · exact hne hxid.symm
      · exact hnot (hxid ▸ hid)
    · rw [hmatch]
      rintro (h | h)
      · exact hne h.symm
      · exact hin h

/-- A flush brings no file back, and puts none out but its own. -/
theorem gone_installFlushed_iff {dataDir : Bytes} {sst : SSTable} {m : SSTableMeta}
    (hpath : sst.path = sstablePath (sstableDir dataDir) m.id) {id : Nat} :
    Gone (StorageEngine.installFlushed v sst m) id ↔ Gone v id ∧ id ≠ m.id ∧ ¬ idPattern id <:+: dataDir := by
  have hmatch := matchesId_iff_or hpath id
  have hmetas : ∀ x, x ∈ (StorageEngine.installFlushed v sst m).metas ↔ x = m ∨ x ∈ v.metas := by
    intro x
    rw [← List.mem_cons]
    exact (metas_addSSTable v sst m).mem_iff
  have hfind : (StorageEngine.installFlushed v sst m).findSSTableById id = none ↔
      v.findSSTableById id = none ∧ sst.matchesId id = false := by
    show List.find? (·.matchesId id) (v.sstables ++ [sst]) = none ↔ List.find? (·.matchesId id) v.sstables = none ∧ _
    rw [List.find?_append, Option.or_eq_none_iff, List.find?_singleton]
    cases sst.matchesId id <;> simp
  unfold Gone
  rw [hfind, ← Bool.not_eq_true, hmatch, not_or]
  constructor
  · rintro ⟨hgone, hnone, hne, hin⟩
    exact ⟨⟨fun x hx => hgone x ((hmetas x).mpr (Or.inr hx)), hnone⟩, Ne.symm hne, hin⟩
  · rintro ⟨⟨hgone, hnone⟩, hne, hin⟩
    refine ⟨?_, hnone, Ne.symm hne, hin⟩
    intro x hx
    rcases (hmetas x).mp hx with rfl | hx
    · exact Ne.symm hne
    · exact hgone x hx

theorem Change.mem_metas_edit (c : Change) (hc : c.Wf) {m : SSTableMeta} :
    m ∈ (c.edit v).metas ↔ (m ∈ v.metas ∧ m.id ∉ c.idsToRemove) ∨ m = c.newMeta := by
  rw [mem_metas, mem_metas]
  constructor
  · rintro ⟨i, hm⟩
    rcases (c.mem_level_edit hc v).mp hm with ⟨hm, hid⟩ | ⟨-, rfl⟩
    · exact Or.inl ⟨⟨i, hm⟩, hid⟩
    · exact Or.inr rfl
  · rintro (⟨⟨i, hm⟩, hid⟩ | rfl)
    · exact ⟨i, (c.mem_level_edit hc v).mpr (Or.inl ⟨hm, hid⟩)⟩
    · exact ⟨_, (c.mem_level_edit hc v).mpr (Or.inr ⟨rfl, rfl⟩)⟩

/-- Records of one key that differ in age also differ in their sequence numbers. -/
theorem distinctSeqs_of_aged (h : Layered.Aged Entry.seq v.Holds) : DistinctSeqs v := by
  have hholds : ∀ k e, InputRecord v k e → ∃ i, v.Holds i k e := by
    rintro k e ⟨m, hm, hrecord⟩
    obtain ⟨i, hi⟩ := mem_metas.mp (mem_metas_of_mem_inputMetas hm)
    exact ⟨i, m, hi, hrecord⟩
  intro k e e' he he' hseq
  obtain ⟨i, hi⟩ := hholds k e he
  obtain ⟨j, hj⟩ := hholds k e' he'
  exact h.eq_of_seq_eq hi hj hseq

end KvStorageEngine
