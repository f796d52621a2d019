import KvStorageEngine.Engine.TableVersion
import KvStorageEngine.Engine.Merge

/-!
# `Engine.Compaction` — the two compactions as plan and edit

`StorageEngine::compactL0toL1` and `StorageEngine::compactlevelN` (`engine/src/engine.cpp`). Both read one
version, choose and merge their inputs, and later edit a *fresh* copy of whatever version is current by
then. The first half is a `CompactionPlan`, a function of the version read; the second is an edit of a
version. The two are kept apart so that other threads can move in between.
-/

namespace KvStorageEngine

variable [Platform]

/-- `klevelSizes`. -/
def levelSizes : List Nat := [0, 10 * 1024 * 1024, 100 * 1024 * 1024, 1024 * 1024 * 1024]

/-- `shouldCompactUnlocked`: level 0 is counted, the other levels are weighed. -/
def shouldCompactUnlocked (level : Nat) (v : TableVersion) : Bool :=
  if (v.level level).isEmpty then false
  else if level = 0 then decide (4 ≤ (v.level 0).length)
  else match levelSizes[level]? with
    | none => false
    | some limit => decide (limit < ((v.level level).map (·.sizeBytes)).sum % 2 ^ 64)

/-- What a compaction has decided once it has merged its inputs. -/
structure CompactionPlan where
  idsToRemove : List Nat
  targetLevel : Nat
  mergedData : SortedMap Bytes Entry

/-- `!(meta.maxKey < minKey || meta.minKey > maxKey)`. -/
def SSTableMeta.overlaps (m : SSTableMeta) (minKey maxKey : Bytes) : Bool :=
  !(m.maxKey < minKey || maxKey < m.minKey)

/-- The tables some metadata names, with their ids; metadata without a table is passed over. -/
def TableVersion.tablesOf (v : TableVersion) (metas : List SSTableMeta) : List (Nat × SSTable) :=
  metas.filterMap fun m => (v.findSSTableById m.id).map (m.id, ·)

theorem TableVersion.mem_tablesOf {v : TableVersion} {metas : List SSTableMeta} {p : Nat × SSTable} :
    p ∈ v.tablesOf metas ↔ ∃ m ∈ metas, m.id = p.1 ∧ v.findSSTableById m.id = some p.2 := by
  unfold tablesOf
  rw [List.mem_filterMap]
  constructor
  · rintro ⟨m, hm, h⟩
    obtain ⟨t, ht, rfl⟩ := Option.map_eq_some_iff.mp h
    exact ⟨m, hm, rfl, ht⟩
  · rintro ⟨m, hm, hid, ht⟩
    refine ⟨m, hm, ?_⟩
    rw [ht, Option.map_some, hid]

/-- The smallest range covering the ranges of `m :: metas`. -/
def keyRange (m : SSTableMeta) (metas : List SSTableMeta) : Bytes × Bytes :=
  metas.foldl
    (fun r x => (if x.minKey < r.1 then x.minKey else r.1, if r.2 < x.maxKey then x.maxKey else r.2))
    (m.minKey, m.maxKey)

/-- Merge the inputs; a compaction with an empty result gives up and changes nothing. -/
def mergePlan (inputs : List (Nat × SSTable)) (targetLevel : Nat) : Option CompactionPlan :=
  let mergedData := mergeTables (inputs.map (·.2))
  if mergedData.isEmpty then none else some ⟨inputs.map (·.1), targetLevel, mergedData⟩

/-- `compactL0toL1` up to the merge: all of level 0, and what it overlaps in level 1. -/
def planL0toL1 (oldVersion : TableVersion) : Option CompactionPlan :=
  match oldVersion.level 0 with
  | [] => none
  | m :: rest =>
    let range := keyRange m rest
    let l0 := oldVersion.tablesOf (m :: rest)
    let l1 := oldVersion.tablesOf ((oldVersion.level 1).filter (·.overlaps range.1 range.2))
    mergePlan (l0 ++ l1) 1

/-- `compactlevelN` up to the merge: the first file of the level, and what it overlaps one level down. -/
def planLevelN (oldVersion : TableVersion) (level : Nat) : Option CompactionPlan :=
  if level = 0 then none
  else match oldVersion.level level with
    | [] => none
    | src :: _ =>
      match oldVersion.findSSTableById src.id with
      | none => none
      | some srcTable =>
        let next := (oldVersion.level (level + 1)).filter (·.overlaps src.minKey src.maxKey)
        mergePlan ((src.id, srcTable) :: oldVersion.tablesOf next) (level + 1)

/-- The metadata of a freshly written table. -/
def SSTable.meta (t : SSTable) (id maxSeq level : Nat) : SSTableMeta :=
  ⟨id, t.minKey, t.maxKey, maxSeq, t.fileSize, level⟩

/-- `std::sort` of a level by `minKey`. -/
def sortByMinKey (level : List SSTableMeta) : List SSTableMeta :=
  level.insertionSort (fun a b => a.minKey ≤ b.minKey)

/-- The edit both compactions make to their copy: drop the inputs, add the output, sort its level. -/
def TableVersion.installMerged (v : TableVersion) (ids : List Nat) (sst : SSTable) (m : SSTableMeta) :
    TableVersion :=
  let v := (v.removeSSTablesByIds ids).addSSTable sst m
  { v with flushCounter := m.id, levels := v.levels.modify m.level sortByMinKey }

/-- The edit of `compactL0toL1`. -/
def editL0toL1 (newVersion : TableVersion) (ids : List Nat) (sst : SSTable) (m : SSTableMeta) :
    TableVersion := newVersion.installMerged ids sst m

/-- The edit of `compactlevelN`, which makes room for the target level first. -/
def editLevelN (newVersion : TableVersion) (ids : List Nat) (sst : SSTable) (m : SSTableMeta) :
    TableVersion :=
  { newVersion with levels := roomFor newVersion.levels m.level }.installMerged ids sst m

end KvStorageEngine
