import KvStorageEngine.Engine.Correctness.MetadataText
import KvStorageEngine.Engine.Correctness.EngineInvariant
import Mathlib.Data.List.TakeWhile

/-!
# `Engine.Correctness.LevelRoundTrip` — the levels through `levels.txt`

What `loadLevelMetadata` reads after `saveMetadata`, for any version. Reading can only yield tables whose
keys are words and which name the level they are put on (`parseLevels_wellPlaced`), so nothing else comes back,
and everything of that kind does (`loadLevelMetadata_saveMetadata_iff`). That a table names its level is true
of all versions the engine installs (`labelled_of_exec`); that its keys are words is up to the clients.
-/

namespace KvStorageEngine

open TextStream TableVersion Run

/-! ## A. What can be read

A line is read with `>>`, which stops at white space, so both keys of a table that was read are words, and `placeMeta`
puts it on the level that the line names. -/

/-- What `>>` reads into a string is a word. -/
theorem isWord_of_readWord {s word rest : Bytes} (h : readWord s = some (word, rest)) : IsWord word := by
  unfold readWord at h
  dsimp only at h
  split_ifs at h with hnil
  obtain ⟨rfl, -⟩ := Prod.mk.inj (Option.some.inj h)
  refine ⟨hnil, ?_⟩
  intro b hb
  simpa using List.mem_takeWhile_imp hb

/-- Whatever the line is, the keys read from it are words. -/
theorem hasWords_of_parseMeta {line : Bytes} {m : SSTableMeta} (h : parseMeta line = some m) :
    m.HasWords := by
  unfold parseMeta at h
  simp only [Option.bind_eq_bind, Option.bind_eq_some_iff, Option.some.injEq, Prod.exists] at h
  obtain ⟨id, _, -, level, _, -, minKey, _, hmin, maxKey, _, hmax, maxSeq, _, -, sizeBytes, _, -, rfl⟩ := h
  exact ⟨isWord_of_readWord hmin, isWord_of_readWord hmax⟩

/-- Tables with words for keys, each on the level it names. -/
def WellPlaced (levels : List (List SSTableMeta)) : Prop :=
  ∀ i, ∀ m ∈ levels.getD i [], m.level = i ∧ m.HasWords

theorem WellPlaced.placeMeta {levels : List (List SSTableMeta)} (h : WellPlaced levels) {m : SSTableMeta}
    (hm : m.HasWords) : WellPlaced (placeMeta levels m) := by
  intro i x hx
  rw [getD_placeMeta] at hx
  rcases List.mem_append.mp hx with hx | hx
  · exact h i x hx
  · split_ifs at hx with hi
    · rw [List.mem_singleton.mp hx]
      exact ⟨hi.symm, hm⟩
    · exact absurd hx List.not_mem_nil

/-- Whatever the lines are, what is read from them is well placed. -/
theorem parseLevels_wellPlaced {lines : List Bytes} {levels levels' : List (List SSTableMeta)}
    (h : WellPlaced levels) (hparse : parseLevels lines levels = some levels') : WellPlaced levels' := by
  induction lines generalizing levels with
  | nil => exact Option.some.inj hparse ▸ h
  | cons line lines ih =>
      rw [parseLevels] at hparse
      split_ifs at hparse
      · exact ih h hparse
      · obtain ⟨m, hm, hparse⟩ := Option.bind_eq_some_iff.mp hparse
        exact ih (h.placeMeta (hasWords_of_parseMeta hm)) hparse

variable [Platform]

/-! ## B. The versions of the engine

Every edit of the engine creates its metadata with the number of the level it adds the table to. -/

/-- Empty levels can be read. -/
theorem wellPlaced_initial : WellPlaced initial.levels := by
  intro i m hm
  change m ∈ initial.level i at hm
  rw [level_initial] at hm
  exact absurd hm List.not_mem_nil

namespace TableVersion

/-- Every table names the level it is on. -/
def Labelled (v : TableVersion) : Prop := ∀ i, ∀ m ∈ v.level i, m.level = i

theorem labelled_initial : initial.Labelled := by
  intro i m hm
  rw [level_initial] at hm
  exact absurd hm List.not_mem_nil

/-- What holds of all metadata by their levels still does with one more, put on the level it names. -/
theorem forall_level_addSSTable {v : TableVersion} {Q : Nat → SSTableMeta → Prop}
    (h : ∀ i, ∀ m ∈ v.level i, Q i m) (sst : SSTable) {m : SSTableMeta} (hm : Q m.level m) :
    ∀ i, ∀ x ∈ (v.addSSTable sst m).level i, Q i x := by
  intro i x hx
  rw [level_addSSTable] at hx
  split_ifs at hx with hi
  · rcases List.mem_append.mp hx with hx | hx
    · exact h i x hx
    · rw [List.mem_singleton.mp hx, hi]
      exact hm
  · exact h i x hx

/-- And after the edit of a compaction. -/
theorem forall_level_installMerged {v : TableVersion} {Q : Nat → SSTableMeta → Prop}
    (h : ∀ i, ∀ m ∈ v.level i, Q i m) (ids : List Nat) (sst : SSTable) {m : SSTableMeta}
    (hm : Q m.level m) : ∀ i, ∀ x ∈ (v.installMerged ids sst m).level i, Q i x := by
  intro i x hx
  have hx := (level_installMerged_perm v ids sst m i).mem_iff.mp hx
  refine forall_level_addSSTable (v := v.removeSSTablesByIds ids) ?_ sst hm i x hx
  intro j y hy
  rw [level_removeSSTablesByIds] at hy
  exact h j y (List.mem_of_mem_filter hy)

theorem Labelled.addSSTable {v : TableVersion} (h : v.Labelled) (sst : SSTable) (m : SSTableMeta) :
    (v.addSSTable sst m).Labelled := forall_level_addSSTable h sst rfl

theorem Labelled.installMerged {v : TableVersion} (h : v.Labelled) (ids : List Nat) (sst : SSTable)
    (m : SSTableMeta) : (v.installMerged ids sst m).Labelled := forall_level_installMerged h ids sst rfl

theorem Labelled.installFlushed {v : TableVersion} (h : v.Labelled) (sst : SSTable) (m : SSTableMeta) :
    (StorageEngine.installFlushed v sst m).Labelled := h.addSSTable sst m

end TableVersion

namespace StorageEngine

/-- A compaction names the level below for its output. -/
theorem labelled_afterPlan {s : StorageEngine} (h : s.version.Labelled) (plan : CompactionPlan) :
    (s.afterPlan plan).version.Labelled := by
  show (compacted s.version plan s.dataDir s.flushCounter (s.seqNumber - 1)).Labelled
  unfold compacted
  apply TableVersion.Labelled.installMerged
  exact h

/-- A step installs no version but with a table that names its level. -/
theorem labelled_step {s s' : StorageEngine} (h : s.version.Labelled) {op : EngineOp}
    (hs : s.step op = some s') : s'.version.Labelled := by
  cases Effect.of_step hs with
  | put key value => exact h
  | del key =>
      show (s.get key).2.version.Labelled
      rw [get_snd_version]
      exact h
  | get key =>
      rw [get_snd_version]
      exact h
  | rotate hs =>
      rw [(rotate_eq_some hs).2]
      exact h
  | flushInstall hs =>
      obtain ⟨imm, -, ⟨-, rfl⟩ | ⟨-, rfl⟩⟩ := flushInstall_eq_some hs
      · exact h
      · show (s.flushed imm).Labelled
        apply TableVersion.Labelled.installFlushed
        exact h
  | compactL0toL1 _ => exact labelled_afterPlan h _
  | compactlevelN _ => exact labelled_afterPlan h _
  | notDue _ => exact h
  | noneAtL0 _ => exact h
  | noneAtLevel _ => exact h

/-- **In every version the engine installs**, every table names the level it is on. -/
theorem labelled_of_exec {dataDir : Bytes} {cacheSize : Nat} {ops : List EngineOp} {s : StorageEngine}
    (h : exec step (init dataDir cacheSize) ops = some s) : s.version.Labelled :=
  exec_invariant (I := fun s => s.version.Labelled) labelled_initial
    (fun _ _ _ hinv hs => labelled_step hinv hs) h

end StorageEngine

/-! ## C. Saving and loading

For the versions that can be read the text is one line for each table, in order; for the others something is lost or
misread, and the equivalence says so without a hypothesis. -/

/-- The levels of the engine's version are read back after they were saved: the same tables, in the same order,
    on every level. -/
def LevelsComeBack (d : DataDir) (s : StorageEngine) : Prop :=
  ∃ v, loadLevelMetadata s.flushCounter (d.saveMetadata s).levels = some v ∧
    ∀ i, v.level i = s.version.level i

/-- **What survives `levels.txt`.** A version comes back exactly when every table names the level it is on and
    both its keys are words. -/
theorem loadLevelMetadata_saveMetadata_iff (d : DataDir) (s : StorageEngine) :
    LevelsComeBack d s ↔ ∀ i, ∀ m ∈ s.version.level i, m.level = i ∧ m.HasWords := by
  constructor
  · rintro ⟨v, hload, hlevel⟩ i m hm
    rw [← hlevel i] at hm
    unfold loadLevelMetadata at hload
    obtain ⟨levels, hparse, hv⟩ := Option.bind_eq_some_iff.mp hload
    obtain rfl := Option.some.inj hv
    have hplaced : WellPlaced levels := by
      apply parseLevels_wellPlaced _ hparse
      intro j x hx
      exact absurd hx List.not_mem_nil
    unfold TableVersion.level at hm
    dsimp only at hm
    split_ifs at hm
    · exact absurd hm (by rw [show (List.replicate 4 []).getD i [] = [] from level_initial i]
                          exact List.not_mem_nil)
    · exact hplaced i m hm
  · intro h
    obtain ⟨levels, hload, hlevel⟩ := loadLevelMetadata_of_printed s.flushCounter rfl h
    exact ⟨_, hload, hlevel⟩

/-- Since the engine's tables name their levels, only the keys matter. -/
theorem levelsComeBack_of_exec {dataDir : Bytes} {cacheSize : Nat} {ops : List EngineOp}
    {s : StorageEngine} (h : exec StorageEngine.step (StorageEngine.init dataDir cacheSize) ops = some s)
    (d : DataDir) : LevelsComeBack d s ↔ ∀ m ∈ s.version.metas, m.HasWords := by
  rw [loadLevelMetadata_saveMetadata_iff]
  have hlabelled := StorageEngine.labelled_of_exec h
  constructor
  · intro hall m hm
    obtain ⟨i, hi⟩ := mem_metas.mp hm
    exact (hall i m hi).2
  · intro hwords i m hm
    exact ⟨hlabelled i m hm, hwords m (mem_metas_of_level hm)⟩

/-- A key with a blank, flushed. -/
def blankKeyFlushed : List EngineOp :=
  [.put (Bytes.ascii "a b") (Bytes.ascii "1"), .checkFlush true, .flushInstall]

omit [Platform] in
/-- The table of `a b` does not come back. -/
theorem not_levelsComeBack_blankKey : letI := Platform.sample
    ∃ s, exec StorageEngine.step (StorageEngine.init (Bytes.ascii "data") 0) blankKeyFlushed = some s ∧
      ¬ LevelsComeBack DataDir.empty s := by
  let := Platform.sample
  have hrun : (exec StorageEngine.step (StorageEngine.init (Bytes.ascii "data") 0) blankKeyFlushed).map
      (fun s => decide (∃ m ∈ s.version.level 0, ¬ m.HasWords)) = some true := by decide +kernel
  obtain ⟨s, hs, hkey⟩ := Option.map_eq_some_iff.mp hrun
  rw [decide_eq_true_eq] at hkey
  obtain ⟨m, hm, hwords⟩ := hkey
  refine ⟨s, hs, ?_⟩
  intro hback
  exact hwords ((loadLevelMetadata_saveMetadata_iff DataDir.empty s).mp hback 0 m hm).2

end KvStorageEngine
