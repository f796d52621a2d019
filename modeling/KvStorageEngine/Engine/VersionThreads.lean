import KvStorageEngine.Engine.StorageEngine

/-!
# `Engine.VersionThreads` — the two threads that change the version

The flush thread and the compaction thread of `engine/src/engine.cpp` change the current version by read,
copy and update: `getVersionForModification` copies whatever version is current, the copy is edited, and
`installVersion` swaps it in. Neither thread holds a lock across the three, so each is a step of its own
here. What a thread wants to add or remove is fixed before (`Change`): the flush thread has written a table,
the compaction has chosen its inputs on an older version and written its output.

Three fields of the state are history: the tables ever installed, the ids compactions have removed, and how
many versions have been installed. No step depends on them.
-/

namespace KvStorageEngine

variable [Platform]

/-- The threads that install versions. -/
inductive VersionThread where
  | flush
  | compaction
  deriving DecidableEq, Repr

/-- Which code edits the copy. -/
inductive EditKind where
  | flush
  | L0toL1
  | levelN
  deriving DecidableEq, Repr

/-- What a thread is about to do to the version: a table to add, ids to remove. -/
structure Change where
  sst : SSTable
  newMeta : SSTableMeta
  idsToRemove : List Nat
  kind : EditKind

/-- The edit of the copied version. -/
def Change.edit (c : Change) (newVersion : TableVersion) : TableVersion :=
  match c.kind with
  | .flush => StorageEngine.installFlushed newVersion c.sst c.newMeta
  | .L0toL1 => editL0toL1 newVersion c.idsToRemove c.sst c.newMeta
  | .levelN => editLevelN newVersion c.idsToRemove c.sst c.newMeta

/-- Where a thread is. From `copied` on it remembers how many versions had been installed when it copied. -/
inductive VersionPc where
  | idle
  | planned (plan : CompactionPlan) (kind : EditKind)
  | written (c : Change)
  | copied (c : Change) (copiedAt : Nat) (newVersion : TableVersion)
  | edited (c : Change) (copiedAt : Nat) (newVersion : TableVersion)

/-- The version manager and the two threads. -/
structure VersionSystem where
  dataDir : Bytes
  current : TableVersion
  flushCounter : Nat
  pc : VersionThread → VersionPc
  /-- History: every table installed, with its metadata. -/
  installed : List (SSTable × SSTableMeta)
  /-- History: the ids removed by installed compactions. -/
  removed : List Nat
  /-- History: the number of versions installed. -/
  installs : Nat

namespace VersionSystem

/-- The empty store. -/
def init (dataDir : Bytes) : VersionSystem where
  dataDir := dataDir
  current := TableVersion.initial
  flushCounter := 0
  pc _ := .idle
  installed := []
  removed := []
  installs := 0

def setPc (s : VersionSystem) (th : VersionThread) (pc : VersionPc) : VersionSystem :=
  { s with pc := Function.update s.pc th pc }

/-- `SSTable::flush` under the next id, and the change it belongs to. -/
def write (s : VersionSystem) (th : VersionThread) (data : SortedMap Bytes Entry) (maxSeq level : Nat)
    (idsToRemove : List Nat) (kind : EditKind) : VersionSystem :=
  let id := s.flushCounter + 1
  let sst := SSTable.flush data (sstableDir s.dataDir) id
  { s with flushCounter := id }.setPc th (.written ⟨sst, sst.meta id maxSeq level, idsToRemove, kind⟩)

end VersionSystem

/-- A step of one of the threads; `maxSeq` is the sequence number the thread happens to read. -/
inductive VersionOp where
  | flushWrite (snapshot : SortedMap Bytes Entry) (maxSeq : Nat)
  | compactRead (level : Nat)
  | compactWrite (maxSeq : Nat)
  | copy (th : VersionThread)
  | edit (th : VersionThread)
  | install (th : VersionThread)

namespace VersionSystem

/-- One step, `none` where the thread is not at that point. -/
def step (s : VersionSystem) : VersionOp → Option VersionSystem
  | .flushWrite snapshot maxSeq =>
    match s.pc .flush with
    -- an empty memtable leaves no table behind
    | .idle => if snapshot.isEmpty then none else some (s.write .flush snapshot maxSeq 0 [] .flush)
    | _ => none
  | .compactRead level =>
    match s.pc .compaction with
    | .idle =>
      let plan := if level = 0 then planL0toL1 s.current else planLevelN s.current level
      match plan with
      -- nothing to merge, or nothing left by the merge
      | none => some s
      | some plan => some (s.setPc .compaction (.planned plan (if level = 0 then .L0toL1 else .levelN)))
    | _ => none
  | .compactWrite maxSeq =>
    match s.pc .compaction with
    | .planned plan kind =>
      some (s.write .compaction plan.mergedData maxSeq plan.targetLevel plan.idsToRemove kind)
    | _ => none
  | .copy th =>
    match s.pc th with
    | .written c => some (s.setPc th (.copied c s.installs s.current.copyFrom))
    | _ => none
  | .edit th =>
    match s.pc th with
    | .copied c copiedAt newVersion => some (s.setPc th (.edited c copiedAt (c.edit newVersion)))
    | _ => none
  | .install th =>
    match s.pc th with
    -- `installVersion` stores the copy, whatever has been installed since it was made
    | .edited c _ newVersion => some ({ s with
        current := newVersion
        installed := s.installed ++ [(c.sst, c.newMeta)]
        removed := s.removed ++ c.idsToRemove
        installs := s.installs + 1 }.setPc th .idle)
    | _ => none

end VersionSystem

end KvStorageEngine
