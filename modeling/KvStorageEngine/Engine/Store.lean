import KvStorageEngine.Engine.DataDir
import KvStorageEngine.Engine.TableReader
import KvStorageEngine.Engine.VersionThreads

/-!
# `Engine.Store` — a store on its directory, over many lives

A `StorageEngine` and the directory it runs on (`engine/src/engine.cpp`), from one constructor through any
number of clean stops: the requests as the writer thread carries them out, lookups, rotations, the flush thread,
the compaction thread and `clearData`. A `StorageEngine::del` is a lookup of its client, then a request.

A request is one step, with its memtable, its log and its counter, and so is a rotation up to the `std::remove` of
`log.bin` that follows it. The flush thread, the compaction thread and `clearData` take their steps one by one, and
anything may come in between: both threads edit a copy of the version that was current when they made it, and
`clearData` stops neither of them (`waitForCompaction` gives up after five seconds and reads two flags that are not
set at the same time). A lookup is the step in which it comes to its result and the one in which it stores that in the
cache. The log on disk is what a clean stop leaves of it, so a request is in it at once while `log.bin` is still the file
that the log has open.

A stop is clean: the writer thread has run out, no lookup, rotation, compaction or `clearData` is under way, and the
flush thread has nothing left to do. The constructor on the same directory follows at once.

`clearData` removes the directory `data` of the process, whatever the store's own is. Whether that takes the
store's files along depends on the working directory and on links, and is a field of the state.
-/

namespace KvStorageEngine

variable [Platform]

/-! ## The threads -/

/-- Where the flush thread is in a round. -/
inductive FlushRound where
  | idle
  | written (c : Change)
  | copied (newVersion : TableVersion)
  | installed
  | saved

/-- Where the compaction thread is in a compaction. -/
inductive CompactionRound where
  | idle
  | merged (plan : CompactionPlan) (kind : EditKind)
  | written (c : Change)
  | copied (newVersion : TableVersion) (idsToRemove : List Nat)
  | installed (idsToRemove : List Nat)
  | saved (idsToRemove : List Nat)

/-- What `clearData` has done so far. -/
inductive ClearRound where
  | idle
  | removed
  | emptied
  | counted
  | installed
  deriving DecidableEq, Repr

/-- A search with lookups that may throw. -/
def Search.run {α : Type} (look : SSTable → Option (Option Entry)) : Search α → Option α
  | .pure a => some a
  | .look t next => (look t).bind fun record => (next record).run look

/-- `std::filesystem::remove` of the tables with the given ids. -/
def DataDir.removeTables (d : DataDir) (dataDir : Bytes) (ids : List Nat) : DataDir :=
  { d with sstables := d.sstables.filter fun t =>
      !(ids.map (sstablePath (sstableDir dataDir))).contains t.path }

/-! ## The store -/

/-- The engine, its directory, and where its threads are. -/
structure Store where
  engine : StorageEngine
  dir : DataDir
  /-- Whether the log's file is still the one under `log.bin`. -/
  linked : Bool
  /-- How many rotations have yet to remove `log.bin`. -/
  unlinks : Nat
  flusher : FlushRound
  compactor : CompactionRound
  clearer : ClearRound
  /-- What lookups have found and have yet to store in the cache. -/
  fills : List (Bytes × Entry)
  /-- Whether the directory is in the `data` that `clearData` removes. -/
  insideData : Bool
  /-- History: the last `clearData` has returned, and there has been no request since. -/
  cleared : Bool

/-- A step of the store; `restart` is a clean stop and the constructor after it. -/
inductive StoreOp where
  | write (request : WriteRequest)
  | get (key : Bytes)
  | fill (i : Nat)
  | rotate
  | unlink
  | flushWrite
  | flushCopy
  | flushInstall
  | flushSave
  | flushReset
  | compactL0toL1
  | compactlevelN (level : Nat)
  | compactWrite
  | compactCopy
  | compactInstall
  | compactSave
  | compactRemove
  | clearRemove
  | clearMemtable
  | clearCounters
  | clearVersion
  | clearCache
  | restart (cacheSize : Nat)
  deriving DecidableEq, Repr

namespace Store

/-- A new store in an empty directory. -/
def fresh (dataDir : Bytes) (cacheSize : Nat) (insideData : Bool) : Store where
  engine := StorageEngine.init dataDir cacheSize
  dir := DataDir.empty
  linked := true
  unlinks := 0
  flusher := .idle
  compactor := .idle
  clearer := .idle
  fills := []
  insideData := insideData
  cleared := false

/-- `SSTable::get`, `none` where it throws for want of the file. -/
def lookTable (s : Store) (key : Bytes) (t : SSTable) : Option (Option Entry) :=
  if t.readsFile key && (s.dir.file? t.path).isNone then none else some (t.get key)

/-- The uncached part of `get`. -/
def search (s : Store) (key : Bytes) : Option (Option Entry) :=
  let candidate := s.engine.memtable.get key
  let candidate := considerRecord candidate (s.engine.immutableMemtable.bind (·.get key))
  (resumableSearch s.engine.version key candidate).run (s.lookTable key)

/-- What `cache_->get(key)` finds. -/
def cached? (s : Store) (key : Bytes) : Option Entry := s.engine.cache.bind fun c => (c.get key).1

/-- What `StorageEngine::get` answers, `none` where it throws. -/
def get (s : Store) (key : Bytes) : Option (Option Entry) :=
  match s.cached? key with
  | some entry => some (some entry)
  | none => (s.search key).map answer

/-- What a lookup is about to store in the cache: a put that was not there. -/
def foundOnMiss (s : Store) (key : Bytes) : Option (Bytes × Entry) :=
  if s.engine.cache.isNone || (s.cached? key).isSome then none
  else ((s.search key).bind answer).map (key, ·)

/-- A lookup up to where it stores what it has found in the cache. -/
def lookedUp (s : Store) (key : Bytes) : Store :=
  { s with
    engine := { s.engine with cache := s.engine.cache.map fun c => (c.get key).2 }
    fills := s.fills ++ (s.foundOnMiss key).toList }

/-- The writer thread's part of a request. -/
def write (s : Store) (request : WriteRequest) : Store :=
  { s with
    engine := s.engine.write request
    dir := { s.dir with
      log := if s.linked then s.dir.log ++ [⟨request, s.engine.seqNumber⟩] else s.dir.log }
    cleared := false }

/-- `SSTable::flush` under the next id, with the change of the version it is for. -/
def writeTable (s : Store) (data : SortedMap Bytes Entry) (level : Nat) (idsToRemove : List Nat) (kind : EditKind) :
    Change × Store :=
  let id := s.engine.flushCounter + 1
  let sst := SSTable.flush data (sstableDir s.engine.dataDir) id
  (⟨sst, sst.meta id (s.engine.seqNumber - 1) level, idsToRemove, kind⟩,
    { s with engine := { s.engine with flushCounter := id }, dir := s.dir.writeTable sst })

/-- The merge of a compaction, which gives up where nothing is left by it. -/
def beginCompaction (s : Store) (plan : Option CompactionPlan) (kind : EditKind) : Option Store :=
  match s.compactor with
  | .idle =>
    match plan with
    | none => some s
    | some plan => some { s with compactor := .merged plan kind }
  | _ => none

/-- The flush thread has nothing to do. -/
def settled (s : Store) : Bool :=
  match s.flusher, s.engine.immutableMemtable with
  | .idle, none => true
  | _, _ => false

/-- No lookup, compaction or `clearData` is under way. -/
def quiescent (s : Store) : Bool :=
  match s.compactor, s.clearer, s.fills with
  | .idle, .idle, [] => true
  | _, _, _ => false

/-- One step, `none` where the thread is not at that point or would wait. -/
def step (s : Store) : StoreOp → Option Store
  | .write request => some (s.write request)
  | .get key => some (s.lookedUp key)
  | .fill i =>
    match s.fills[i]? with
    | some (key, out) => some { s with
        engine := { s.engine with cache := s.engine.cache.map (LRUCache.put · key out) }
        fills := s.fills.eraseIdx i }
    | none => none
  | .rotate => s.engine.rotate.map fun engine => { s with engine, unlinks := s.unlinks + 1 }
  | .unlink =>
    if s.unlinks = 0 then none
    else some { s with dir := { s.dir with log := [] }, linked := false, unlinks := s.unlinks - 1 }
  | .flushWrite =>
    match s.flusher, s.engine.immutableMemtable with
    | .idle, some imm =>
      -- an empty memtable leaves no table behind
      if imm.snapshot.isEmpty then some { s with flusher := .saved }
      else
        let (c, s) := s.writeTable imm.snapshot 0 [] .flush
        some { s with flusher := .written c }
    | _, _ => none
  | .flushCopy =>
    match s.flusher with
    | .written c => some { s with flusher := .copied (c.edit s.engine.version.copyFrom) }
    | _ => none
  | .flushInstall =>
    match s.flusher with
    | .copied newVersion => some { s with
        engine := { s.engine with version := newVersion }
        flusher := .installed }
    | _ => none
  | .flushSave =>
    match s.flusher with
    | .installed => some { s with
        engine := s.engine.clearCache
        dir := s.dir.saveMetadata s.engine
        flusher := .saved }
    | _ => none
  | .flushReset =>
    match s.flusher with
    | .saved => some { s with engine := s.engine.resetImmutable, flusher := .idle }
    | _ => none
  | .compactL0toL1 => s.beginCompaction (planL0toL1 s.engine.version) .L0toL1
  | .compactlevelN level => s.beginCompaction (planLevelN s.engine.version level) .levelN
  | .compactWrite =>
    match s.compactor with
    | .merged plan kind =>
      let (c, s) := s.writeTable plan.mergedData plan.targetLevel plan.idsToRemove kind
      some { s with compactor := .written c }
    | _ => none
  | .compactCopy =>
    match s.compactor with
    | .written c => some { s with compactor := .copied (c.edit s.engine.version.copyFrom) c.idsToRemove }
    | _ => none
  | .compactInstall =>
    match s.compactor with
    | .copied newVersion ids => some { s with
        engine := { s.engine with version := newVersion }
        compactor := .installed ids }
    | _ => none
  | .compactSave =>
    match s.compactor with
    | .installed ids => some { s with dir := s.dir.saveMetadata s.engine, compactor := .saved ids }
    | _ => none
  | .compactRemove =>
    match s.compactor with
    | .saved ids => some { s with
        engine := s.engine.clearCache
        dir := s.dir.removeTables s.engine.dataDir ids
        compactor := .idle }
    | _ => none
  | .clearRemove =>
    match s.clearer with
    | .idle => some { s with
        dir := if s.insideData then DataDir.empty else s.dir
        linked := s.linked && !s.insideData
        clearer := .removed
        cleared := false }
    | _ => none
  | .clearMemtable =>
    match s.clearer with
    | .removed => some { s with
        engine := { s.engine with memtable := s.engine.memtable.clear }
        clearer := .emptied }
    | _ => none
  | .clearCounters =>
    match s.clearer with
    | .emptied => some { s with engine := { s.engine with flushCounter := 0, seqNumber := 1 }, clearer := .counted }
    | _ => none
  | .clearVersion =>
    match s.clearer with
    | .counted => some { s with engine := { s.engine with version := TableVersion.initial }, clearer := .installed }
    | _ => none
  | .clearCache =>
    match s.clearer with
    | .installed => some { s with engine := s.engine.clearCache, clearer := .idle, cleared := true }
    | _ => none
  | .restart cacheSize =>
    if s.settled ∧ s.quiescent ∧ s.unlinks = 0 then
      (s.dir.construct s.engine.dataDir cacheSize).map fun engine => { s with engine, linked := true }
    else none

end Store

end KvStorageEngine
