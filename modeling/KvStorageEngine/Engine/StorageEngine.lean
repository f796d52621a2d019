import KvStorageEngine.Engine.Compaction
import KvStorageEngine.Engine.LRUCache
import KvStorageEngine.Engine.MemTable
import KvStorageEngine.Lib.LowerBound

/-!
# `Engine.StorageEngine` — the engine in memory

The state of `StorageEngine` (`engine/src/engine.cpp`) and its operations, each as one function: `put` and
`del` as the writer thread carries them out, `get`, the memtable rotation of `checkFlush`, the flush
thread's installation, and the two compactions. `step` runs them as the labels of a system.

The table search of `get` is written once for an arbitrary monad, with the lookup of one table as a
parameter. Atomically it runs in `Id`; a reader that is interrupted between two tables runs the same
search in another monad.
-/

namespace KvStorageEngine

open LowerBound

variable [Platform]

/-! ## Searching a version -/

/-- `if (record && (!candidate || record->seq > candidate->seq)) candidate = *record;` -/
def considerRecord (candidate record : Option Entry) : Option Entry :=
  match record with
  | none => candidate
  | some r => match candidate with
    | none => some r
    | some c => if c.seq < r.seq then some r else some c

section Search

variable {m : Type → Type} [Monad m] (look : SSTable → m (Option Entry)) (v : TableVersion)

/-- Level 0: every file, since ranges overlap. -/
def searchL0 : List SSTableMeta → Option Entry → m (Option Entry)
  | [], candidate => pure candidate
  | file :: files, candidate =>
    match v.findSSTableById file.id with
    | none => searchL0 files candidate
    | some sst => do
      let record ← look sst
      searchL0 files (considerRecord candidate record)

/-- The file of a sorted level that may hold the key: `std::lower_bound` on `maxKey`, then `minKey`. -/
def fileFor (files : List SSTableMeta) (key : Bytes) : Option SSTableMeta :=
  match files[lowerBound (fun file => decide (file.maxKey < key)) files]? with
  | none => none
  | some file => if file.minKey ≤ key then some file else none

/-- The loop over the levels, from `level` on. It skips empty levels and stops at a level that leaves a
    candidate behind. -/
def searchLevels (key : Bytes) : Nat → List (List SSTableMeta) → Option Entry → m (Option Entry)
  | _, [], candidate => pure candidate
  | level, files :: levels, candidate =>
    if files.isEmpty then searchLevels key (level + 1) levels candidate
    else if level = 0 then do
      let candidate ← searchL0 look v files candidate
      if candidate.isSome then pure candidate else searchLevels key (level + 1) levels candidate
    else
      match (fileFor files key).bind (fun file => v.findSSTableById file.id) with
      | none =>
        if candidate.isSome then pure candidate else searchLevels key (level + 1) levels candidate
      | some sst => do
        let record ← look sst
        let candidate := considerRecord candidate record
        if candidate.isSome then pure candidate else searchLevels key (level + 1) levels candidate

end Search

/-- The search of a version for `key`, starting from what the memtables gave. -/
def searchVersion (v : TableVersion) (key : Bytes) (candidate : Option Entry) : Option Entry :=
  Id.run (searchLevels (fun sst => pure (sst.get key)) v key 0 v.levels candidate)

/-! ## The engine -/

/-- The engine's memory; `cache = none` is a store opened with `cache_size = 0`. -/
structure StorageEngine where
  dataDir : Bytes
  memtable : MemTable
  immutableMemtable : Option MemTable
  version : TableVersion
  flushCounter : Nat
  seqNumber : Nat
  cache : Option LRUCache

namespace StorageEngine

/-- The engine on a directory with no metadata and no log. -/
def init (dataDir : Bytes) (cacheSize : Nat) : StorageEngine where
  dataDir := dataDir
  memtable := MemTable.empty
  immutableMemtable := none
  version := TableVersion.initial
  flushCounter := 0
  seqNumber := 1
  cache := if cacheSize > 0 then some (LRUCache.new cacheSize) else none

/-- The uncached part of `get`: active memtable, immutable memtable, version. -/
def lookup (s : StorageEngine) (key : Bytes) : Option Entry :=
  let candidate := s.memtable.get key
  let candidate := considerRecord candidate (s.immutableMemtable.bind (·.get key))
  searchVersion s.version key candidate

/-- `StorageEngine::get`. A hit in the cache is answered from it; a put found by the search fills it. -/
def get (s : StorageEngine) (key : Bytes) : Option Entry × StorageEngine :=
  match s.cache with
  | none => (answer (s.lookup key), s)
  | some cache =>
    match cache.get key with
    | (some entry, cache) => (some entry, { s with cache := some cache })
    | (none, cache) =>
      -- a tombstone is not cached
      match answer (s.lookup key) with
      | none => (none, { s with cache := some cache })
      | some out => (some out, { s with cache := some (cache.put key out) })

/-- `cache_->invalidate(key)`, with a cache. -/
def invalidate (s : StorageEngine) (key : Bytes) : StorageEngine :=
  { s with cache := s.cache.map (·.invalidate key) }

/-- `cache_->clear()`, with a cache. -/
def clearCache (s : StorageEngine) : StorageEngine := { s with cache := s.cache.map (·.clear) }

/-- A request's update of the memtable, and the next sequence number. -/
def updateMemtable (s : StorageEngine) (request : WriteRequest) : StorageEngine :=
  { s with
    memtable := s.memtable.apply request s.seqNumber
    seqNumber := s.seqNumber + 1 }

/-- `StorageEngine::put`, as the writer thread carries the request out. -/
def put (s : StorageEngine) (key value : Bytes) : StorageEngine :=
  { s with
    memtable := s.memtable.put key value s.seqNumber
    seqNumber := s.seqNumber + 1 }.invalidate key

/-- The tombstone of `StorageEngine::del`, as the writer thread carries the request out. -/
def writeTombstone (s : StorageEngine) (key : Bytes) : StorageEngine :=
  { s with
    memtable := s.memtable.del key s.seqNumber
    seqNumber := s.seqNumber + 1 }.invalidate key

/-- The writer thread's part of a request, the log left out. -/
def write (s : StorageEngine) : WriteRequest → StorageEngine
  | .put key value => s.put key value
  | .delete key => s.writeTombstone key

/-- `StorageEngine::del`: a read to report whether the key existed, then the tombstone. -/
def del (s : StorageEngine) (key : Bytes) : Bool × StorageEngine :=
  let (existing, s) := s.get key
  (existing.isSome, s.writeTombstone key)

/-- The rotation of `checkFlush`. It waits while an immutable memtable is there. -/
def rotate (s : StorageEngine) : Option StorageEngine :=
  match s.immutableMemtable with
  | some _ => none
  | none => some { s with
      immutableMemtable := some (MemTable.copyOf s.memtable.snapshot)
      memtable := s.memtable.clear }

/-- `kMemTableThreshold`. -/
def memTableThreshold : Nat := 8 * 1024 * 1024

/-- `StorageEngine::checkFlush`; `debug` is the explicit `flush()`. -/
def checkFlush (s : StorageEngine) (debug : Bool) : Option StorageEngine :=
  if memTableThreshold ≤ s.memtable.getSize ∨ debug = true then s.rotate else some s

/-- The flush thread's edit of the version it copied. -/
def installFlushed (v : TableVersion) (sst : SSTable) (m : SSTableMeta) : TableVersion :=
  { v.addSSTable sst m with flushCounter := m.id }

/-- The flush thread's work on an immutable memtable: write a table and install the version that has it.
    An empty memtable leaves no table behind. -/
def flushTable (s : StorageEngine) (imm : MemTable) : StorageEngine :=
  if imm.snapshot.isEmpty then s
  else
    let id := s.flushCounter + 1
    let sst := SSTable.flush imm.snapshot (sstableDir s.dataDir) id
    { s with
      flushCounter := id
      version := installFlushed s.version.copyFrom sst (sst.meta id (s.seqNumber - 1) 0) }.clearCache

/-- `std::atomic_store(&immutable_memtable_, nullptr)`. -/
def resetImmutable (s : StorageEngine) : StorageEngine := { s with immutableMemtable := none }

/-- One round of `flushThreadLoop`. It waits until there is an immutable memtable. -/
def flushInstall (s : StorageEngine) : Option StorageEngine :=
  match s.immutableMemtable with
  | none => none
  | some imm => some (s.flushTable imm).resetImmutable

/-- Carry out a plan: write the output under a fresh id, edit and install a copy of the version. -/
def runPlan (s : StorageEngine) (plan : CompactionPlan)
    (edit : TableVersion → List Nat → SSTable → SSTableMeta → TableVersion) : StorageEngine :=
  let id := s.flushCounter + 1
  let sst := SSTable.flush plan.mergedData (sstableDir s.dataDir) id
  { s with
    flushCounter := id
    version := edit s.version.copyFrom plan.idsToRemove sst
      (sst.meta id (s.seqNumber - 1) plan.targetLevel) }.clearCache

/-- `StorageEngine::compactL0toL1`, as one step. -/
def compactL0toL1 (s : StorageEngine) : StorageEngine :=
  match planL0toL1 s.version with
  | none => s
  | some plan => s.runPlan plan editL0toL1

/-- `StorageEngine::compactlevelN`, as one step. -/
def compactlevelN (s : StorageEngine) (level : Nat) : StorageEngine :=
  match planLevelN s.version level with
  | none => s
  | some plan => s.runPlan plan editLevelN

/-- A round of the loop of `maybeCompactBackground`. -/
def compactIfNeeded (s : StorageEngine) (level : Nat) : StorageEngine :=
  if shouldCompactUnlocked level s.version then
    if level = 0 then s.compactL0toL1 else s.compactlevelN level
  else s

/-- `StorageEngine::maybeCompactBackground`, with nothing in between. -/
def maybeCompactBackground (s : StorageEngine) : StorageEngine := (List.range 3).foldl compactIfNeeded s

end StorageEngine

/-! ## The engine as a system of atomic steps -/

/-- One atomic step of the engine. -/
inductive EngineOp where
  | put (key value : Bytes)
  | del (key : Bytes)
  | get (key : Bytes)
  | checkFlush (debug : Bool)
  | flushInstall
  | compactL0toL1
  | compactlevelN (level : Nat)
  deriving DecidableEq, Repr

/-- The effect of a step, `none` where its thread would wait. -/
def StorageEngine.step (s : StorageEngine) : EngineOp → Option StorageEngine
  | .put key value => some (s.put key value)
  | .del key => some (s.del key).2
  | .get key => some (s.get key).2
  | .checkFlush debug => s.checkFlush debug
  | .flushInstall => s.flushInstall
  | .compactL0toL1 => some s.compactL0toL1
  | .compactlevelN level => some (s.compactlevelN level)

end KvStorageEngine
