import KvStorageEngine.Engine.VersionThreads
import KvStorageEngine.Lib.Run

/-!
# `Engine.TableReader` — a reader and the files behind its version

A version keeps its tables alive, but not their files. `SSTable::getFile` opens a table's file on the first
lookup that gets past the range and the filter, and keeps the handle; a compaction removes the files of its
inputs after it has installed its result (`engine/src/sstable.cpp`, `engine/src/engine.cpp`). Here one `get`
runs against one compaction thread, table by table.

The search is the one of `get` itself, run in a monad of resumable programs (`Search`) that stops before
every table.
-/

namespace KvStorageEngine

variable [Platform]

/-- A search that stops before each table it looks into. -/
inductive Search (α : Type) where
  | pure (a : α)
  | look (t : SSTable) (next : Option Entry → Search α)

namespace Search

def bind {α β : Type} : Search α → (α → Search β) → Search β
  | .pure a, f => f a
  | .look t next, f => .look t fun record => (next record).bind f

instance : Monad Search where
  pure := Search.pure
  bind := Search.bind

end Search

/-- The search of a version, from the candidate the memtables gave. -/
def resumableSearch (v : TableVersion) (key : Bytes) (candidate : Option Entry) :
    Search (Option Entry) :=
  searchLevels (fun sst => Search.look sst Search.pure) v key 0 v.levels candidate

/-- Where the reader is: it has a version in hand until it is done, or `getFile` has thrown. -/
inductive LookupPc where
  | idle
  | searching (version : TableVersion) (candidate : Option Entry) (rest : Search (Option Entry))
  | done (version : TableVersion) (candidate : Option Entry) (out : Option Entry)
  | threw

/-- Where the compaction thread is: its output is written, or it is removing its inputs. -/
inductive CompactionPc where
  | idle
  | written (c : Change)
  | removing (ids : List Nat)

/-- One reader, the compaction thread and the files: which paths exist, and which tables hold an open
    handle. -/
structure TableReader where
  dataDir : Bytes
  current : TableVersion
  flushCounter : Nat
  files : List Bytes
  opened : List Bytes
  reader : LookupPc
  compaction : CompactionPc

/-- A step of the reader or of the compaction. -/
inductive TableReaderOp where
  | takeVersion (candidate : Option Entry)
  | look
  | compactWrite (level maxSeq : Nat)
  | compactInstall
  | compactRemove

namespace TableReader

/-- An engine whose tables all have their files, some of them open from earlier reads. -/
def start (s : StorageEngine) (opened : List Bytes) : TableReader where
  dataDir := s.dataDir
  current := s.version
  flushCounter := s.flushCounter
  files := s.version.sstables.map (·.path)
  opened := opened
  reader := .idle
  compaction := .idle

/-- `SSTable::getFile`: the handle at hand, or a new one where the path still exists. The result is the set
    of tables with a handle; `none` is the exception. -/
def getFile (s : TableReader) (t : SSTable) : Option (List Bytes) :=
  if t.path ∈ s.opened then some s.opened
  else if t.path ∈ s.files then some (t.path :: s.opened)
  else none

/-- One step of the system with a reader of `key`. -/
def step (key : Bytes) (s : TableReader) : TableReaderOp → Option TableReader
  | .takeVersion candidate =>
    match s.reader with
    | .idle => some { s with
        reader := .searching s.current candidate (resumableSearch s.current key candidate) }
    | _ => none
  | .look =>
    match s.reader with
    | .searching v candidate (.pure found) => some { s with reader := .done v candidate (answer found) }
    | .searching v candidate (.look t next) =>
      -- out of range, or ruled out by the filter: the file is not touched
      if t.readsFile key then
        match s.getFile t with
        | none => some { s with reader := .threw }
        | some opened => some { s with
            opened := opened
            reader := .searching v candidate (next (t.records.find? key)) }
      else some { s with reader := .searching v candidate (next none) }
    | _ => none
  | .compactWrite level maxSeq =>
    match s.compaction with
    | .idle =>
      match if level = 0 then planL0toL1 s.current else planLevelN s.current level with
      | none => some s
      | some plan =>
        let id := s.flushCounter + 1
        let sst := SSTable.flush plan.mergedData (sstableDir s.dataDir) id
        some { s with
          flushCounter := id
          files := sst.path :: s.files
          compaction := .written ⟨sst, sst.meta id maxSeq plan.targetLevel, plan.idsToRemove,
            if level = 0 then .L0toL1 else .levelN⟩ }
    | _ => none
  | .compactInstall =>
    match s.compaction with
    | .written c => some { s with
        current := c.edit s.current.copyFrom
        compaction := .removing c.idsToRemove }
    | _ => none
  | .compactRemove =>
    match s.compaction with
    | .removing [] => some { s with compaction := .idle }
    -- a handle that is open goes on reading
    | .removing (id :: ids) => some { s with
        files := s.files.filter (· ≠ sstablePath (sstableDir s.dataDir) id)
        compaction := .removing ids }
    | _ => none

end TableReader

end KvStorageEngine
