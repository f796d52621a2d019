import KvStorageEngine.Engine.StorageEngine
import KvStorageEngine.Lib.TextStream

/-!
# `Engine.DataDir` — what is kept in the data directory

Saving and loading, `engine/src/engine.cpp`: `saveMetadata` writes `metadata.txt` and `levels.txt`, the
constructor reads them back with `loadLevelMetadata` and `loadSSTables`, and `recover` replays the log. The
two metadata files are text, `levels.txt` with one line a table and its fields separated by blanks, keys
included as they are.

A table file and the log are taken as what they hold: the table that a later `SSTable(path)` reads, and the
list of whole records that `replay` yields. A missing `log.bin` is an empty one. The result `none` stands
for a constructor that throws, or that reads a line of `levels.txt` whose fields are not all there and so
leaves them indeterminate.
-/

namespace KvStorageEngine

open TextStream

variable [Platform]

/-- A record of the log: a request and its sequence number. -/
structure LogRecord where
  request : WriteRequest
  seqNumber : Nat
  deriving DecidableEq, Repr

namespace LogRecord

def key (r : LogRecord) : Bytes := r.request.key

def entry (r : LogRecord) : Entry := r.request.entry r.seqNumber

end LogRecord

/-- The files of a data directory. -/
structure DataDir where
  metadata : Option Bytes
  levels : Option Bytes
  log : List LogRecord
  sstables : List SSTable

/-! ## Saving -/

/-- `metadata.txt`. -/
def printCounters (flushCounter seqNumber : Nat) : Bytes :=
  Bytes.toDecimal flushCounter ++ Bytes.ascii "\n" ++ (Bytes.toDecimal seqNumber ++ Bytes.ascii "\n")

/-- The line of `levels.txt` about one table, without the newline. -/
def printMeta (m : SSTableMeta) : Bytes :=
  Bytes.toDecimal m.id ++ Bytes.ascii " " ++ (Bytes.toDecimal m.level ++ Bytes.ascii " " ++
    (m.minKey ++ Bytes.ascii " " ++ (m.maxKey ++ Bytes.ascii " " ++
      (Bytes.toDecimal m.maxSeq ++ Bytes.ascii " " ++ Bytes.toDecimal m.sizeBytes))))

/-- `levels.txt`. -/
def printLevels (levels : List (List SSTableMeta)) : Bytes :=
  levels.flatten.flatMap fun m => printMeta m ++ Bytes.ascii "\n"

/-! ## Loading -/

/-- The two counters of `metadata.txt`, each from a line of its own. A second `std::getline` at the end of the
    stream leaves the first line in place. -/
def loadCounters (text : Bytes) : Option (Nat × Nat) :=
  match getLines text with
  | [] => none
  | [line] =>
    if text.getLast? = some 10 then none
    else (readNat line).map fun n => (n.1, n.1)
  | line :: line' :: _ => do
    let (flushCounter, _) ← readNat line
    let (seqNumber, _) ← readNat line'
    some (flushCounter, seqNumber)

/-- A line of `levels.txt`. -/
def parseMeta (line : Bytes) : Option SSTableMeta := do
  let (id, rest) ← readNat line
  let (level, rest) ← readNat rest
  let (minKey, rest) ← readWord rest
  let (maxKey, rest) ← readWord rest
  let (maxSeq, rest) ← readNat rest
  let (sizeBytes, _) ← readNat rest
  some ⟨id, minKey, maxKey, maxSeq, sizeBytes, level⟩

/-- The lines of `levels.txt`, empty ones skipped, each put on its level. -/
def parseLevels : List Bytes → List (List SSTableMeta) → Option (List (List SSTableMeta))
  | [], levels => some levels
  | line :: lines, levels =>
    if line.isEmpty then parseLevels lines levels
    else do
      let m ← parseMeta line
      parseLevels lines ((roomFor levels m.level).modify m.level (· ++ [m]))

/-- `StorageEngine::loadLevelMetadata`. -/
def loadLevelMetadata (flushCounter : Nat) (levelFile : Option Bytes) : Option TableVersion :=
  match levelFile with
  | none => some ⟨List.replicate 4 [], [], 0, 0⟩
  | some text => do
    let levels ← parseLevels (getLines text) []
    some ⟨if levels.isEmpty then List.replicate 4 [] else levels, [], 0, flushCounter⟩

/-- The table file at a path. -/
def DataDir.file? (d : DataDir) (path : Bytes) : Option SSTable := d.sstables.find? (·.path = path)

/-- `StorageEngine::loadSSTables`: the tables of the levels whose files exist. -/
def loadSSTables (d : DataDir) (dataDir : Bytes) (v : TableVersion) : TableVersion :=
  let newVersion := v.copyFrom
  { newVersion with sstables := newVersion.sstables ++
      newVersion.levels.flatten.filterMap fun m => d.file? (sstablePath (sstableDir dataDir) m.id) }

/-- `WriteAheadLog::replay` into a memtable. -/
def replay (log : List LogRecord) (m : MemTable) : MemTable :=
  log.foldl (fun m r => m.apply r.request r.seqNumber) m

/-- `StorageEngine::recover`. -/
def StorageEngine.recover (s : StorageEngine) (log : List LogRecord) : StorageEngine :=
  if log.isEmpty then s
  else { s with
    memtable := replay log s.memtable
    seqNumber := log.foldl (fun n r => max n r.seqNumber) s.seqNumber + 1 }

namespace DataDir

def empty : DataDir := ⟨none, none, [], []⟩

/-- A table file is written. Over a file that is there under its path, the real table keeps the entries of that file's
    index and looks records up with them (`Engine.Correctness.StaleIndex`); this is the case without such a file. -/
def writeTable (d : DataDir) (sst : SSTable) : DataDir :=
  { d with sstables := sst :: d.sstables.filter (·.path ≠ sst.path) }

theorem file?_writeTable (d : DataDir) (sst : SSTable) (path : Bytes) :
    (d.writeTable sst).file? path = if path = sst.path then some sst else d.file? path := by
  unfold file? writeTable
  by_cases hp : path = sst.path
  · rw [if_pos hp, List.find?_cons_of_pos (by simpa using hp.symm)]
  · rw [if_neg hp, List.find?_cons_of_neg (by simpa using Ne.symm hp), List.find?_filter]
    refine congrArg (List.find? · d.sstables) (funext fun t => ?_)
    by_cases ht : t.path = path
    · simp [ht, hp]
    · simp [ht]

/-- `StorageEngine::saveMetadata`, as a whole. -/
def saveMetadata (d : DataDir) (s : StorageEngine) : DataDir :=
  { d with
    metadata := some (printCounters s.flushCounter s.seqNumber)
    levels := some (printLevels s.version.levels) }

/-- The constructor of `StorageEngine` on a data directory. -/
def construct (d : DataDir) (dataDir : Bytes) (cacheSize : Nat) : Option StorageEngine :=
  let s := StorageEngine.init dataDir cacheSize
  match d.metadata with
  | none => some (s.recover d.log)
  | some text => do
    let (flushCounter, seqNumber) ← loadCounters text
    let version ← loadLevelMetadata flushCounter d.levels
    some ({ s with
      version := loadSSTables d dataDir version
      flushCounter := flushCounter
      seqNumber := seqNumber }.recover d.log)

end DataDir

end KvStorageEngine
