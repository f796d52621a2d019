import KvStorageEngine.Engine.StorageEngine

/-!
# `Engine.Shell` — the commands of the interactive program

`parseCommand` (`engine/src/command_parser.cpp`), `StorageEngine::handleCommand` and `StorageEngine::ls`
(`engine/src/engine.cpp`), and the loop of `main` (`engine/src/main.cpp`), which hands line after line to an engine on
the directory `data`. The positions that `std::string::find` returns are `Nat`s, with `none` for `npos`.

Between two lines the engine works in the background: the writer thread's own `checkFlush`, the flush thread and the
compaction thread. A `flush` waits for the flush thread. `clearData` removes the directory `data`, which is the engine's
own here.
-/

namespace KvStorageEngine

/-- `Operation`. -/
inductive Operation where
  | get
  | put
  | delete
  | ls
  | flush
  | clear
  | error
  deriving DecidableEq, Repr

/-! ## The parser -/

namespace CommandParser

/-- `s.find(c, pos)`. -/
def find (s : Bytes) (c : UInt8) (pos : Nat) : Option Nat := ((s.drop pos).idxOf? c).map (pos + ·)

/-- `s.substr(pos, len)`. -/
def substr (s : Bytes) (pos len : Nat) : Bytes := (s.drop pos).take len

/-- `s.rfind(pattern)`. -/
def rfind (s pattern : Bytes) : Option Nat :=
  ((List.range (s.length + 1)).filter fun pos => pattern.isPrefixOf (s.drop pos)).getLast?

/-- The positions of the next two quotes from `pos` on. -/
def findQuotes (input : Bytes) (pos : Nat) : Option (Nat × Nat) :=
  match find input 34 pos with
  | none => none
  | some start =>
    match find input 34 (start + 1) with
    | none => none
    | some stop => some (start, stop)

/-- The text between two quotes. -/
def between (input : Bytes) (quotes : Nat × Nat) : Bytes :=
  substr input (quotes.1 + 1) (quotes.2 - quotes.1 - 1)

/-- The branches of `get` and `delete`. -/
def keyCommand (op : Operation) (input : Bytes) : Operation × Bytes × Bytes :=
  match findQuotes input 0 with
  | none => (.error, [], [])
  | some quotes => (op, between input quotes, [])

/-- The branch of `put`. A key that has been read stays where the value is missing. -/
def putCommand (input : Bytes) : Operation × Bytes × Bytes :=
  match findQuotes input 0 with
  | none => (.error, [], [])
  | some quotes =>
    match findQuotes input (quotes.2 + 1) with
    | none => (.error, between input quotes, [])
    | some valueQuotes => (.put, between input quotes, between input valueQuotes)

/-- The branches of `ls`, `flush` and `clear`: the word, and nothing after it. -/
def plainCommand (op : Operation) (size : Nat) (input : Bytes) : Operation × Bytes × Bytes :=
  if input.length ≠ size then (.error, [], []) else (op, [], [])

/-- `parseCommand`, with the key and the value that it sets. -/
def parseCommand (input : Bytes) : Operation × Bytes × Bytes :=
  if substr input 0 4 = Bytes.ascii "put(" then putCommand input
  else if substr input 0 4 = Bytes.ascii "get(" then keyCommand .get input
  else if substr input 0 7 = Bytes.ascii "delete(" then keyCommand .delete input
  else if substr input 0 2 = Bytes.ascii "ls" then plainCommand .ls 2 input
  else if substr input 0 5 = Bytes.ascii "flush" then plainCommand .flush 5 input
  else if substr input 0 5 = Bytes.ascii "clear" then plainCommand .clear 5 input
  else (.error, [], [])

end CommandParser

/-! ## The engine's part -/

open CommandParser

variable [Platform]

namespace StorageEngine

/-- A part of what `ls` prints: its title, its records, and whether it shows tombstones as such. -/
structure Section where
  title : Bytes
  records : List (Bytes × Entry)
  marksTombstones : Bool

/-- The number in a table's path, as `ls` cuts it out: between the last `_` and the last `.bin`. -/
def tableNumber (path : Bytes) : Option Bytes :=
  match rfind path (Bytes.ascii "_"), rfind path (Bytes.ascii ".bin") with
  | some underscorePos, some dotPos =>
    if dotPos ≤ underscorePos then none else some (substr path (underscorePos + 1) (dotPos - underscorePos - 1))
  | _, _ => none

/-- What `ls` goes through: the memtables that are not empty, and the tables from the last one added to the first. The
    tables' files are where they were written. -/
def listing (s : StorageEngine) : List Section :=
  let memtable (title : String) (m : MemTable) : List Section :=
    if m.snapshot.isEmpty then [] else [⟨Bytes.ascii title, m.snapshot.entries, true⟩]
  memtable "Memtable (active)" s.memtable ++
    (match s.immutableMemtable with
      | none => []
      | some immutable => memtable "Memtable (immutable, flushing)" immutable) ++
    s.version.sstables.reverse.filterMap fun sst =>
      (tableNumber sst.filename).map fun number => ⟨Bytes.ascii "SSTable " ++ number, sst.records.entries, false⟩

/-- A line of a section. A table's tombstone is shown by its value, which is empty. -/
def Section.line (sec : Section) (key : Bytes) (entry : Entry) : Bytes :=
  key ++ Bytes.ascii " " ++
    (if sec.marksTombstones ∧ entry.type = .delete then Bytes.ascii "<TOMBSTONE>" else entry.value) ++
    Bytes.ascii " " ++ Bytes.toDecimal entry.seq ++ Bytes.ascii "\n"

def Section.text (sec : Section) : Bytes :=
  sec.title ++ Bytes.ascii ":\n" ++ sec.records.flatMap (fun (key, entry) => sec.line key entry) ++ Bytes.ascii "\n"

/-- `StorageEngine::ls`: what it prints. -/
def ls (s : StorageEngine) : Bytes := s.listing.flatMap (·.text)

/-- `StorageEngine::clearData`, on a directory that it removes. -/
def clearData (s : StorageEngine) : StorageEngine :=
  { s with
    memtable := s.memtable.clear
    flushCounter := 0
    seqNumber := 1
    version := TableVersion.initial }.clearCache

end StorageEngine

/-- What a command has printed, on the two streams. -/
structure Printed where
  out : Bytes
  err : Bytes
  deriving DecidableEq, Repr

namespace Printed

def nothing : Printed := ⟨[], []⟩

end Printed

/-- `StorageEngine::handleCommand`, `none` where it waits. A `get` that finds nothing prints the value of a fresh
    `Entry`. -/
def StorageEngine.handleCommand (s : StorageEngine) (input : Bytes) : Option (StorageEngine × Printed) :=
  match parseCommand input with
  | (.put, key, value) => some (s.put key value, .nothing)
  | (.get, key, _) =>
    let (result, s) := s.get key
    some (s, ⟨((result.map (·.value)).getD []) ++ Bytes.ascii "\n", []⟩)
  | (.ls, _, _) => some (s, ⟨s.ls, []⟩)
  | (.flush, _, _) => (s.checkFlush true).map fun s => (s, .nothing)
  | (.clear, _, _) => some (s.clearData, .nothing)
  | (.delete, key, _) => some ((s.del key).2, .nothing)
  | (.error, _, _) => some (s, ⟨[], Bytes.ascii "Invalid command\n"⟩)

/-! ## The program -/

/-- A line of the user, or what the engine's own threads do. -/
inductive ShellEvent where
  | line (input : Bytes)
  | autoFlush
  | flushInstall
  | compactL0toL1
  | compactlevelN (level : Nat)
  deriving DecidableEq, Repr

/-- The engine, and what has been printed for each line so far. -/
structure Shell where
  engine : StorageEngine
  printed : List Printed

namespace Shell

/-- `StorageEngine engine("data")`, in an empty directory. -/
def start (cacheSize : Nat) : Shell := ⟨StorageEngine.init (Bytes.ascii "data") cacheSize, []⟩

/-- The step of the engine that an event of the background is. -/
def background : ShellEvent → Option EngineOp
  | .line _ => none
  | .autoFlush => some (.checkFlush false)
  | .flushInstall => some .flushInstall
  | .compactL0toL1 => some .compactL0toL1
  | .compactlevelN level => some (.compactlevelN level)

/-- One event. -/
def step (s : Shell) (event : ShellEvent) : Option Shell :=
  match event with
  | .line input => (s.engine.handleCommand input).map fun (engine, printed) => ⟨engine, s.printed ++ [printed]⟩
  | event => (background event).bind fun op => (s.engine.step op).map fun engine => { s with engine }

end Shell

end KvStorageEngine
