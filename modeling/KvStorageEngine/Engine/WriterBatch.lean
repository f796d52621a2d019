import KvStorageEngine.Engine.LogCodec
import KvStorageEngine.Engine.StorageEngine

/-!
# `Engine.WriterBatch` — a batch and its exceptions

One round of `writerThreadLoop` (`engine/src/engine.cpp`) on the batch it has taken. Any call in the `try` block can
throw; which do, and what they have done by then, is up to the environment (`Calls`). The promises are set in a second
loop, over the results that were collected.

A request is its position in the batch. `put` of the memtable always returns `true`, so no request is passed over.
-/

namespace KvStorageEngine

variable [Platform]

/-- How the calls of a round return. -/
structure Calls where
  /-- `memtable_.put` or `del` of a request throws, and whether the table has changed by then. -/
  update : Nat → Option Bool
  /-- Its `wal_.append` throws, and how many bytes are in the buffer by then. -/
  append : Nat → Option Nat
  /-- `wal_.flush` throws. -/
  flush : Bool
  /-- `checkFlush` throws, or leaves the engine so. It may wait for the flush thread in between. -/
  checkFlush : Option (StorageEngine → StorageEngine)

/-- What the round works on. -/
structure WriterBatch where
  engine : StorageEngine
  /-- The bytes that are appended to the log. -/
  log : Bytes
  /-- The request and its `success`. -/
  results : List (Nat × Bool)
  /-- The promises that are set, in order. -/
  completions : List (Nat × Bool)
  /-- History: the requests that have changed the memtable. -/
  updated : List Nat
  /-- History: the requests that have changed the log. -/
  logged : List Nat

namespace WriterBatch

/-- A new round. -/
def start (engine : StorageEngine) (log : Bytes) : WriterBatch := ⟨engine, log, [], [], [], []⟩

/-- The memtable takes a request. -/
def update (s : WriterBatch) (i : Nat) (request : WriteRequest) : WriterBatch :=
  { s with
    engine := { s.engine with memtable := s.engine.memtable.apply request s.engine.seqNumber }
    updated := s.updated ++ [i] }

/-- The log takes some bytes of a request. -/
def append (s : WriterBatch) (i : Nat) (bytes : Bytes) : WriterBatch :=
  { s with log := s.log ++ bytes, logged := if bytes = [] then s.logged else s.logged ++ [i] }

/-- The request is done, with `seq_number_++` and `cache_->invalidate`. -/
def advance (s : WriterBatch) (i : Nat) (request : WriteRequest) : WriterBatch :=
  { s with
    engine := { s.engine with seqNumber := s.engine.seqNumber + 1 }.invalidate request.key
    results := s.results ++ [(i, true)] }

variable [Zlib]

/-- The body of the loop over the batch, and whether it has thrown. -/
def applyRequest (calls : Calls) (i : Nat) (request : WriteRequest) (s : WriterBatch) : WriterBatch × Bool :=
  let bytes := (LogRecord.toWal ⟨request, s.engine.seqNumber⟩).bytes
  match calls.update i with
  | some changed => (if changed then s.update i request else s, true)
  | none =>
    match calls.append i with
    | some n => ((s.update i request).append i (bytes.take n), true)
    | none => (((s.update i request).append i bytes).advance i request, false)

/-- The loop over the batch, from request `i` on. -/
def applyAll (calls : Calls) : Nat → List WriteRequest → WriterBatch → WriterBatch × Bool
  | _, [], s => (s, false)
  | i, request :: batch, s =>
    let (s, threw) := s.applyRequest calls i request
    if threw then (s, true) else applyAll calls (i + 1) batch s

/-- The `try` block. -/
def tryBlock (calls : Calls) (batch : List WriteRequest) (s : WriterBatch) : WriterBatch × Bool :=
  let (s, threw) := applyAll calls 0 batch s
  if threw then (s, true)
  else if calls.flush then (s, true)
  else match calls.checkFlush with
    | none => (s, true)
    | some rotate => ({ s with engine := rotate s.engine }, false)

/-- The round. -/
def run (calls : Calls) (batch : List WriteRequest) (s : WriterBatch) : WriterBatch :=
  let (s, threw) := s.tryBlock calls batch
  -- the `catch`: what was collected is set to false
  let s := if threw then { s with results := s.results.map fun result => (result.1, false) } else s
  { s with completions := s.results }

end WriterBatch

end KvStorageEngine
