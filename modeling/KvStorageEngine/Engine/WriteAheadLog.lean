import KvStorageEngine.Lib.Run

/-!
# `Engine.WriteAheadLog` — the two buffers of the log

`engine/src/wal.cpp`. `append` adds an encoded record to `write_buffer_`. The sync thread's `doSync` swaps
the two buffers under the lock, writes the swapped one to the file and then advances `synced_generation_` to
whatever `sync_generation_` is by then; `flush` advances `sync_generation_` and waits until
`synced_generation_` has caught up with it. `flush` is called by the writer thread and by whoever calls
`StorageEngine::flush`, so any number of calls can be under way.

The sync thread wakes up on request and by its timer, so a `doSync` can start at any time. `step` takes every
write to be complete, `AckedLog.step` leaves its outcome open and has the writer thread report the puts whose
records it has flushed. The descriptor is taken to be open. What a buffer consists of does not matter here: `β`
is a byte in the code.
-/

namespace KvStorageEngine

/-- Where the sync thread is in `doSync`. -/
inductive SyncPc where
  | idle
  | swapped
  | written
  deriving DecidableEq, Repr

/-- Where a call of `WriteAheadLog::flush` is. `before` is history: how many records had been appended when
    the call began. -/
inductive BarrierPc where
  | idle
  | requested (before : Nat)
  | waiting (before : Nat) (myGen : Nat)
  | returned (before : Nat)
  deriving DecidableEq, Repr

/-- The log: buffers, generations, the file, and the threads `ι` that call `flush`. -/
structure WriteAheadLog (β ι : Type) where
  writeBuffer : List β
  syncBuffer : List β
  writeBufferSize : Nat
  syncGeneration : Nat
  syncedGeneration : Nat
  file : List β
  sync : SyncPc
  flushers : ι → BarrierPc
  /-- History: the encodings of the records appended, in order. -/
  appended : List (List β)

/-- A step of a thread that appends, of one that flushes, or of the sync thread. -/
inductive WalOp (β ι : Type) where
  | append (entry : List β)
  | flushRequest (i : ι)
  | flushLoad (i : ι)
  | flushReturn (i : ι)
  | syncSwap
  | syncWrite
  | syncStore

namespace WriteAheadLog

variable {β ι : Type} [DecidableEq ι]

/-- The constructor: the file is opened to append to what it holds. -/
def new (ι : Type) (file : List β) : WriteAheadLog β ι where
  writeBuffer := []
  syncBuffer := []
  writeBufferSize := 0
  syncGeneration := 0
  syncedGeneration := 0
  file := file
  sync := .idle
  flushers _ := .idle
  appended := []

def setPc (s : WriteAheadLog β ι) (i : ι) (pc : BarrierPc) : WriteAheadLog β ι :=
  { s with flushers := Function.update s.flushers i pc }

/-- One step, `none` where the thread is not at that point or would wait. -/
def step (s : WriteAheadLog β ι) : WalOp β ι → Option (WriteAheadLog β ι)
  | .append entry => some { s with
      writeBuffer := s.writeBuffer ++ entry
      writeBufferSize := s.writeBufferSize + entry.length
      appended := s.appended ++ [entry] }
  | .flushRequest i =>
    match s.flushers i with
    | .idle | .returned _ => some ({ s with syncGeneration := s.syncGeneration + 1 }.setPc i
        (.requested s.appended.length))
    | _ => none
  | .flushLoad i =>
    match s.flushers i with
    | .requested before => some (s.setPc i (.waiting before s.syncGeneration))
    | _ => none
  | .flushReturn i =>
    match s.flushers i with
    | .waiting before myGen =>
      if myGen ≤ s.syncedGeneration then some (s.setPc i (.returned before)) else none
    | _ => none
  | .syncSwap =>
    match s.sync with
    | .idle =>
      -- nothing to write: every generation asked for so far is done
      if s.writeBufferSize = 0 then some { s with syncedGeneration := s.syncGeneration }
      else some { s with
        writeBuffer := []
        syncBuffer := s.writeBuffer
        writeBufferSize := 0
        sync := .swapped }
    | _ => none
  | .syncWrite =>
    match s.sync with
    | .swapped => some { s with
        file := s.file ++ s.syncBuffer
        syncBuffer := []
        sync := .written }
    | _ => none
  | .syncStore =>
    match s.sync with
    | .written => some { s with syncedGeneration := s.syncGeneration, sync := .idle }
    | _ => none

/-- The log after a `write` of `n` bytes: the buffer is cleared whatever the result was. -/
def wrote (s : WriteAheadLog β ι) (n : Nat) : WriteAheadLog β ι :=
  { s with file := s.file ++ s.syncBuffer.take n, syncBuffer := [], sync := .written }

end WriteAheadLog

/-! ## Writes that fail -/

/-- The log and the writer thread. The threads that call `flush` are the writer thread, `none`, and the callers of
    `StorageEngine::flush`. -/
structure AckedLog (β ι : Type) where
  log : WriteAheadLog β (Option ι)
  /-- For so many of the records, in order, the put has been reported successful. -/
  acked : Nat

/-- A step of the log whose write, if it is one, is complete, a `write` that returns less, or the writer thread
    completing the batch it has flushed. -/
inductive AckedLogOp (β ι : Type) where
  | log (op : WalOp β (Option ι))
  | writeShort (n : Nat)
  | writeFailed
  | complete

namespace AckedLog

variable {β ι : Type} [DecidableEq ι]

def new (ι : Type) (file : List β) : AckedLog β ι := ⟨WriteAheadLog.new (Option ι) file, 0⟩

def step (s : AckedLog β ι) : AckedLogOp β ι → Option (AckedLog β ι)
  | .log op => (s.log.step op).map fun log => { s with log }
  | .writeShort n =>
    match s.log.sync with
    | .swapped => if n < s.log.syncBuffer.length then some { s with log := s.log.wrote n } else none
    | _ => none
  | .writeFailed =>
    match s.log.sync with
    -- the error is printed
    | .swapped => some { s with log := s.log.wrote 0 }
    | _ => none
  | .complete =>
    match s.log.flushers none with
    | .returned before => some { s with acked := before }
    | _ => none

end AckedLog

end KvStorageEngine
