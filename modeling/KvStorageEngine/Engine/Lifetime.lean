import KvStorageEngine.Engine.DataDir
import KvStorageEngine.Engine.Handover
import KvStorageEngine.Engine.WriteAheadLog

/-!
# `Engine.Lifetime` — one life of a store on its data directory

What a `StorageEngine` does between its constructor and its stop, and what it leaves on disk
(`engine/src/engine.cpp`). `writerThreadLoop` takes a batch of requests; each goes into the memtable, into the
log and then uses up its sequence number. At the end of the batch the thread flushes the log, calls `checkFlush`
and completes the requests one by one. `checkFlush`, also called by `StorageEngine::flush` from any thread,
flushes the log, rotates the memtable and removes `log.bin`. `flushThreadLoop` writes the table, installs the
version, saves the metadata and drops the immutable memtable. The log has a thread of its own.

The log keeps the descriptor it has opened: when `log.bin` is removed (`linked = false`) it writes on into a
file that no path leads to, and that file is gone with the process. So `disk` is the directory a later
constructor finds.

The steps of different threads interleave freely, except that `flush_mutex_` lets one rotation through at a
time. Reads leave nothing on disk and are left out, and so is the compaction thread. A table file, a
`saveMetadata` and a `write` of the log with its `fsync` are one step each. A clean stop is a stop after the
threads have run out, so it needs no step of its own.
-/

namespace KvStorageEngine

variable [Platform]

/-- Who calls `WriteAheadLog::flush`: the writer thread for its batch, or a `checkFlush`. The writer thread's own
    `checkFlush` is `none`, that of a thread in `StorageEngine::flush` is `some t`. -/
inductive LogCaller (κ : Type) where
  | batch
  | checkFlush (t : Option κ)
  deriving DecidableEq, Repr

/-- Where the writer thread is, with what is left of its batch. -/
inductive WriterPc where
  | idle
  | applying (batch : List WriteRequest)
  | updated (request : WriteRequest) (batch : List WriteRequest)
  | appended (request : WriteRequest) (batch : List WriteRequest)
  | flushing
  | checking
  | completing
  deriving DecidableEq, Repr

/-- Where a `checkFlush` is. In `rotating` it holds `flush_mutex_`. -/
inductive CheckFlushPc where
  | idle
  | flushing
  | rotating
  | unlinking
  deriving DecidableEq, Repr

/-- Where the flush thread is in a round. -/
inductive FlusherPc where
  | idle
  | written (sst : SSTable)
  | installed
  | saved

/-- The engine with its threads, its log and the directory it runs on. -/
structure Lifetime (κ : Type) where
  engine : StorageEngine
  log : WriteAheadLog LogRecord (LogCaller κ)
  /-- Whether the log's file is still the one under `log.bin`. -/
  linked : Bool
  /-- The directory without the log. -/
  dir : DataDir
  writer : WriterPc
  callers : Option κ → CheckFlushPc
  rotation : RotationPc
  flusher : FlusherPc
  /-- History: the writes of this life, in the order of the queue. -/
  written : List LogRecord
  /-- History: how many of them have been acknowledged. -/
  acked : Nat

/-- A step of the writer thread, of a `checkFlush`, of the flush thread or inside the log. -/
inductive LifetimeOp (κ : Type) where
  | popBatch (batch : List WriteRequest)
  | update
  | append
  | advance
  | flushLog
  | checkFlush
  | complete
  | flush (t : κ)
  | rotateCopy (t : Option κ)
  | rotateClear (t : Option κ)
  | rotatePublish (t : Option κ)
  | unlink (t : Option κ)
  | flushWrite
  | flushInstall
  | flushSave
  | flushReset
  | log (op : WalOp LogRecord (LogCaller κ))

namespace Lifetime

variable {κ : Type} [DecidableEq κ]

/-- The constructor on a directory, with its threads at rest. -/
def boot (κ : Type) (d : DataDir) (dataDir : Bytes) (cacheSize : Nat) : Option (Lifetime κ) :=
  (d.construct dataDir cacheSize).map fun engine =>
    ⟨engine, WriteAheadLog.new _ d.log, true, d, .idle, fun _ => .idle, .idle, .idle, [], 0⟩

/-- The directory a stop leaves behind. -/
def disk (s : Lifetime κ) : DataDir := { s.dir with log := if s.linked then s.log.file else [] }

def setPc (s : Lifetime κ) (t : Option κ) (pc : CheckFlushPc) : Lifetime κ :=
  { s with callers := Function.update s.callers t pc }

/-- A `checkFlush` that rotates begins with a flush of the log. -/
def enterCheckFlush (s : Lifetime κ) (t : Option κ) : Option (Lifetime κ) :=
  match s.callers t with
  | .idle => (s.log.step (.flushRequest (.checkFlush t))).map fun log => { s with log }.setPc t .flushing
  | _ => none

/-- One step, `none` where the thread is not at that point or would wait. -/
def step (s : Lifetime κ) : LifetimeOp κ → Option (Lifetime κ)
  | .popBatch batch =>
    match s.writer with
    | .idle =>
      if batch = [] ∨ maxBatchSize < batch.length then none else some { s with writer := .applying batch }
    | _ => none
  | .update =>
    match s.writer with
    | .applying (request :: batch) => some { s with
        engine := { s.engine with memtable := s.engine.memtable.apply request s.engine.seqNumber }
        writer := .updated request batch
        written := s.written ++ [⟨request, s.engine.seqNumber⟩] }
    | _ => none
  | .append =>
    match s.writer with
    | .updated request batch =>
      (s.log.step (.append [⟨request, s.engine.seqNumber⟩])).map fun log =>
        { s with log, writer := .appended request batch }
    | _ => none
  | .advance =>
    match s.writer with
    | .appended request batch => some { s with
        engine := { s.engine with seqNumber := s.engine.seqNumber + 1 }.invalidate request.key
        writer := .applying batch }
    | _ => none
  | .flushLog =>
    match s.writer with
    | .applying [] => (s.log.step (.flushRequest .batch)).map fun log => { s with log, writer := .flushing }
    | _ => none
  | .checkFlush =>
    match s.writer, s.log.flushers .batch with
    | .flushing, .returned _ =>
      if StorageEngine.memTableThreshold ≤ s.engine.memtable.getSize then
        { s with writer := .checking }.enterCheckFlush none
      else some { s with writer := .completing }
    | _, _ => none
  | .complete =>
    match s.writer with
    -- the promises are fulfilled one after the other
    | .completing => some { s with
        acked := s.acked + 1
        writer := if s.acked + 1 = s.written.length then .idle else .completing }
    | _ => none
  | .flush t => s.enterCheckFlush (some t)
  | .rotateCopy t =>
    match s.callers t, s.log.flushers (.checkFlush t), s.rotation, s.engine.immutableMemtable with
    | .flushing, .returned _, .idle, none => some ({ s with
        rotation := .copied (MemTable.copyOf s.engine.memtable.snapshot) }.setPc t .rotating)
    | _, _, _, _ => none
  | .rotateClear t =>
    match s.callers t, s.rotation with
    | .rotating, .copied imm => some { s with
        engine := { s.engine with memtable := s.engine.memtable.clear }
        rotation := .cleared imm }
    | _, _ => none
  | .rotatePublish t =>
    match s.callers t, s.rotation with
    | .rotating, .cleared imm => some ({ s with
        engine := { s.engine with immutableMemtable := some imm }
        rotation := .idle }.setPc t .unlinking)
    | _, _ => none
  | .unlink t =>
    match s.callers t with
    | .unlinking => some ({ s with
        linked := false
        writer := if t = none then .completing else s.writer }.setPc t .idle)
    | _ => none
  | .flushWrite =>
    match s.flusher, s.engine.immutableMemtable with
    | .idle, some imm =>
      -- an empty memtable leaves no table behind
      if imm.snapshot.isEmpty then some { s with flusher := .saved }
      else
        let id := s.engine.flushCounter + 1
        let sst := SSTable.flush imm.snapshot (sstableDir s.engine.dataDir) id
        some { s with
          engine := { s.engine with flushCounter := id }
          dir := s.dir.writeTable sst
          flusher := .written sst }
    | _, _ => none
  | .flushInstall =>
    match s.flusher with
    | .written sst =>
      let m := sst.meta s.engine.flushCounter (s.engine.seqNumber - 1) 0
      some { s with
        engine := { s.engine with
          version := StorageEngine.installFlushed s.engine.version.copyFrom sst m }
        flusher := .installed }
    | _ => none
  | .flushSave =>
    match s.flusher with
    | .installed => some { s with
        engine := s.engine.clearCache
        dir := s.dir.saveMetadata s.engine
        flusher := .saved }
    | _ => none
  | .flushReset =>
    match s.flusher with
    | .saved => some { s with engine := s.engine.resetImmutable, flusher := .idle }
    | _ => none
  | .log op =>
    match op with
    -- these two are parts of other steps
    | .append _ | .flushRequest _ => none
    | op => (s.log.step op).map fun log => { s with log }

/-! ## The threads on their own -/

/-- The steps of a request in a row. -/
theorem exec_request (s : Lifetime κ) {key value : Bytes} {batch : List WriteRequest}
    (h : s.writer = .applying (.put key value :: batch)) :
    (Run.exec step s [.update, .append, .advance]).map (·.engine) = some (s.engine.put key value) := by
  simp [Run.exec_cons, step, h, WriteAheadLog.step]
  rfl

/-- A rotation in a row. -/
theorem exec_rotation (s : Lifetime κ) {t : Option κ} {before : Nat} (hpc : s.callers t = .flushing)
    (hlog : s.log.flushers (.checkFlush t) = .returned before) (hidle : s.rotation = .idle) :
    (Run.exec step s [.rotateCopy t, .rotateClear t, .rotatePublish t]).map (·.engine)
      = s.engine.rotate := by
  unfold StorageEngine.rotate
  cases himm : s.engine.immutableMemtable <;> simp [Run.exec_cons, step, setPc, hpc, hlog, hidle, himm]

/-- A round of the flush thread in a row, on an immutable memtable with records. -/
theorem exec_round (s : Lifetime κ) {imm : MemTable} (hpc : s.flusher = .idle)
    (himm : s.engine.immutableMemtable = some imm) (hne : imm.snapshot.isEmpty = false) :
    (Run.exec step s [.flushWrite, .flushInstall, .flushSave, .flushReset]).map (·.engine)
      = s.engine.flushInstall := by
  unfold StorageEngine.flushInstall StorageEngine.flushTable
  simp [Run.exec_cons, step, hpc, himm, hne]

end Lifetime

end KvStorageEngine
