import KvStorageEngine.Engine.StorageEngine
import KvStorageEngine.Engine.WriteQueue

/-!
# `Engine.Shutdown` — the engine's threads and its destructor

`writerThreadLoop`, `flushThreadLoop` and `~StorageEngine` (`engine/src/engine.cpp`) around the queue of
`Engine.WriteQueue` and the engine of `Engine.StorageEngine`. Callers push requests and call `flush()`; the writer
thread, which is the thread `none` of the queue, takes batches out and carries them out; the flush thread writes the
immutable memtable to a table; the compaction thread runs one compaction after the other. The destructor shuts the queue
down, joins the writer, sets `shutdown_`, and joins the flush thread and the compaction thread.

A thread that waits may go on whenever its predicate holds, as a spurious wake-up lets it. So the runs here say what the
threads can do and not that they do it: a notification may be lost, which is the matter of `Engine.FlushSignals`. The
rotation is one step, as there; the log is left out but for its exceptions. Any call for a batch may throw, which fulfils
the promises of the requests that are through with false and breaks those of the others.
-/

namespace KvStorageEngine

variable [Platform]

/-- Where the writer thread is in its loop. -/
inductive WriterLoopPc where
  | calling
  | popping
  | applying (batch results : List QueuedRequest)
  | checking (results : List QueuedRequest)
  | completing (success : Bool) (results : List QueuedRequest)
  | exited
  deriving DecidableEq, Repr

/-- Where the flush thread is in its loop. -/
inductive FlushThreadPc where
  | waiting
  | took (memtableToFlush : MemTable)
  | installed
  | exited

/-- Where the destructor is. -/
inductive DestructorPc where
  | notCalled
  | joiningWriter
  | joiningFlush
  | joiningCompaction
  | returned
  deriving DecidableEq, Repr

/-- The engine, its queue and its threads; `κ` are the callers. -/
structure EngineThreads (κ : Type) where
  queue : WriteQueue (Option κ)
  engine : StorageEngine
  writer : WriterLoopPc
  flushPending : Bool
  flusher : FlushThreadPc
  /-- Whether the compaction thread has left its loop. -/
  compactionExited : Bool
  shutdown : Bool
  destructor : DestructorPc
  /-- History: the requests that were carried out, in order. -/
  executed : List QueuedRequest

/-- A step of a caller, of one of the threads or of the destructor. -/
inductive EngineThreadsOp (κ : Type) where
  | push (i : κ) (request : WriteRequest)
  | pushLock (i : κ)
  | flush
  | popBatch
  | popBatchLock
  | popBatchRelock
  | gotBatch
  | applyNext
  | applied
  | throws (changed : Bool)
  | checkFlush
  | complete
  | flushTake
  | flushInstall
  | flushReset
  | compact (level : Nat)
  | compactionExit
  | destroy
  | join
  deriving DecidableEq, Repr

/-- The promise of a request is fulfilled. -/
def WriteQueue.fulfil {ι : Type} (q : WriteQueue ι) (r : QueuedRequest) (success : Bool) : WriteQueue ι :=
  { q with completions := Function.update q.completions r.id (some success) }

namespace EngineThreads

variable {κ : Type} [DecidableEq κ]

/-- The constructor has started the threads. -/
def start (κ : Type) [DecidableEq κ] (maxSize : Nat) (engine : StorageEngine) : EngineThreads κ :=
  ⟨WriteQueue.init (Option κ) maxSize, engine, .calling, false, .waiting, false, false, .notCalled, []⟩

/-- The part of `checkFlush` under `flush_mutex_`: it waits while there is an immutable memtable, and gives up when
    the engine is shut down. -/
def rotate (s : EngineThreads κ) : Option (EngineThreads κ) :=
  if s.shutdown then some s
  else s.engine.rotate.map fun engine => { s with engine, flushPending := true }

/-- One step, `none` where the thread is not at that point or would wait. -/
def step (s : EngineThreads κ) : EngineThreadsOp κ → Option (EngineThreads κ)
  | .push i request => (s.queue.step (.push (some i) request)).map fun queue => { s with queue }
  | .pushLock i => (s.queue.step (.pushLock (some i))).map fun queue => { s with queue }
  | .flush => s.rotate
  | .popBatch =>
    match s.writer with
    | .calling => (s.queue.step (.popBatch none maxBatchSize)).map fun queue => { s with queue, writer := .popping }
    | _ => none
  | .popBatchLock =>
    match s.writer with
    | .popping => (s.queue.step (.popBatchLock none)).map fun queue => { s with queue }
    | _ => none
  | .popBatchRelock =>
    match s.writer with
    | .popping => (s.queue.step (.popBatchRelock none)).map fun queue => { s with queue }
    | _ => none
  | .gotBatch =>
    match s.writer, s.queue.threads none with
    | .popping, .returned batch => some { s with writer := if batch = [] then .exited else .applying batch [] }
    | _, _ => none
  | .applyNext =>
    match s.writer with
    | .applying (r :: batch) results => some { s with
        engine := s.engine.write r.request
        writer := .applying batch (results ++ [r])
        executed := s.executed ++ [r] }
    | _ => none
  | .applied =>
    match s.writer with
    | .applying [] results => some { s with writer := .checking results }
    | _ => none
  | .throws changed =>
    match s.writer with
    | .applying (r :: _) results =>
      -- before or after the memtable has taken the record
      let memtable := if changed then s.engine.memtable.apply r.request s.engine.seqNumber else s.engine.memtable
      some { s with engine := { s.engine with memtable }, writer := .completing false results }
    | .checking results => some { s with writer := .completing false results }
    | _ => none
  | .checkFlush =>
    match s.writer with
    | .checking results =>
      if StorageEngine.memTableThreshold ≤ s.engine.memtable.getSize then
        s.rotate.map fun s => { s with writer := .completing true results }
      else some { s with writer := .completing true results }
    | _ => none
  | .complete =>
    match s.writer with
    | .completing success (r :: results) =>
      some { s with queue := s.queue.fulfil r success, writer := .completing success results }
    | .completing _ [] => some { s with writer := .calling }
    | _ => none
  | .flushTake =>
    match s.flusher with
    | .waiting =>
      if s.shutdown = true ∨ s.flushPending = true then
        match s.engine.immutableMemtable with
        | some imm => some { s with flushPending := false, flusher := .took imm }
        | none => some { s with flusher := if s.shutdown then .exited else .waiting }
      else none
    | _ => none
  | .flushInstall =>
    match s.flusher with
    | .took imm => some { s with engine := s.engine.flushTable imm, flusher := .installed }
    | _ => none
  | .flushReset =>
    match s.flusher with
    | .installed => some { s with engine := s.engine.resetImmutable, flusher := .waiting }
    | _ => none
  | .compact level =>
    if s.compactionExited then none
    else some { s with engine := if level = 0 then s.engine.compactL0toL1 else s.engine.compactlevelN level }
  | .compactionExit =>
    if s.shutdown = true ∧ s.compactionExited = false then some { s with compactionExited := true } else none
  | .destroy =>
    match s.destructor with
    | .notCalled => (s.queue.step .shutdown).map fun queue => { s with queue, destructor := .joiningWriter }
    | _ => none
  | .join =>
    match s.destructor with
    | .joiningWriter =>
      -- `shutdown_` is set when the writer has gone
      if s.writer = .exited then some { s with shutdown := true, destructor := .joiningFlush } else none
    | .joiningFlush =>
      match s.flusher with
      | .exited => some { s with destructor := .joiningCompaction }
      | _ => none
    | .joiningCompaction => if s.compactionExited then some { s with destructor := .returned } else none
    | _ => none

/-! ## What a step does -/

/-- The steps of the queue that are part of a caller's step, and of a step of the writer thread in `popBatch`. -/
inductive OfCaller : EngineThreadsOp κ → QueueOp (Option κ) → Prop where
  | push (i : κ) (request : WriteRequest) : OfCaller (.push i request) (.push (some i) request)
  | pushLock (i : κ) : OfCaller (.pushLock i) (.pushLock (some i))

inductive OfWriter : EngineThreadsOp κ → QueueOp (Option κ) → Prop where
  | popBatchLock : OfWriter .popBatchLock (.popBatchLock none)
  | popBatchRelock : OfWriter .popBatchRelock (.popBatchRelock none)

/-- The effects of the steps, one constructor for each thing that can happen. -/
inductive Effect (s : EngineThreads κ) : EngineThreadsOp κ → EngineThreads κ → Prop where
  | call {op : EngineThreadsOp κ} {qop : QueueOp (Option κ)} {queue : WriteQueue (Option κ)} (hop : OfCaller op qop)
      (hq : s.queue.step qop = some queue) : Effect s op { s with queue }
  | flushIgnored (hshut : s.shutdown = true) : Effect s .flush s
  | flush {engine : StorageEngine} (hopen : s.shutdown = false) (hengine : s.engine.rotate = some engine) :
      Effect s .flush { s with engine, flushPending := true }
  | popBatch {queue : WriteQueue (Option κ)} (hpc : s.writer = .calling)
      (hq : s.queue.step (.popBatch none maxBatchSize) = some queue) :
      Effect s .popBatch { s with queue, writer := .popping }
  | popLock {op : EngineThreadsOp κ} {qop : QueueOp (Option κ)} {queue : WriteQueue (Option κ)} (hop : OfWriter op qop)
      (hpc : s.writer = .popping) (hq : s.queue.step qop = some queue) : Effect s op { s with queue }
  | exit (hpc : s.writer = .popping) (hq : s.queue.threads none = .returned []) :
      Effect s .gotBatch { s with writer := .exited }
  | gotBatch {batch : List QueuedRequest} (hpc : s.writer = .popping) (hq : s.queue.threads none = .returned batch)
      (hne : batch ≠ []) : Effect s .gotBatch { s with writer := .applying batch [] }
  | applyNext {r : QueuedRequest} {batch results : List QueuedRequest} (hpc : s.writer = .applying (r :: batch) results) :
      Effect s .applyNext { s with
        engine := s.engine.write r.request
        writer := .applying batch (results ++ [r])
        executed := s.executed ++ [r] }
  | applied {results : List QueuedRequest} (hpc : s.writer = .applying [] results) :
      Effect s .applied { s with writer := .checking results }
  | throwsApplying {changed : Bool} {r : QueuedRequest} {batch results : List QueuedRequest} {memtable : MemTable}
      (hpc : s.writer = .applying (r :: batch) results) : Effect s (.throws changed)
        { s with engine := { s.engine with memtable }, writer := .completing false results }
  | throwsChecking {changed : Bool} {results : List QueuedRequest} (hpc : s.writer = .checking results) :
      Effect s (.throws changed) { s with writer := .completing false results }
  | noRotation {results : List QueuedRequest} (hpc : s.writer = .checking results) :
      Effect s .checkFlush { s with writer := .completing true results }
  | rotation {results : List QueuedRequest} {engine : StorageEngine} (hpc : s.writer = .checking results)
      (hopen : s.shutdown = false) (hengine : s.engine.rotate = some engine) :
      Effect s .checkFlush { s with engine, flushPending := true, writer := .completing true results }
  | complete {r : QueuedRequest} {success : Bool} {results : List QueuedRequest}
      (hpc : s.writer = .completing success (r :: results)) : Effect s .complete
        { s with queue := s.queue.fulfil r success, writer := .completing success results }
  | nextBatch {success : Bool} (hpc : s.writer = .completing success []) :
      Effect s .complete { s with writer := .calling }
  | flushTake {imm : MemTable} (hpc : s.flusher = .waiting) (himm : s.engine.immutableMemtable = some imm) :
      Effect s .flushTake { s with flushPending := false, flusher := .took imm }
  | flushAgain (hpc : s.flusher = .waiting) (himm : s.engine.immutableMemtable = none)
      (hpending : s.flushPending = true) (hopen : s.shutdown = false) : Effect s .flushTake { s with flusher := .waiting }
  | flushExit (hpc : s.flusher = .waiting) (himm : s.engine.immutableMemtable = none) (hshut : s.shutdown = true) :
      Effect s .flushTake { s with flusher := .exited }
  | flushInstall {imm : MemTable} (hpc : s.flusher = .took imm) :
      Effect s .flushInstall { s with engine := s.engine.flushTable imm, flusher := .installed }
  | flushReset (hpc : s.flusher = .installed) :
      Effect s .flushReset { s with engine := s.engine.resetImmutable, flusher := .waiting }
  | compact (level : Nat) (hpc : s.compactionExited = false) : Effect s (.compact level)
      { s with engine := if level = 0 then s.engine.compactL0toL1 else s.engine.compactlevelN level }
  | compactionExit (hshut : s.shutdown = true) (hpc : s.compactionExited = false) :
      Effect s .compactionExit { s with compactionExited := true }
  | destroy {queue : WriteQueue (Option κ)} (hpc : s.destructor = .notCalled)
      (hq : s.queue.step .shutdown = some queue) :
      Effect s .destroy { s with queue, destructor := .joiningWriter }
  | joinWriter (hpc : s.destructor = .joiningWriter) (hwriter : s.writer = .exited) :
      Effect s .join { s with shutdown := true, destructor := .joiningFlush }
  | joinFlush (hpc : s.destructor = .joiningFlush) (hflusher : s.flusher = .exited) :
      Effect s .join { s with destructor := .joiningCompaction }
  | joinCompaction (hpc : s.destructor = .joiningCompaction) (hexited : s.compactionExited = true) :
      Effect s .join { s with destructor := .returned }

/-- Every step has one of these effects. -/
theorem Effect.of_step {s s' : EngineThreads κ} {op : EngineThreadsOp κ} (h : s.step op = some s') :
    Effect s op s' := by
  cases op with
  | push i request =>
      obtain ⟨queue, hq, rfl⟩ := Option.map_eq_some_iff.mp h
      exact .call (.push i request) hq
  | pushLock i =>
      obtain ⟨queue, hq, rfl⟩ := Option.map_eq_some_iff.mp h
      exact .call (.pushLock i) hq
  | flush =>
      simp only [step, rotate] at h
      split_ifs at h with hshut
      · exact Option.some.inj h ▸ .flushIgnored hshut
      · obtain ⟨engine, hengine, rfl⟩ := Option.map_eq_some_iff.mp h
        exact .flush (by simpa using hshut) hengine
  | popBatch =>
      unfold step at h; dsimp only at h; split at h <;> try contradiction
      next hpc =>
        obtain ⟨queue, hq, rfl⟩ := Option.map_eq_some_iff.mp h
        exact .popBatch hpc hq
  | popBatchLock =>
      unfold step at h; dsimp only at h; split at h <;> try contradiction
      next hpc =>
        obtain ⟨queue, hq, rfl⟩ := Option.map_eq_some_iff.mp h
        exact .popLock .popBatchLock hpc hq
  | popBatchRelock =>
      unfold step at h; dsimp only at h; split at h <;> try contradiction
      next hpc =>
        obtain ⟨queue, hq, rfl⟩ := Option.map_eq_some_iff.mp h
        exact .popLock .popBatchRelock hpc hq
  | gotBatch =>
      unfold step at h; dsimp only at h; split at h <;> try contradiction
      next batch hpc hq =>
        rw [← Option.some.inj h]
        by_cases hne : batch = []
        · simpa only [if_pos hne] using Effect.exit hpc (hne ▸ hq)
        · simpa only [if_neg hne] using Effect.gotBatch hpc hq hne
  | applyNext =>
      unfold step at h; dsimp only at h; split at h <;> try contradiction
      next r batch results hpc => exact Option.some.inj h ▸ .applyNext hpc
  | applied =>
      unfold step at h; dsimp only at h; split at h <;> try contradiction
      next results hpc => exact Option.some.inj h ▸ .applied hpc
  | throws changed =>
      unfold step at h; dsimp only at h; split at h <;> try contradiction
      next r batch results hpc => exact Option.some.inj h ▸ .throwsApplying hpc
      next results hpc => exact Option.some.inj h ▸ .throwsChecking hpc
  | checkFlush =>
      unfold step at h; dsimp only at h; split at h <;> try contradiction
      next results hpc =>
        split_ifs at h with hfull
        · obtain ⟨t, ht, rfl⟩ := Option.map_eq_some_iff.mp h
          unfold rotate at ht
          split_ifs at ht with hshut
          · exact Option.some.inj ht ▸ .noRotation hpc
          · obtain ⟨engine, hengine, rfl⟩ := Option.map_eq_some_iff.mp ht
            exact .rotation hpc (by simpa using hshut) hengine
        · exact Option.some.inj h ▸ .noRotation hpc
  | complete =>
      unfold step at h; dsimp only at h; split at h <;> try contradiction
      next success r results hpc => exact Option.some.inj h ▸ .complete hpc
      next success hpc => exact Option.some.inj h ▸ .nextBatch hpc
  | flushTake =>
      unfold step at h; dsimp only at h; split at h <;> try contradiction
      next hpc =>
        by_cases hready : s.shutdown = true ∨ s.flushPending = true
        · rw [if_pos hready] at h
          split at h
          next imm himm => exact Option.some.inj h ▸ .flushTake hpc himm
          next himm =>
            by_cases hshut : s.shutdown = true
            · rw [if_pos hshut] at h
              exact Option.some.inj h ▸ .flushExit hpc himm hshut
            · rw [if_neg hshut] at h
              exact Option.some.inj h ▸ .flushAgain hpc himm (hready.resolve_left hshut) (by simpa using hshut)
        · rw [if_neg hready] at h
          contradiction
  | flushInstall =>
      unfold step at h; dsimp only at h; split at h <;> try contradiction
      next imm hpc => exact Option.some.inj h ▸ .flushInstall hpc
  | flushReset =>
      unfold step at h; dsimp only at h; split at h <;> try contradiction
      next hpc => exact Option.some.inj h ▸ .flushReset hpc
  | compact level =>
      by_cases hexited : s.compactionExited = true
      · simp [step, hexited] at h
      · simp only [step, if_neg hexited] at h
        exact Option.some.inj h ▸ .compact level (by simpa using hexited)
  | compactionExit =>
      simp only [step] at h
      split_ifs at h with hexits
      exact Option.some.inj h ▸ .compactionExit hexits.1 hexits.2
  | destroy =>
      unfold step at h; dsimp only at h; split at h <;> try contradiction
      next hpc =>
        obtain ⟨queue, hq, rfl⟩ := Option.map_eq_some_iff.mp h
        exact .destroy hpc hq
  | join =>
      unfold step at h; dsimp only at h; split at h <;> try contradiction
      next hpc =>
        split_ifs at h with hwriter
        exact Option.some.inj h ▸ .joinWriter hpc hwriter
      next hpc =>
        split at h <;> try contradiction
        next hflusher => exact Option.some.inj h ▸ .joinFlush hpc hflusher
      next hpc =>
        split_ifs at h with hexited
        exact Option.some.inj h ▸ .joinCompaction hpc hexited

end EngineThreads

end KvStorageEngine
