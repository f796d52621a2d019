import KvStorageEngine.Engine.StorageEngine
import KvStorageEngine.Lib.Run
import Mathlib.Data.Finset.Basic

/-!
# `Engine.FlushSignals` — who waits for whom at the hand-over

`checkFlush` and `flushThreadLoop` (`engine/src/engine.cpp`) before the shutdown, with `flush_mutex_` and the wait set
of `flush_cv_`. The threads that run `checkFlush`, the writer thread and the callers of `flush()`, wait while there is
an immutable memtable; the flush thread waits until `flush_pending_` is set. Both wait on the one condition variable,
and `notify_one` picks any of them.

`immutable_memtable_` is reset without the mutex. So a caller that has seen one goes to sleep in a step of its own
(`wait`), and the flush thread may move in between. `flush_pending_` changes under the mutex only, so that the flush
thread tests it and goes to sleep in one step. A thread whose wait has ended is still `waiting`, but no longer in the
wait set, and goes on by testing its condition again. What is done to the memtables is in `Engine.Handover`.
-/

namespace KvStorageEngine

variable [Platform]

/-- A thread that waits on `flush_cv_`. -/
inductive Waiter (ι : Type) where
  | flushThread
  | caller (i : ι)
  deriving DecidableEq, Repr

/-- Where a thread is in `checkFlush`. In `checked` and `rotating` it holds `flush_mutex_`, having seen an immutable
    memtable or none. -/
inductive CallerPc where
  | idle
  | locking
  | checked
  | waiting
  | rotating
  | published
  deriving DecidableEq, Repr

/-- Where the flush thread is in its loop. -/
inductive FlushLoopPc where
  | locking
  | waiting
  | took (memtableToFlush : MemTable)
  | installed
  | reset

/-- The engine, the flush thread and the threads `ι` that run `checkFlush`. -/
structure FlushSignals (ι : Type) where
  engine : StorageEngine
  flushPending : Bool
  /-- Who holds `flush_mutex_` between two steps. -/
  mutex : Option ι
  waitSet : Finset (Waiter ι)
  flusher : FlushLoopPc
  callers : ι → CallerPc

/-- A write, or a step of a caller, of the flush thread or of the condition variable, which may wake a thread up for
    no reason. -/
inductive SignalOp (ι : Type) where
  | write (request : WriteRequest)
  | call (i : ι) (debug : Bool)
  | check (i : ι)
  | wait (i : ι)
  | publish (i : ι)
  | notifyOne (i : ι) (woken : Option (Waiter ι))
  | wake (w : Waiter ι)
  | flushCheck
  | flushInstall
  | flushReset
  | notifyAll

namespace FlushSignals

variable {ι : Type} [DecidableEq ι]

def start (ι : Type) (engine : StorageEngine) : FlushSignals ι :=
  ⟨engine, false, none, ∅, .locking, fun _ => .idle⟩

def setPc (s : FlushSignals ι) (i : ι) (pc : CallerPc) : FlushSignals ι :=
  { s with callers := Function.update s.callers i pc }

/-- The caller is about to test for an immutable memtable, for the first time or because its wait has ended. -/
def AtCheck (s : FlushSignals ι) (i : ι) : Prop :=
  s.callers i = .locking ∨ s.callers i = .waiting ∧ Waiter.caller i ∉ s.waitSet

instance (s : FlushSignals ι) (i : ι) : Decidable (s.AtCheck i) := inferInstanceAs (Decidable (_ ∨ _))

/-- The flush thread is about to test its predicate. -/
def FlushAtCheck (s : FlushSignals ι) : Prop :=
  match s.flusher with
  | .locking => True
  | .waiting => Waiter.flushThread ∉ s.waitSet
  | .took _ | .installed | .reset => False

instance (s : FlushSignals ι) : Decidable s.FlushAtCheck := by
  unfold FlushAtCheck
  split <;> infer_instance

/-- One step, `none` where the thread is not at that point or would wait for the mutex. -/
def step (s : FlushSignals ι) : SignalOp ι → Option (FlushSignals ι)
  | .write request => some { s with engine := match request with
      | .put key value => s.engine.put key value
      | .delete key => s.engine.writeTombstone key }
  | .call i debug =>
    match s.callers i with
    | .idle =>
      if StorageEngine.memTableThreshold ≤ s.engine.memtable.getSize ∨ debug = true then some (s.setPc i .locking)
      else none
    | _ => none
  | .check i =>
    if s.mutex = none ∧ s.AtCheck i then
      match s.engine.immutableMemtable with
      | some _ => some ({ s with mutex := some i }.setPc i .checked)
      | none => some ({ s with mutex := some i }.setPc i .rotating)
    else none
  | .wait i =>
    match s.callers i with
    | .checked => some ({ s with mutex := none, waitSet := insert (Waiter.caller i) s.waitSet }.setPc i .waiting)
    | _ => none
  | .publish i =>
    match s.callers i with
    | .rotating => s.engine.rotate.map fun engine =>
        { s with engine, flushPending := true, mutex := none }.setPc i .published
    | _ => none
  | .notifyOne i woken =>
    match s.callers i, woken with
    | .published, none => if s.waitSet = ∅ then some (s.setPc i .idle) else none
    | .published, some w =>
      if w ∈ s.waitSet then some ({ s with waitSet := s.waitSet.erase w }.setPc i .idle) else none
    | _, _ => none
  | .wake w => if w ∈ s.waitSet then some { s with waitSet := s.waitSet.erase w } else none
  | .flushCheck =>
    if s.mutex = none ∧ s.FlushAtCheck then
      if s.flushPending then
        match s.engine.immutableMemtable with
        | some imm => some { s with flushPending := false, flusher := .took imm }
        | none => some { s with flusher := .locking }
      else some { s with waitSet := insert Waiter.flushThread s.waitSet, flusher := .waiting }
    else none
  | .flushInstall =>
    match s.flusher with
    | .took imm => some { s with engine := s.engine.flushTable imm, flusher := .installed }
    | _ => none
  | .flushReset =>
    match s.flusher with
    | .installed => some { s with engine := s.engine.resetImmutable, flusher := .reset }
    | _ => none
  | .notifyAll =>
    match s.flusher with
    | .reset => some { s with waitSet := ∅, flusher := .locking }
    | _ => none

/-- The effects of the steps, one constructor for each thing that can happen. -/
inductive Effect (s : FlushSignals ι) : SignalOp ι → FlushSignals ι → Prop where
  | write {engine : StorageEngine} (request : WriteRequest)
      (himm : engine.immutableMemtable = s.engine.immutableMemtable) :
      Effect s (.write request) { s with engine }
  | call {i : ι} (debug : Bool) (hpc : s.callers i = .idle) : Effect s (.call i debug) (s.setPc i .locking)
  | checked {i : ι} (hmutex : s.mutex = none) (hpc : s.AtCheck i) (himm : s.engine.immutableMemtable ≠ none) :
      Effect s (.check i) ({ s with mutex := some i }.setPc i .checked)
  | rotating {i : ι} (hmutex : s.mutex = none) (hpc : s.AtCheck i) (himm : s.engine.immutableMemtable = none) :
      Effect s (.check i) ({ s with mutex := some i }.setPc i .rotating)
  | wait {i : ι} (hpc : s.callers i = .checked) : Effect s (.wait i)
      ({ s with mutex := none, waitSet := insert (Waiter.caller i) s.waitSet }.setPc i .waiting)
  | publish {i : ι} {engine : StorageEngine} (hpc : s.callers i = .rotating)
      (himm : s.engine.immutableMemtable = none) (hnew : engine.immutableMemtable ≠ none) : Effect s (.publish i)
      ({ s with engine, flushPending := true, mutex := none }.setPc i .published)
  | notifyNone {i : ι} (hpc : s.callers i = .published) (hempty : s.waitSet = ∅) :
      Effect s (.notifyOne i none) (s.setPc i .idle)
  | notifyOne {i : ι} {w : Waiter ι} (hpc : s.callers i = .published) (hw : w ∈ s.waitSet) :
      Effect s (.notifyOne i (some w)) ({ s with waitSet := s.waitSet.erase w }.setPc i .idle)
  | wake {w : Waiter ι} (hw : w ∈ s.waitSet) : Effect s (.wake w) { s with waitSet := s.waitSet.erase w }
  | flushTake {imm : MemTable} (hmutex : s.mutex = none) (hpc : s.FlushAtCheck) (hpending : s.flushPending = true)
      (himm : s.engine.immutableMemtable = some imm) :
      Effect s .flushCheck { s with flushPending := false, flusher := .took imm }
  | flushAgain (hmutex : s.mutex = none) (hpc : s.FlushAtCheck) (hpending : s.flushPending = true)
      (himm : s.engine.immutableMemtable = none) : Effect s .flushCheck { s with flusher := .locking }
  | flushWait (hmutex : s.mutex = none) (hpc : s.FlushAtCheck) (hpending : s.flushPending = false) :
      Effect s .flushCheck { s with waitSet := insert Waiter.flushThread s.waitSet, flusher := .waiting }
  | flushInstall {imm : MemTable} {engine : StorageEngine} (hpc : s.flusher = .took imm)
      (himm : engine.immutableMemtable = s.engine.immutableMemtable) :
      Effect s .flushInstall { s with engine, flusher := .installed }
  | flushReset (hpc : s.flusher = .installed) :
      Effect s .flushReset { s with engine := s.engine.resetImmutable, flusher := .reset }
  | notifyAll (hpc : s.flusher = .reset) : Effect s .notifyAll { s with waitSet := ∅, flusher := .locking }

/-- Every step has one of these effects. -/
theorem Effect.of_step {s s' : FlushSignals ι} {op : SignalOp ι} (h : s.step op = some s') : Effect s op s' := by
  cases op with
  | write request =>
      obtain rfl := Option.some.inj h
      cases request with
      | put key value => exact .write _ rfl
      | delete key => exact .write _ rfl
  | call i debug =>
      cases hpc : s.callers i <;> simp only [step, hpc] at h <;> try contradiction
      split_ifs at h
      exact Option.some.inj h ▸ .call debug hpc
  | check i =>
      simp only [step] at h
      split_ifs at h with hcheck
      cases himm : s.engine.immutableMemtable with
      | some imm =>
          rw [himm] at h
          exact Option.some.inj h ▸ .checked hcheck.1 hcheck.2 (by simp [himm])
      | none =>
          rw [himm] at h
          exact Option.some.inj h ▸ .rotating hcheck.1 hcheck.2 himm
  | wait i =>
      cases hpc : s.callers i <;> simp only [step, hpc] at h <;> try contradiction
      exact Option.some.inj h ▸ .wait hpc
  | publish i =>
      cases hpc : s.callers i <;> simp only [step, hpc] at h <;> try contradiction
      obtain ⟨engine, hrotate, rfl⟩ := Option.map_eq_some_iff.mp h
      unfold StorageEngine.rotate at hrotate
      cases himm : s.engine.immutableMemtable with
      | some imm => simp [himm] at hrotate
      | none =>
          rw [himm] at hrotate
          exact .publish hpc himm (by simp [← Option.some.inj hrotate])
  | notifyOne i woken =>
      cases hpc : s.callers i <;> cases woken <;> simp only [step, hpc] at h <;> try contradiction
      · split_ifs at h with hempty
        exact Option.some.inj h ▸ .notifyNone hpc hempty
      · split_ifs at h with hw
        exact Option.some.inj h ▸ .notifyOne hpc hw
  | wake w =>
      simp only [step] at h
      split_ifs at h with hw
      exact Option.some.inj h ▸ .wake hw
  | flushCheck =>
      simp only [step] at h
      split_ifs at h with hcheck hpending
      · cases himm : s.engine.immutableMemtable with
        | some imm =>
            rw [himm] at h
            exact Option.some.inj h ▸ .flushTake hcheck.1 hcheck.2 hpending himm
        | none =>
            rw [himm] at h
            exact Option.some.inj h ▸ .flushAgain hcheck.1 hcheck.2 hpending himm
      · exact Option.some.inj h ▸ .flushWait hcheck.1 hcheck.2 (by simpa using hpending)
  | flushInstall =>
      cases hpc : s.flusher <;> simp only [step, hpc] at h <;> try contradiction
      refine Option.some.inj h ▸ .flushInstall hpc ?_
      unfold StorageEngine.flushTable
      split_ifs <;> rfl
  | flushReset =>
      cases hpc : s.flusher <;> simp only [step, hpc] at h <;> try contradiction
      exact Option.some.inj h ▸ .flushReset hpc
  | notifyAll =>
      cases hpc : s.flusher <;> simp only [step, hpc] at h <;> try contradiction
      exact Option.some.inj h ▸ .notifyAll hpc

end FlushSignals

end KvStorageEngine
