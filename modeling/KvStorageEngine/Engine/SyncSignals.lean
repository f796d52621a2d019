import KvStorageEngine.Engine.WriteAheadLog
import Mathlib.Data.Finset.Basic

/-!
# `Engine.SyncSignals` — the sync thread of the log, its callers and its end

`syncThreadLoop`, `append`, `flush` and `~WriteAheadLog` (`engine/src/wal.cpp`) around the buffers of
`Engine.WriteAheadLog`, with the two condition variables. The sync thread waits on `sync_cv_` until a sync is requested
or its timer runs out; a caller of `flush` waits on `sync_done_cv_` until its generation is synced.

`sync_requested_` changes under `sync_mutex_` only, so the sync thread tests its predicate and goes to sleep in one
step. A caller holds `buffer_mutex_` from its test to its sleep, but `doSync` advances `synced_generation_` and notifies
without it, and may do both in between. A caller whose wait has ended is still `waiting`, but no longer in the wait set,
and goes on by testing once more.
-/

namespace KvStorageEngine

/-- Where the sync thread is in its loop; `last` is the `doSync` behind the loop. -/
inductive SyncLoopPc where
  | testing
  | checking
  | sleeping
  | syncing (last : Bool)
  | stored (last : Bool)
  | exited
  deriving DecidableEq, Repr

/-- A notification on `sync_cv_`. -/
def SyncLoopPc.wake : SyncLoopPc → SyncLoopPc
  | .sleeping => .checking
  | pc => pc

/-- Behind a `doSync`. -/
def SyncLoopPc.next (last : Bool) : SyncLoopPc := if last then .exited else .testing

/-- Where a caller of `flush` is once it has its generation. In `tested` it holds `buffer_mutex_`. -/
inductive SignalPc where
  | idle
  | requesting
  | notifying
  | testing
  | tested
  | waiting
  deriving DecidableEq, Repr

/-- Where `~WriteAheadLog` is. -/
inductive LogDestructorPc where
  | notCalled
  | requesting
  | notifying
  | joining
  | returned
  deriving DecidableEq, Repr

/-- The log with its sync thread, the callers `ι` of `flush` and the destructor. -/
structure SyncSignals (β ι : Type) where
  log : WriteAheadLog β ι
  syncIntervalMs : Nat
  syncRequested : Bool
  shutdown : Bool
  /-- The caller that holds `buffer_mutex_` between two steps. -/
  bufferMutex : Option ι
  /-- Who waits on `sync_done_cv_`. -/
  waitSet : Finset ι
  loop : SyncLoopPc
  signals : ι → SignalPc
  destructor : LogDestructorPc

/-- A step of a thread that appends, of a caller of `flush`, of the sync thread, of a condition variable, which may wake
    a thread up for no reason, or of the destructor. -/
inductive SyncSignalsOp (β ι : Type) where
  | append (entry : List β)
  | flushRequest (i : ι)
  | flushLoad (i : ι)
  | request (i : ι)
  | notify (i : ι)
  | test (i : ι)
  | wait (i : ι)
  | wake (i : ι)
  | loopTest
  | loopCheck
  | loopTimeout
  | loopWake
  | swap
  | write
  | store
  | notifyAll
  | destroy
  | destroyRequest
  | destroyNotify
  | join

namespace SyncSignals

variable {β ι : Type} [DecidableEq ι]

/-- `MAX_BUFFER_SIZE`. -/
def maxBufferSize : Nat := 256 * 1024

/-- The constructor has opened the file and started the sync thread. -/
def start (ι : Type) [DecidableEq ι] (syncIntervalMs : Nat) (file : List β) : SyncSignals β ι where
  log := WriteAheadLog.new ι file
  syncIntervalMs := syncIntervalMs
  syncRequested := false
  shutdown := false
  bufferMutex := none
  waitSet := ∅
  loop := .testing
  signals _ := .idle
  destructor := .notCalled

def setPc (s : SyncSignals β ι) (i : ι) (pc : SignalPc) : SyncSignals β ι :=
  { s with signals := Function.update s.signals i pc }

/-- The caller is about to test its predicate, for the first time or because its wait has ended. -/
def AtTest (s : SyncSignals β ι) (i : ι) : Prop := s.signals i = .testing ∨ s.signals i = .waiting ∧ i ∉ s.waitSet

instance (s : SyncSignals β ι) (i : ι) : Decidable (s.AtTest i) := inferInstanceAs (Decidable (_ ∨ _))

/-- `append` under `buffer_mutex_`: a record that does not fit requests a sync, and is buffered all the same. -/
def append (s : SyncSignals β ι) (entry : List β) : Option (SyncSignals β ι) :=
  (s.log.step (.append entry)).map fun log =>
    if maxBufferSize < s.log.writeBufferSize + entry.length then
      { s with log, syncRequested := true, loop := s.loop.wake }
    else { s with log }

/-- One step, `none` where the thread is not at that point or would wait. -/
def step (s : SyncSignals β ι) : SyncSignalsOp β ι → Option (SyncSignals β ι)
  | .append entry => if s.bufferMutex = none then s.append entry else none
  | .flushRequest i =>
    match s.signals i with
    | .idle => (s.log.step (.flushRequest i)).map fun log => { s with log }
    | _ => none
  | .flushLoad i =>
    match s.signals i with
    | .idle => (s.log.step (.flushLoad i)).map fun log => { s with log }.setPc i .requesting
    | _ => none
  | .request i =>
    match s.signals i with
    | .requesting => some ({ s with syncRequested := true }.setPc i .notifying)
    | _ => none
  | .notify i =>
    match s.signals i with
    | .notifying => some ({ s with loop := s.loop.wake }.setPc i .testing)
    | _ => none
  | .test i =>
    if s.bufferMutex = none ∧ s.AtTest i then
      match s.log.step (.flushReturn i) with
      | some log => some ({ s with log }.setPc i .idle)
      | none => some ({ s with bufferMutex := some i }.setPc i .tested)
    else none
  | .wait i =>
    match s.signals i with
    | .tested => some ({ s with bufferMutex := none, waitSet := insert i s.waitSet }.setPc i .waiting)
    | _ => none
  | .wake i => if i ∈ s.waitSet then some { s with waitSet := s.waitSet.erase i } else none
  | .loopTest =>
    match s.loop with
    | .testing => some { s with loop := if s.shutdown then .syncing true else .checking }
    | _ => none
  | .loopCheck =>
    match s.loop with
    | .checking =>
      if s.syncRequested = true ∨ s.shutdown = true then
        some { s with syncRequested := false, loop := .syncing false }
      else some { s with loop := .sleeping }
    | _ => none
  | .loopTimeout =>
    match s.loop with
    -- without an interval there is no timer
    | .sleeping =>
      if 0 < s.syncIntervalMs then some { s with syncRequested := false, loop := .syncing false } else none
    | _ => none
  | .loopWake =>
    match s.loop with
    | .sleeping => some { s with loop := .checking }
    | _ => none
  | .swap =>
    match s.loop with
    | .syncing last =>
      if s.bufferMutex = none then
        (s.log.step .syncSwap).map fun log =>
          -- with nothing to write, `doSync` notifies under the lock
          if s.log.writeBufferSize = 0 then { s with log, waitSet := ∅, loop := .next last } else { s with log }
      else none
    | _ => none
  | .write =>
    match s.loop with
    | .syncing _ => (s.log.step .syncWrite).map fun log => { s with log }
    | _ => none
  | .store =>
    match s.loop with
    | .syncing last => (s.log.step .syncStore).map fun log => { s with log, loop := .stored last }
    | _ => none
  | .notifyAll =>
    match s.loop with
    | .stored last => some { s with waitSet := ∅, loop := .next last }
    | _ => none
  | .destroy =>
    match s.destructor with
    | .notCalled => some { s with shutdown := true, destructor := .requesting }
    | _ => none
  | .destroyRequest =>
    match s.destructor with
    | .requesting => some { s with syncRequested := true, destructor := .notifying }
    | _ => none
  | .destroyNotify =>
    match s.destructor with
    | .notifying => some { s with loop := s.loop.wake, destructor := .joining }
    | _ => none
  | .join =>
    match s.destructor with
    | .joining => if s.loop = .exited then some { s with destructor := .returned } else none
    | _ => none

/-! ## What a step does -/

/-- The effects of the steps, one constructor for each thing that can happen. -/
inductive Effect (s : SyncSignals β ι) : SyncSignalsOp β ι → SyncSignals β ι → Prop where
  | append {entry : List β} {log : WriteAheadLog β ι} (hmutex : s.bufferMutex = none)
      (hlog : s.log.step (.append entry) = some log) : Effect s (.append entry) { s with log }
  | appendFull {entry : List β} {log : WriteAheadLog β ι} (hmutex : s.bufferMutex = none)
      (hlog : s.log.step (.append entry) = some log) :
      Effect s (.append entry) { s with log, syncRequested := true, loop := s.loop.wake }
  | flushRequest {i : ι} {log : WriteAheadLog β ι} (hpc : s.signals i = .idle)
      (hlog : s.log.step (.flushRequest i) = some log) : Effect s (.flushRequest i) { s with log }
  | flushLoad {i : ι} {log : WriteAheadLog β ι} (hpc : s.signals i = .idle)
      (hlog : s.log.step (.flushLoad i) = some log) : Effect s (.flushLoad i) ({ s with log }.setPc i .requesting)
  | request {i : ι} (hpc : s.signals i = .requesting) :
      Effect s (.request i) ({ s with syncRequested := true }.setPc i .notifying)
  | notify {i : ι} (hpc : s.signals i = .notifying) :
      Effect s (.notify i) ({ s with loop := s.loop.wake }.setPc i .testing)
  | passes {i : ι} {log : WriteAheadLog β ι} (hmutex : s.bufferMutex = none) (hpc : s.AtTest i)
      (hlog : s.log.step (.flushReturn i) = some log) : Effect s (.test i) ({ s with log }.setPc i .idle)
  | blocks {i : ι} (hmutex : s.bufferMutex = none) (hpc : s.AtTest i) (hlog : s.log.step (.flushReturn i) = none) :
      Effect s (.test i) ({ s with bufferMutex := some i }.setPc i .tested)
  | wait {i : ι} (hpc : s.signals i = .tested) :
      Effect s (.wait i) ({ s with bufferMutex := none, waitSet := insert i s.waitSet }.setPc i .waiting)
  | wake {i : ι} (hmem : i ∈ s.waitSet) : Effect s (.wake i) { s with waitSet := s.waitSet.erase i }
  | loopLeaves (hpc : s.loop = .testing) (hshut : s.shutdown = true) :
      Effect s .loopTest { s with loop := .syncing true }
  | loopEnters (hpc : s.loop = .testing) (hopen : s.shutdown = false) : Effect s .loopTest { s with loop := .checking }
  | loopPasses (hpc : s.loop = .checking) :
      Effect s .loopCheck { s with syncRequested := false, loop := .syncing false }
  | loopSleeps (hpc : s.loop = .checking) (hrequested : s.syncRequested = false) (hopen : s.shutdown = false) :
      Effect s .loopCheck { s with loop := .sleeping }
  | loopTimeout (hpc : s.loop = .sleeping) (htimer : 0 < s.syncIntervalMs) :
      Effect s .loopTimeout { s with syncRequested := false, loop := .syncing false }
  | loopWake (hpc : s.loop = .sleeping) : Effect s .loopWake { s with loop := .checking }
  | swapEmpty {last : Bool} {log : WriteAheadLog β ι} (hpc : s.loop = .syncing last) (hmutex : s.bufferMutex = none)
      (hempty : s.log.writeBufferSize = 0) (hlog : s.log.step .syncSwap = some log) :
      Effect s .swap { s with log, waitSet := ∅, loop := .next last }
  | swap {last : Bool} {log : WriteAheadLog β ι} (hpc : s.loop = .syncing last) (hmutex : s.bufferMutex = none)
      (hsome : s.log.writeBufferSize ≠ 0) (hlog : s.log.step .syncSwap = some log) : Effect s .swap { s with log }
  | write {last : Bool} {log : WriteAheadLog β ι} (hpc : s.loop = .syncing last)
      (hlog : s.log.step .syncWrite = some log) : Effect s .write { s with log }
  | store {last : Bool} {log : WriteAheadLog β ι} (hpc : s.loop = .syncing last)
      (hlog : s.log.step .syncStore = some log) : Effect s .store { s with log, loop := .stored last }
  | notifyAll {last : Bool} (hpc : s.loop = .stored last) :
      Effect s .notifyAll { s with waitSet := ∅, loop := .next last }
  | destroy (hpc : s.destructor = .notCalled) :
      Effect s .destroy { s with shutdown := true, destructor := .requesting }
  | destroyRequest (hpc : s.destructor = .requesting) :
      Effect s .destroyRequest { s with syncRequested := true, destructor := .notifying }
  | destroyNotify (hpc : s.destructor = .notifying) :
      Effect s .destroyNotify { s with loop := s.loop.wake, destructor := .joining }
  | join (hpc : s.destructor = .joining) (hloop : s.loop = .exited) : Effect s .join { s with destructor := .returned }

/-- Every step has one of these effects. -/
theorem Effect.of_step {s s' : SyncSignals β ι} {op : SyncSignalsOp β ι} (h : s.step op = some s') :
    Effect s op s' := by
  cases op with
  | append entry =>
      simp only [step, SyncSignals.append] at h
      split_ifs at h with hmutex hfull
      · obtain ⟨log, hlog, rfl⟩ := Option.map_eq_some_iff.mp h
        exact .appendFull hmutex hlog
      · obtain ⟨log, hlog, rfl⟩ := Option.map_eq_some_iff.mp h
        exact .append hmutex hlog
  | flushRequest i =>
      unfold step at h; dsimp only at h; split at h <;> try contradiction
      next hpc =>
        obtain ⟨log, hlog, rfl⟩ := Option.map_eq_some_iff.mp h
        exact .flushRequest hpc hlog
  | flushLoad i =>
      unfold step at h; dsimp only at h; split at h <;> try contradiction
      next hpc =>
        obtain ⟨log, hlog, rfl⟩ := Option.map_eq_some_iff.mp h
        exact .flushLoad hpc hlog
  | request i =>
      unfold step at h; dsimp only at h; split at h <;> try contradiction
      next hpc => exact Option.some.inj h ▸ .request hpc
  | notify i =>
      unfold step at h; dsimp only at h; split at h <;> try contradiction
      next hpc => exact Option.some.inj h ▸ .notify hpc
  | test i =>
      simp only [step] at h
      split_ifs at h with hready
      split at h
      next log hlog => exact Option.some.inj h ▸ .passes hready.1 hready.2 hlog
      next hlog => exact Option.some.inj h ▸ .blocks hready.1 hready.2 hlog
  | wait i =>
      unfold step at h; dsimp only at h; split at h <;> try contradiction
      next hpc => exact Option.some.inj h ▸ .wait hpc
  | wake i =>
      simp only [step] at h
      split_ifs at h with hmem
      exact Option.some.inj h ▸ .wake hmem
  | loopTest =>
      unfold step at h; dsimp only at h; split at h <;> try contradiction
      next hpc =>
        rw [← Option.some.inj h]
        by_cases hshut : s.shutdown = true
        · simpa only [if_pos hshut] using Effect.loopLeaves hpc hshut
        · simpa only [if_neg hshut] using Effect.loopEnters hpc (by simpa using hshut)
  | loopCheck =>
      unfold step at h; dsimp only at h; split at h <;> try contradiction
      next hpc =>
        split_ifs at h with hready
        · exact Option.some.inj h ▸ .loopPasses hpc
        · rw [not_or, Bool.not_eq_true, Bool.not_eq_true] at hready
          exact Option.some.inj h ▸ .loopSleeps hpc hready.1 hready.2
  | loopTimeout =>
      unfold step at h; dsimp only at h; split at h <;> try contradiction
      next hpc =>
        split_ifs at h with htimer
        exact Option.some.inj h ▸ .loopTimeout hpc htimer
  | loopWake =>
      unfold step at h; dsimp only at h; split at h <;> try contradiction
      next hpc => exact Option.some.inj h ▸ .loopWake hpc
  | swap =>
      unfold step at h; dsimp only at h; split at h <;> try contradiction
      next last hpc =>
        by_cases hmutex : s.bufferMutex = none
        · rw [if_pos hmutex] at h
          obtain ⟨log, hlog, rfl⟩ := Option.map_eq_some_iff.mp h
          split_ifs with hempty
          · exact .swapEmpty hpc hmutex hempty hlog
          · exact .swap hpc hmutex hempty hlog
        · rw [if_neg hmutex] at h
          contradiction
  | write =>
      unfold step at h; dsimp only at h; split at h <;> try contradiction
      next last hpc =>
        obtain ⟨log, hlog, rfl⟩ := Option.map_eq_some_iff.mp h
        exact .write hpc hlog
  | store =>
      unfold step at h; dsimp only at h; split at h <;> try contradiction
      next last hpc =>
        obtain ⟨log, hlog, rfl⟩ := Option.map_eq_some_iff.mp h
        exact .store hpc hlog
  | notifyAll =>
      unfold step at h; dsimp only at h; split at h <;> try contradiction
      next last hpc => exact Option.some.inj h ▸ .notifyAll hpc
  | destroy =>
      unfold step at h; dsimp only at h; split at h <;> try contradiction
      next hpc => exact Option.some.inj h ▸ .destroy hpc
  | destroyRequest =>
      unfold step at h; dsimp only at h; split at h <;> try contradiction
      next hpc => exact Option.some.inj h ▸ .destroyRequest hpc
  | destroyNotify =>
      unfold step at h; dsimp only at h; split at h <;> try contradiction
      next hpc => exact Option.some.inj h ▸ .destroyNotify hpc
  | join =>
      unfold step at h; dsimp only at h; split at h <;> try contradiction
      next hpc =>
        split_ifs at h with hloop
        exact Option.some.inj h ▸ .join hpc hloop

end SyncSignals

end KvStorageEngine
