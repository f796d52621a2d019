import Mathlib.Data.Finset.Basic
import Mathlib.Logic.Function.Basic

/-!
# `Engine.CompactionSignals` — who asks for a compaction, who waits for it

`compactionThreadLoop`, `scheduleCompaction`, `pauseCompaction`, `resumeCompaction`, `waitForCompaction` and the end of
`~StorageEngine` (`engine/src/engine.cpp`), with `compaction_mutex_` and the wait set of `compaction_cv_`. The flags are
atomics that are written without the mutex, so every load and every store of one of them is a step of its own. The
callers are the flush thread and whoever calls the engine. What a round of compaction does is in `Engine.Compaction`.

A thread that waits tests its predicate under the mutex and gives it up when it goes to sleep. One whose wait has ended
is still `sleeping` or `waiting`, but no longer in the wait set, and goes on by testing once more. The wait of
`waitForCompaction` has a time limit.
-/

namespace KvStorageEngine

/-- A thread that waits on `compaction_cv_`. -/
inductive CompactionWaiter (ι : Type) where
  | compactionThread
  | caller (i : ι)
  deriving DecidableEq, Repr

/-- Where the compaction thread is in its loop: from `readNeeded` to `blocked` it holds the mutex. -/
inductive CompactorPc where
  | locking
  | readNeeded
  | readPaused
  | blocked
  | sleeping
  | testShutdown
  | testNeeded
  | testPaused
  | taking
  | starting
  | compacting
  | finishing
  | notifying
  | exited
  deriving DecidableEq, Repr

/-- Where a caller is: in `resumeCompaction`, in `scheduleCompaction`, or in `waitForCompaction`, where it holds the mutex
    in `reading` and `blocked`. `asked` is history: how many compactions had been asked for when the wait began. -/
inductive CompactionCallerPc where
  | idle
  | resuming
  | scheduled
  | locking (asked : Nat)
  | reading (asked : Nat)
  | blocked (asked : Nat)
  | waiting (asked : Nat)
  deriving DecidableEq, Repr

/-- Where `~StorageEngine` is, once it has joined the flush thread. -/
inductive CompactionJoinPc where
  | notCalled
  | locking
  | notifying
  | joining
  | returned
  deriving DecidableEq, Repr

/-- The flags, the compaction thread, the callers `ι` and the destructor. -/
structure CompactionSignals (ι : Type) where
  shutdown : Bool
  needed : Bool
  inProgress : Bool
  paused : Bool
  /-- Who holds `compaction_mutex_` between two steps. -/
  mutex : Option (CompactionWaiter ι)
  waitSet : Finset (CompactionWaiter ι)
  compactor : CompactorPc
  callers : ι → CompactionCallerPc
  destructor : CompactionJoinPc
  /-- History: how many compactions were asked for, how many of them the last round that began had seen, and how many
      the last one that was completed; and how many rounds began. -/
  requested : Nat
  served : Nat
  completed : Nat
  rounds : Nat
  /-- History: the waits that found nothing in progress and nothing needed, each with `asked` and with what was
      completed when it ended. -/
  waits : List (Nat × Nat)

/-- A step of the compaction thread, of a caller, of the destructor or of the condition variable, which may wake a
    thread up for no reason. -/
inductive CompactionSignalsOp (ι : Type) where
  | compactor
  | schedule (i : ι)
  | notifyOne (i : ι) (woken : Option (CompactionWaiter ι))
  | pause
  | resume (i : ι)
  | waitForCompaction (i : ι)
  | test (i : ι)
  | timeout (i : ι)
  | wake (w : CompactionWaiter ι)
  | destroy
  | destroyLock
  | destroyNotify (woken : Option (CompactionWaiter ι))
  | join
  deriving DecidableEq, Repr

namespace CompactionSignals

variable {ι : Type} [DecidableEq ι]

def start (ι : Type) : CompactionSignals ι where
  shutdown := false
  needed := false
  inProgress := false
  paused := false
  mutex := none
  waitSet := ∅
  compactor := .locking
  callers _ := .idle
  destructor := .notCalled
  requested := 0
  served := 0
  completed := 0
  rounds := 0
  waits := []

def setPc (s : CompactionSignals ι) (i : ι) (pc : CompactionCallerPc) : CompactionSignals ι :=
  { s with callers := Function.update s.callers i pc }

/-- Whom `notify_one` may wake up: someone who waits, or nobody if nobody does. -/
def CanWake (s : CompactionSignals ι) : Option (CompactionWaiter ι) → Prop
  | none => s.waitSet = ∅
  | some w => w ∈ s.waitSet

instance (s : CompactionSignals ι) (woken : Option (CompactionWaiter ι)) : Decidable (s.CanWake woken) := by
  unfold CanWake
  split <;> infer_instance

/-- The wait set behind a `notify_one`. -/
def notified (s : CompactionSignals ι) : Option (CompactionWaiter ι) → Finset (CompactionWaiter ι)
  | none => s.waitSet
  | some w => s.waitSet.erase w

/-- One step of `compactionThreadLoop`. -/
def compactorStep (s : CompactionSignals ι) : Option (CompactionSignals ι) :=
  match s.compactor with
  | .locking | .sleeping =>
    if s.mutex = none ∧ CompactionWaiter.compactionThread ∉ s.waitSet then
      if s.shutdown then some { s with compactor := .testShutdown }
      else some { s with mutex := some .compactionThread, compactor := .readNeeded }
    else none
  | .readNeeded => some { s with compactor := if s.needed then .readPaused else .blocked }
  | .readPaused =>
    if s.paused then some { s with compactor := .blocked } else some { s with mutex := none, compactor := .testShutdown }
  | .blocked => some { s with mutex := none, waitSet := insert .compactionThread s.waitSet, compactor := .sleeping }
  | .testShutdown => some { s with compactor := if s.shutdown then .exited else .testNeeded }
  | .testNeeded => some { s with compactor := if s.needed then .testPaused else .locking }
  | .testPaused => some { s with compactor := if s.paused then .locking else .taking }
  | .taking =>
    some { s with needed := false, served := s.requested, rounds := s.rounds + 1, compactor := .starting }
  | .starting => some { s with inProgress := true, compactor := .compacting }
  -- `maybeCompactBackground` has returned
  | .compacting => some { s with inProgress := false, completed := s.served, compactor := .finishing }
  | .finishing => if s.mutex = none then some { s with compactor := .notifying } else none
  | .notifying => some { s with waitSet := ∅, compactor := .locking }
  | .exited => none

/-- One step of the predicate of `waitForCompaction`, or of its wait. -/
def testStep (s : CompactionSignals ι) (i : ι) : Option (CompactionSignals ι) :=
  match s.callers i with
  | .locking asked | .waiting asked =>
    if s.mutex = none ∧ CompactionWaiter.caller i ∉ s.waitSet then
      some ({ s with mutex := some (.caller i) }.setPc i (if s.inProgress then .blocked asked else .reading asked))
    else none
  | .reading asked =>
    if s.needed then some (s.setPc i (.blocked asked))
    else some ({ s with mutex := none, waits := s.waits ++ [(asked, s.completed)] }.setPc i .idle)
  | .blocked asked =>
    some ({ s with mutex := none, waitSet := insert (CompactionWaiter.caller i) s.waitSet }.setPc i (.waiting asked))
  | _ => none

/-- One step, `none` where the thread is not at that point or would wait. -/
def step (s : CompactionSignals ι) : CompactionSignalsOp ι → Option (CompactionSignals ι)
  | .compactor => s.compactorStep
  | .schedule i =>
    match s.callers i with
    | .idle | .resuming => some ({ s with needed := true, requested := s.requested + 1 }.setPc i .scheduled)
    | _ => none
  | .notifyOne i woken =>
    match s.callers i with
    | .scheduled => if s.CanWake woken then some ({ s with waitSet := s.notified woken }.setPc i .idle) else none
    | _ => none
  | .pause => some { s with paused := true }
  | .resume i =>
    match s.callers i with
    | .idle => some ({ s with paused := false }.setPc i .resuming)
    | _ => none
  | .waitForCompaction i =>
    match s.callers i with
    | .idle => some (s.setPc i (.locking s.requested))
    | _ => none
  | .test i => s.testStep i
  | .timeout i =>
    match s.callers i with
    | .waiting _ =>
      if s.mutex = none then some ({ s with waitSet := s.waitSet.erase (.caller i) }.setPc i .idle) else none
    | _ => none
  | .wake w => if w ∈ s.waitSet then some { s with waitSet := s.waitSet.erase w } else none
  | .destroy =>
    match s.destructor with
    | .notCalled => some { s with shutdown := true, destructor := .locking }
    | _ => none
  | .destroyLock =>
    match s.destructor with
    | .locking => if s.mutex = none then some { s with destructor := .notifying } else none
    | _ => none
  | .destroyNotify woken =>
    match s.destructor with
    | .notifying => if s.CanWake woken then some { s with waitSet := s.notified woken, destructor := .joining } else none
    | _ => none
  | .join =>
    match s.destructor with
    | .joining => if s.compactor = .exited then some { s with destructor := .returned } else none
    | _ => none

/-! ## What a step does -/

/-- The compaction thread moves, and leaves everything else as it is, when it has read what it reads. -/
inductive Moves (s : CompactionSignals ι) : CompactorPc → Prop where
  | blocks (hpc : s.compactor = .readNeeded) (hneeded : s.needed = false) : Moves s .blocked
  | readPaused (hpc : s.compactor = .readNeeded) (hneeded : s.needed = true) : Moves s .readPaused
  | blocksPaused (hpc : s.compactor = .readPaused) (hpaused : s.paused = true) : Moves s .blocked
  | leaves (hpc : s.compactor = .testShutdown) (hshut : s.shutdown = true) : Moves s .exited
  | goesOn (hpc : s.compactor = .testShutdown) (hopen : s.shutdown = false) : Moves s .testNeeded
  | finds (hpc : s.compactor = .testNeeded) (hneeded : s.needed = true) : Moves s .testPaused
  | returns (hpc : s.compactor = .testNeeded ∨ s.compactor = .testPaused) : Moves s .locking
  | takes (hpc : s.compactor = .testPaused) (hpaused : s.paused = false) : Moves s .taking
  | passes (hpc : s.compactor = .finishing) (hmutex : s.mutex = none) : Moves s .notifying
  | sees (hpc : s.compactor = .locking ∨ s.compactor = .sleeping) (hmutex : s.mutex = none)
      (hawake : CompactionWaiter.compactionThread ∉ s.waitSet) (hshut : s.shutdown = true) : Moves s .testShutdown

/-- The effects of the steps, one constructor for each thing that can happen. -/
inductive Effect (s : CompactionSignals ι) : CompactionSignalsOp ι → CompactionSignals ι → Prop where
  | move {pc : CompactorPc} (hmoves : Moves s pc) : Effect s .compactor { s with compactor := pc }
  | lock (hpc : s.compactor = .locking ∨ s.compactor = .sleeping) (hmutex : s.mutex = none)
      (hawake : CompactionWaiter.compactionThread ∉ s.waitSet) (hopen : s.shutdown = false) :
      Effect s .compactor { s with mutex := some .compactionThread, compactor := .readNeeded }
  | unlock (hpc : s.compactor = .readPaused) (hpaused : s.paused = false) :
      Effect s .compactor { s with mutex := none, compactor := .testShutdown }
  | sleep (hpc : s.compactor = .blocked) : Effect s .compactor
      { s with mutex := none, waitSet := insert .compactionThread s.waitSet, compactor := .sleeping }
  | take (hpc : s.compactor = .taking) :
      Effect s .compactor
        { s with needed := false, served := s.requested, rounds := s.rounds + 1, compactor := .starting }
  | begin (hpc : s.compactor = .starting) : Effect s .compactor { s with inProgress := true, compactor := .compacting }
  | finish (hpc : s.compactor = .compacting) :
      Effect s .compactor { s with inProgress := false, completed := s.served, compactor := .finishing }
  | notifyAll (hpc : s.compactor = .notifying) : Effect s .compactor { s with waitSet := ∅, compactor := .locking }
  | schedule {i : ι} (hpc : s.callers i = .idle ∨ s.callers i = .resuming) :
      Effect s (.schedule i) ({ s with needed := true, requested := s.requested + 1 }.setPc i .scheduled)
  | notifyOne {i : ι} {woken : Option (CompactionWaiter ι)} (hpc : s.callers i = .scheduled) (hwoken : s.CanWake woken) :
      Effect s (.notifyOne i woken) ({ s with waitSet := s.notified woken }.setPc i .idle)
  | pause : Effect s .pause { s with paused := true }
  | resume {i : ι} (hpc : s.callers i = .idle) : Effect s (.resume i) ({ s with paused := false }.setPc i .resuming)
  | waitForCompaction {i : ι} (hpc : s.callers i = .idle) :
      Effect s (.waitForCompaction i) (s.setPc i (.locking s.requested))
  | testProgress {i : ι} {asked : Nat} (hpc : s.callers i = .locking asked ∨ s.callers i = .waiting asked)
      (hmutex : s.mutex = none) (hawake : CompactionWaiter.caller i ∉ s.waitSet) :
      Effect s (.test i)
        ({ s with mutex := some (.caller i) }.setPc i (if s.inProgress then .blocked asked else .reading asked))
  | testNeeded {i : ι} {asked : Nat} (hpc : s.callers i = .reading asked) (hneeded : s.needed = true) :
      Effect s (.test i) (s.setPc i (.blocked asked))
  | returns {i : ι} {asked : Nat} (hpc : s.callers i = .reading asked) (hneeded : s.needed = false) :
      Effect s (.test i) ({ s with mutex := none, waits := s.waits ++ [(asked, s.completed)] }.setPc i .idle)
  | wait {i : ι} {asked : Nat} (hpc : s.callers i = .blocked asked) : Effect s (.test i)
      ({ s with mutex := none, waitSet := insert (CompactionWaiter.caller i) s.waitSet }.setPc i (.waiting asked))
  | timeout {i : ι} {asked : Nat} (hpc : s.callers i = .waiting asked) (hmutex : s.mutex = none) :
      Effect s (.timeout i) ({ s with waitSet := s.waitSet.erase (.caller i) }.setPc i .idle)
  | wake {w : CompactionWaiter ι} (hmem : w ∈ s.waitSet) : Effect s (.wake w) { s with waitSet := s.waitSet.erase w }
  | destroy (hpc : s.destructor = .notCalled) : Effect s .destroy { s with shutdown := true, destructor := .locking }
  | destroyLock (hpc : s.destructor = .locking) (hmutex : s.mutex = none) :
      Effect s .destroyLock { s with destructor := .notifying }
  | destroyNotify {woken : Option (CompactionWaiter ι)} (hpc : s.destructor = .notifying) (hwoken : s.CanWake woken) :
      Effect s (.destroyNotify woken) { s with waitSet := s.notified woken, destructor := .joining }
  | join (hpc : s.destructor = .joining) (hexited : s.compactor = .exited) :
      Effect s .join { s with destructor := .returned }

theorem Effect.of_compactorStep {s s' : CompactionSignals ι} (h : s.compactorStep = some s') :
    Effect s .compactor s' := by
  have hlock : (s.compactor = .locking ∨ s.compactor = .sleeping) →
      (if s.mutex = none ∧ CompactionWaiter.compactionThread ∉ s.waitSet then
        if s.shutdown then some { s with compactor := .testShutdown }
        else some { s with mutex := some .compactionThread, compactor := .readNeeded }
      else none) = some s' → Effect s .compactor s' := by
    intro hpc h
    split_ifs at h with hfree hshut
    · exact Option.some.inj h ▸ .move (.sees hpc hfree.1 hfree.2 hshut)
    · exact Option.some.inj h ▸ .lock hpc hfree.1 hfree.2 (by simpa using hshut)
  unfold compactorStep at h
  cases hpc : s.compactor with
  | locking =>
      simp only [hpc] at h
      exact hlock (Or.inl hpc) h
  | sleeping =>
      simp only [hpc] at h
      exact hlock (Or.inr hpc) h
  | readNeeded =>
      simp only [hpc] at h
      rw [← Option.some.inj h]
      split_ifs with hneeded
      · exact .move (.readPaused hpc hneeded)
      · exact .move (.blocks hpc (by simpa using hneeded))
  | readPaused =>
      simp only [hpc] at h
      split_ifs at h with hpaused
      · exact Option.some.inj h ▸ .move (.blocksPaused hpc hpaused)
      · exact Option.some.inj h ▸ .unlock hpc (by simpa using hpaused)
  | blocked =>
      simp only [hpc] at h
      exact Option.some.inj h ▸ .sleep hpc
  | testShutdown =>
      simp only [hpc] at h
      rw [← Option.some.inj h]
      by_cases hshut : s.shutdown = true
      · simpa only [if_pos hshut] using Effect.move (.leaves hpc hshut)
      · simpa only [if_neg hshut] using Effect.move (.goesOn hpc (by simpa using hshut))
  | testNeeded =>
      simp only [hpc] at h
      rw [← Option.some.inj h]
      split_ifs with hneeded
      · exact .move (.finds hpc hneeded)
      · exact .move (.returns (Or.inl hpc))
  | testPaused =>
      simp only [hpc] at h
      rw [← Option.some.inj h]
      split_ifs with hpaused
      · exact .move (.returns (Or.inr hpc))
      · exact .move (.takes hpc (by simpa using hpaused))
  | taking =>
      simp only [hpc] at h
      exact Option.some.inj h ▸ .take hpc
  | starting =>
      simp only [hpc] at h
      exact Option.some.inj h ▸ .begin hpc
  | compacting =>
      simp only [hpc] at h
      exact Option.some.inj h ▸ .finish hpc
  | finishing =>
      simp only [hpc] at h
      split_ifs at h with hmutex
      exact Option.some.inj h ▸ .move (.passes hpc hmutex)
  | notifying =>
      simp only [hpc] at h
      exact Option.some.inj h ▸ .notifyAll hpc
  | exited =>
      simp only [hpc] at h
      contradiction

theorem Effect.of_testStep {s s' : CompactionSignals ι} {i : ι} (h : s.testStep i = some s') :
    Effect s (.test i) s' := by
  unfold testStep at h
  cases hpc : s.callers i with
  | locking asked =>
      simp only [hpc] at h
      by_cases hfree : s.mutex = none ∧ CompactionWaiter.caller i ∉ s.waitSet
      · rw [if_pos hfree] at h
        exact Option.some.inj h ▸ .testProgress (Or.inl hpc) hfree.1 hfree.2
      · rw [if_neg hfree] at h
        contradiction
  | waiting asked =>
      simp only [hpc] at h
      by_cases hfree : s.mutex = none ∧ CompactionWaiter.caller i ∉ s.waitSet
      · rw [if_pos hfree] at h
        exact Option.some.inj h ▸ .testProgress (Or.inr hpc) hfree.1 hfree.2
      · rw [if_neg hfree] at h
        contradiction
  | reading asked =>
      simp only [hpc] at h
      split_ifs at h with hneeded
      · exact Option.some.inj h ▸ .testNeeded hpc hneeded
      · exact Option.some.inj h ▸ .returns hpc (by simpa using hneeded)
  | blocked asked =>
      simp only [hpc] at h
      exact Option.some.inj h ▸ .wait hpc
  | idle | resuming | scheduled =>
      simp only [hpc] at h
      contradiction

/-- Every step has one of these effects. -/
theorem Effect.of_step {s s' : CompactionSignals ι} {op : CompactionSignalsOp ι} (h : s.step op = some s') :
    Effect s op s' := by
  cases op with
  | compactor => exact .of_compactorStep h
  | schedule i =>
      unfold step at h; dsimp only at h; split at h <;> try contradiction
      next hpc => exact Option.some.inj h ▸ .schedule (Or.inl hpc)
      next hpc => exact Option.some.inj h ▸ .schedule (Or.inr hpc)
  | notifyOne i woken =>
      unfold step at h; dsimp only at h; split at h <;> try contradiction
      next hpc =>
        split_ifs at h with hwoken
        exact Option.some.inj h ▸ .notifyOne hpc hwoken
  | pause => exact Option.some.inj h ▸ .pause
  | resume i =>
      unfold step at h; dsimp only at h; split at h <;> try contradiction
      next hpc => exact Option.some.inj h ▸ .resume hpc
  | waitForCompaction i =>
      unfold step at h; dsimp only at h; split at h <;> try contradiction
      next hpc => exact Option.some.inj h ▸ .waitForCompaction hpc
  | test i => exact .of_testStep h
  | timeout i =>
      unfold step at h; dsimp only at h; split at h <;> try contradiction
      next hpc =>
        split_ifs at h with hmutex
        exact Option.some.inj h ▸ .timeout hpc hmutex
  | wake w =>
      simp only [step] at h
      split_ifs at h with hmem
      exact Option.some.inj h ▸ .wake hmem
  | destroy =>
      unfold step at h; dsimp only at h; split at h <;> try contradiction
      next hpc => exact Option.some.inj h ▸ .destroy hpc
  | destroyLock =>
      unfold step at h; dsimp only at h; split at h <;> try contradiction
      next hpc =>
        split_ifs at h with hmutex
        exact Option.some.inj h ▸ .destroyLock hpc hmutex
  | destroyNotify woken =>
      unfold step at h; dsimp only at h; split at h <;> try contradiction
      next hpc =>
        split_ifs at h with hwoken
        exact Option.some.inj h ▸ .destroyNotify hpc hwoken
  | join =>
      unfold step at h; dsimp only at h; split at h <;> try contradiction
      next hpc =>
        split_ifs at h with hexited
        exact Option.some.inj h ▸ .join hpc hexited

end CompactionSignals

end KvStorageEngine
