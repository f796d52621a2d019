import KvStorageEngine.Lib.Held
import KvStorageEngine.Lib.Run
import Mathlib.Data.Finset.Basic

/-!
# `Server.ThreadPool` — the workers behind the accept loop

`ThreadPool` (`server/src/tcp_server.cpp`): a queue of tasks, `n` worker threads and any number of threads that call
`submit` and `shutdown`. What the predicate of `cv_.wait` reads changes under the mutex only, so that a worker tests it
and goes to sleep, takes a task or leaves in one step. `submit` and `shutdown` notify after they have given up the
mutex, and there other threads may move in between.

As in `Engine.FlushSignals`, a worker whose wait has ended is still `waiting`, but no longer in the wait set.
-/

namespace KvStorageEngine.Server

/-- Where a worker is in `workerLoop`. -/
inductive WorkerPc (τ : Type) where
  | locking
  | waiting
  | running (task : τ)
  | exited
  deriving DecidableEq, Repr

/-- Where the call of `shutdown` is that found the pool open; `left` are the workers it has not joined yet. -/
inductive ShutdownPc (n : Nat) where
  | notCalled
  | notifying
  | joining (left : List (Fin n))
  | returned
  deriving DecidableEq, Repr

structure ThreadPool (n : Nat) (τ : Type) where
  tasks : List τ
  shutdown : Bool
  waitSet : Finset (Fin n)
  workers : Fin n → WorkerPc τ
  /-- How many calls of `submit` have enqueued their task and are about to notify. -/
  submitting : Nat
  closer : ShutdownPc n
  /-- History: the tasks that were enqueued, in order. -/
  accepted : List τ
  /-- History: the tasks that workers took out, in order. -/
  started : List τ
  /-- History: the tasks that were run to their end, in order. -/
  finished : List τ
  /-- History: the tasks that were submitted to a pool that was shut down. -/
  dropped : List τ

/-- A step of a caller, of a worker or of the condition variable. -/
inductive PoolOp (n : Nat) (τ : Type) where
  | submit (task : τ)
  | notifyOne (woken : Option (Fin n))
  | wake (i : Fin n)
  | lock (i : Fin n)
  | finish (i : Fin n)
  | shutdown
  | notifyAll
  | join
  deriving DecidableEq, Repr

namespace WorkerPc

variable {τ : Type}

/-- The task that a worker runs. -/
def task : WorkerPc τ → Option τ
  | .running task => some task
  | .locking | .waiting | .exited => none

end WorkerPc

namespace ThreadPool

variable {n : Nat} {τ : Type}

/-- `ThreadPool::ThreadPool`: the workers have been started. -/
def start (n : Nat) (τ : Type) : ThreadPool n τ :=
  ⟨[], false, ∅, fun _ => .locking, 0, .notCalled, [], [], [], []⟩

def setPc (s : ThreadPool n τ) (i : Fin n) (pc : WorkerPc τ) : ThreadPool n τ :=
  { s with workers := Function.update s.workers i pc }

/-- The worker is about to test the predicate, for the first time or because its wait has ended. -/
def AtCheck (s : ThreadPool n τ) (i : Fin n) : Prop :=
  match s.workers i with
  | .locking => True
  | .waiting => i ∉ s.waitSet
  | .running _ | .exited => False

instance (s : ThreadPool n τ) : DecidablePred s.AtCheck := fun i => by
  unfold AtCheck
  split <;> infer_instance

/-- `ThreadPool::queueSize`. -/
def queueSize (s : ThreadPool n τ) : Nat := s.tasks.length

/-- What the workers run, worker by worker. -/
def running (s : ThreadPool n τ) : List τ := Held.held fun i => (s.workers i).task

/-- One step, `none` where the thread is not at that point or would wait. -/
def step (s : ThreadPool n τ) : PoolOp n τ → Option (ThreadPool n τ)
  | .submit task =>
    if s.shutdown then some { s with dropped := s.dropped ++ [task] }
    else some { s with
      tasks := s.tasks ++ [task]
      submitting := s.submitting + 1
      accepted := s.accepted ++ [task] }
  | .notifyOne woken =>
    if s.submitting = 0 then none
    else
      match woken with
      | none => if s.waitSet = ∅ then some { s with submitting := s.submitting - 1 } else none
      | some i =>
        if i ∈ s.waitSet then some { s with submitting := s.submitting - 1, waitSet := s.waitSet.erase i }
        else none
  | .wake i => if i ∈ s.waitSet then some { s with waitSet := s.waitSet.erase i } else none
  | .lock i =>
    if s.AtCheck i then
      match s.tasks with
      | task :: tasks => some ({ s with tasks, started := s.started ++ [task] }.setPc i (.running task))
      | [] =>
        if s.shutdown then some (s.setPc i .exited)
        else some ({ s with waitSet := insert i s.waitSet }.setPc i .waiting)
    else none
  | .finish i =>
    match s.workers i with
    -- whatever the task throws is caught
    | .running task => some ({ s with finished := s.finished ++ [task] }.setPc i .locking)
    | _ => none
  | .shutdown =>
    -- a second call returns at once
    if s.shutdown then some s else some { s with shutdown := true, closer := .notifying }
  | .notifyAll =>
    match s.closer with
    | .notifying => some { s with waitSet := ∅, closer := .joining (List.finRange n) }
    | _ => none
  | .join =>
    match s.closer with
    | .joining (i :: left) =>
      match s.workers i with
      | .exited => some { s with closer := .joining left }
      | _ => none
    | .joining [] => some { s with closer := .returned }
    | _ => none

/-! ## What a step does -/

/-- The effects of the steps, one constructor for each thing that can happen. -/
inductive Effect (s : ThreadPool n τ) : PoolOp n τ → ThreadPool n τ → Prop where
  | dropped {task : τ} (hshut : s.shutdown = true) :
      Effect s (.submit task) { s with dropped := s.dropped ++ [task] }
  | submit {task : τ} (hopen : s.shutdown = false) : Effect s (.submit task)
      { s with tasks := s.tasks ++ [task], submitting := s.submitting + 1, accepted := s.accepted ++ [task] }
  | notifyNone (hpos : 0 < s.submitting) (hempty : s.waitSet = ∅) :
      Effect s (.notifyOne none) { s with submitting := s.submitting - 1 }
  | notifyOne {i : Fin n} (hpos : 0 < s.submitting) (hi : i ∈ s.waitSet) : Effect s (.notifyOne (some i))
      { s with submitting := s.submitting - 1, waitSet := s.waitSet.erase i }
  | wake {i : Fin n} (hi : i ∈ s.waitSet) : Effect s (.wake i) { s with waitSet := s.waitSet.erase i }
  | take {i : Fin n} {task : τ} {tasks : List τ} (hpc : s.AtCheck i) (htasks : s.tasks = task :: tasks) :
      Effect s (.lock i) ({ s with tasks, started := s.started ++ [task] }.setPc i (.running task))
  | exit {i : Fin n} (hpc : s.AtCheck i) (htasks : s.tasks = []) (hshut : s.shutdown = true) :
      Effect s (.lock i) (s.setPc i .exited)
  | sleep {i : Fin n} (hpc : s.AtCheck i) (htasks : s.tasks = []) (hopen : s.shutdown = false) :
      Effect s (.lock i) ({ s with waitSet := insert i s.waitSet }.setPc i .waiting)
  | finish {i : Fin n} {task : τ} (hpc : s.workers i = .running task) :
      Effect s (.finish i) ({ s with finished := s.finished ++ [task] }.setPc i .locking)
  | shutdownAgain (hshut : s.shutdown = true) : Effect s .shutdown s
  | shutdown (hopen : s.shutdown = false) :
      Effect s .shutdown { s with shutdown := true, closer := .notifying }
  | notifyAll (hpc : s.closer = .notifying) :
      Effect s .notifyAll { s with waitSet := ∅, closer := .joining (List.finRange n) }
  | joined {i : Fin n} {left : List (Fin n)} (hpc : s.closer = .joining (i :: left)) (hi : s.workers i = .exited) :
      Effect s .join { s with closer := .joining left }
  | returned (hpc : s.closer = .joining []) : Effect s .join { s with closer := .returned }

/-- Every step has one of these effects. -/
theorem Effect.of_step {s s' : ThreadPool n τ} {op : PoolOp n τ} (h : s.step op = some s') : Effect s op s' := by
  cases op with
  | submit task =>
      simp only [step] at h
      split_ifs at h with hshut
      · exact Option.some.inj h ▸ .dropped hshut
      · exact Option.some.inj h ▸ .submit (by simpa using hshut)
  | notifyOne woken =>
      cases woken <;> simp only [step] at h <;> split_ifs at h with hzero hmem
      · exact Option.some.inj h ▸ .notifyNone (Nat.pos_of_ne_zero hzero) hmem
      · exact Option.some.inj h ▸ .notifyOne (Nat.pos_of_ne_zero hzero) hmem
  | wake i =>
      simp only [step] at h
      split_ifs at h with hi
      exact Option.some.inj h ▸ .wake hi
  | lock i =>
      by_cases hpc : s.AtCheck i
      · simp only [step, if_pos hpc] at h
        split at h
        next task tasks htasks => exact Option.some.inj h ▸ .take hpc htasks
        next htasks =>
          by_cases hshut : s.shutdown = true
          · exact Option.some.inj ((if_pos hshut).symm.trans h) ▸ .exit hpc htasks hshut
          · exact Option.some.inj ((if_neg hshut).symm.trans h) ▸ .sleep hpc htasks (by simpa using hshut)
      · simp only [step, if_neg hpc] at h
        contradiction
  | finish i =>
      cases hpc : s.workers i <;> simp only [step, hpc] at h <;> try contradiction
      exact Option.some.inj h ▸ .finish hpc
  | shutdown =>
      simp only [step] at h
      split_ifs at h with hshut
      · exact Option.some.inj h ▸ .shutdownAgain hshut
      · exact Option.some.inj h ▸ .shutdown (by simpa using hshut)
  | notifyAll =>
      cases hpc : s.closer <;> simp only [step, hpc] at h <;> try contradiction
      exact Option.some.inj h ▸ .notifyAll hpc
  | join =>
      cases hpc : s.closer <;> simp only [step, hpc] at h <;> try contradiction
      next left =>
        cases left with
        | nil => exact Option.some.inj h ▸ .returned hpc
        | cons i left =>
            cases hi : s.workers i <;> simp only [hi] at h <;> try contradiction
            exact Option.some.inj h ▸ .joined hpc hi

/-! ## Fields after an update -/

theorem workers_setPc_self (s : ThreadPool n τ) (i : Fin n) (pc : WorkerPc τ) : (s.setPc i pc).workers i = pc :=
  Function.update_self ..

theorem workers_setPc_ne (s : ThreadPool n τ) {i j : Fin n} (h : j ≠ i) (pc : WorkerPc τ) :
    (s.setPc i pc).workers j = s.workers j := Function.update_of_ne h ..

theorem running_setPc (s : ThreadPool n τ) (i : Fin n) (pc : WorkerPc τ) :
    (s.setPc i pc).running = Held.held (Function.update (fun j => (s.workers j).task) i pc.task) := by
  unfold running setPc
  congr 1
  funext j
  by_cases hji : j = i
  · subst hji
    simp
  · simp [hji]

/-- A worker that is about to test the predicate, or is asleep, runs nothing. -/
theorem task_of_atCheck {s : ThreadPool n τ} {i : Fin n} (h : s.AtCheck i) : (s.workers i).task = none := by
  unfold AtCheck at h
  cases hpc : s.workers i with
  | running task => simp [hpc] at h
  | locking | waiting | exited => rfl

end ThreadPool

end KvStorageEngine.Server
