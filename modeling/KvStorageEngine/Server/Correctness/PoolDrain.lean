import KvStorageEngine.Server.ThreadPool
import Mathlib.Data.Finset.Card
import Mathlib.Data.Fintype.Basic

/-!
# `Server.Correctness.PoolDrain` — every accepted task is run, and none is forgotten

Two properties of a pool with at least one worker, in any interleaving. Each task that `submit` has accepted is queued,
running or finished, just once; tasks are started in the order of their submission; and when `shutdown` returns all of
them are finished (`Accounted`, `Closing`). And the pool never goes to sleep over its work: while a worker sleeps, there
are at least as many notifications to come and workers about to look as there are tasks (`Awaited`), so that a pool in
which nothing moves any more has nothing left to run, and a `shutdown` has nobody left to wait for.
-/

namespace KvStorageEngine.Server

open Run

namespace ThreadPool

variable {n : Nat} {τ : Type} {s s' : ThreadPool n τ}

/-! ## A. Tasks

A step moves a task from the queue to a worker, or from a worker to the finished ones. -/

/-- Where the accepted tasks are. -/
structure Accounted (s : ThreadPool n τ) : Prop where
  fifo : s.accepted = s.started ++ s.tasks
  once : List.Perm s.started (s.finished ++ s.running)

theorem accounted_start : Accounted (start n τ) := by
  refine ⟨rfl, ?_⟩
  have hnone : (start n τ).running = [] := Held.held_none
  rw [hnone]
  exact List.Perm.nil

/-- A worker that held no task takes one. -/
theorem running_take {i : Fin n} (hi : (s.workers i).task = none) (task : τ) :
    List.Perm (s.setPc i (.running task)).running (task :: s.running) := by
  rw [running_setPc]
  exact Held.held_take hi task

/-- A worker finishes its task. -/
theorem running_finish {i : Fin n} {task : τ} (hi : s.workers i = .running task) (pc : WorkerPc τ)
    (hpc : pc.task = none) : List.Perm s.running (task :: (s.setPc i pc).running) := by
  rw [running_setPc, hpc]
  exact Held.held_drop (by simp [hi, WorkerPc.task])

/-- A worker that moves without a task. -/
theorem running_move {i : Fin n} (hi : (s.workers i).task = none) (pc : WorkerPc τ) (hpc : pc.task = none) :
    (s.setPc i pc).running = s.running := by
  rw [running_setPc, hpc]
  exact Held.held_update_self hi

/-- **One step.** -/
theorem Accounted.step (h : Accounted s) {op : PoolOp n τ} (hs : s.step op = some s') : Accounted s' := by
  cases Effect.of_step hs with
  | dropped _ | notifyNone _ _ | notifyOne _ _ | wake _ | shutdownAgain _ | shutdown _ | notifyAll _ | joined _ _
  | returned _ => exact ⟨h.fifo, h.once⟩
  | @submit task _ =>
      refine ⟨?_, h.once⟩
      calc s.accepted ++ [task] = (s.started ++ s.tasks) ++ [task] := by rw [h.fifo]
        _ = s.started ++ (s.tasks ++ [task]) := List.append_assoc ..
  | @take i task tasks hpc htasks =>
      refine ⟨?_, ?_⟩
      · calc s.accepted = s.started ++ (task :: tasks) := by rw [h.fifo, htasks]
          _ = (s.started ++ [task]) ++ tasks := by simp
      · have hrun := running_take (s := { s with tasks, started := s.started ++ [task] }) (task_of_atCheck hpc) task
        calc List.Perm (s.started ++ [task]) (task :: s.started) := List.perm_append_singleton ..
          List.Perm _ (task :: (s.finished ++ s.running)) := h.once.cons task
          List.Perm _ (s.finished ++ (task :: s.running)) := List.perm_middle.symm
          List.Perm _ _ := hrun.symm.append_left s.finished
  | exit hpc _ _ =>
      refine ⟨h.fifo, ?_⟩
      rw [running_move (task_of_atCheck hpc) .exited rfl]
      exact h.once
  | @sleep i hpc _ _ =>
      refine ⟨h.fifo, ?_⟩
      have hrun := running_move (s := { s with waitSet := insert i s.waitSet }) (task_of_atCheck (s := s) hpc) .waiting
        rfl
      rw [hrun]
      exact h.once
  | @finish i task hpc =>
      refine ⟨h.fifo, ?_⟩
      have hrun := running_finish (s := { s with finished := s.finished ++ [task] }) hpc .locking rfl
      calc List.Perm s.started (s.finished ++ s.running) := h.once
        List.Perm _ (s.finished ++ (task :: _)) := hrun.append_left s.finished
        List.Perm _ _ := by rw [List.append_cons]; exact List.Perm.refl _

/-! ## B. The shutdown

A worker exits only over an empty queue with `shutdown_` set, and after that nothing is accepted any more. -/

/-- What the call of `shutdown` knows of the workers. -/
def Joined (s : ThreadPool n τ) : Prop :=
  match s.closer with
  | .notCalled => s.shutdown = false
  | .notifying => s.shutdown = true
  | .joining left => s.shutdown = true ∧ ∀ i, i ∉ left → s.workers i = .exited
  | .returned => s.shutdown = true ∧ ∀ i, s.workers i = .exited

/-- A worker leaves a pool that is shut down and has no tasks, and stays away. -/
structure Closing (s : ThreadPool n τ) : Prop where
  left : ∀ i, s.workers i = .exited → s.shutdown = true ∧ s.tasks = []
  joined : Joined s

theorem closing_start : Closing (start n τ) := by
  refine ⟨?_, rfl⟩
  intro i hi
  exact absurd hi (by simp [start])

/-- Workers that have left are not the ones that move. -/
theorem exited_setPc {i j : Fin n} {pc : WorkerPc τ} (hi : s.workers i ≠ .exited) (hj : s.workers j = .exited) :
    (s.setPc i pc).workers j = .exited := by
  have hji : j ≠ i := by
    rintro rfl
    exact hi hj
  rw [workers_setPc_ne s hji]
  exact hj

/-- A worker at its test has not exited. -/
theorem ne_exited_of_atCheck {i : Fin n} (h : s.AtCheck i) : s.workers i ≠ .exited := by
  intro hpc
  simp [AtCheck, hpc] at h

/-- A worker's move keeps what the joining thread knows. -/
theorem Joined.setPc (h : Joined s) {i : Fin n} {pc : WorkerPc τ} (hi : s.workers i ≠ .exited) :
    Joined (s.setPc i pc) := by
  unfold Joined at h ⊢
  change match s.closer with
    | .notCalled => s.shutdown = false
    | .notifying => s.shutdown = true
    | .joining left => s.shutdown = true ∧ ∀ j, j ∉ left → (s.setPc i pc).workers j = .exited
    | .returned => s.shutdown = true ∧ ∀ j, (s.setPc i pc).workers j = .exited
  cases hpc : s.closer with
  | notCalled | notifying => simpa [hpc] using h
  | joining left =>
      simp only [hpc] at h
      exact ⟨h.1, fun j hj => exited_setPc hi (h.2 j hj)⟩
  | returned =>
      simp only [hpc] at h
      exact ⟨h.1, fun j => exited_setPc hi (h.2 j)⟩

/-- A worker that moves and does not leave. -/
theorem Closing.move (h : Closing s) {i : Fin n} {pc : WorkerPc τ} (hi : s.workers i ≠ .exited) (hpc : pc ≠ .exited) :
    Closing (s.setPc i pc) := by
  refine ⟨?_, h.joined.setPc hi⟩
  intro j hj
  by_cases hji : j = i
  · subst hji
    rw [workers_setPc_self] at hj
    exact absurd hj hpc
  · rw [workers_setPc_ne s hji] at hj
    exact h.left j hj

/-- Every step keeps the shutdown in order. -/
theorem Closing.step (h : Closing s) {op : PoolOp n τ} (hs : s.step op = some s') : Closing s' := by
  cases Effect.of_step hs with
  | dropped _ | notifyNone _ _ | notifyOne _ _ | wake _ | shutdownAgain _ => exact ⟨h.left, h.joined⟩
  | submit hopen =>
      refine ⟨?_, h.joined⟩
      intro i hi
      exact absurd (h.left i hi).1 (by simp [hopen])
  | @take i task tasks hpc htasks =>
      -- a pool with tasks has all its workers
      have hempty : ∀ j, s.workers j = .exited → s.tasks = [] := fun j hj => (h.left j hj).2
      refine Closing.move (s := { s with tasks, started := s.started ++ [task] }) ⟨?_, h.joined⟩
        (ne_exited_of_atCheck (s := s) hpc) (by simp)
      intro j hj
      exact absurd (hempty j hj) (by simp [htasks])
  | @exit i hpc htasks hshut =>
      refine ⟨?_, h.joined.setPc (ne_exited_of_atCheck hpc)⟩
      exact fun _ _ => ⟨hshut, htasks⟩
  | @sleep i hpc htasks hopen =>
      exact Closing.move (s := { s with waitSet := insert i s.waitSet }) ⟨h.left, h.joined⟩
        (ne_exited_of_atCheck (s := s) hpc) (by simp)
  | @finish i task hpc =>
      exact Closing.move (s := { s with finished := s.finished ++ [task] }) ⟨h.left, h.joined⟩
        (by simp [hpc]) (by simp)
  | shutdown hopen =>
      refine ⟨?_, rfl⟩
      intro i hi
      exact absurd (h.left i hi).1 (by simp [hopen])
  | notifyAll hpc =>
      have hjoined := h.joined
      simp only [Joined, hpc] at hjoined
      exact ⟨h.left, hjoined, fun i hi => absurd (List.mem_finRange i) hi⟩
  | @joined i left hpc hi =>
      have hjoined := h.joined
      simp only [Joined, hpc] at hjoined
      refine ⟨h.left, hjoined.1, ?_⟩
      intro j hj
      by_cases hji : j = i
      · exact hji ▸ hi
      · exact hjoined.2 j (by simp [hji, hj])
  | returned hpc =>
      have hjoined := h.joined
      simp only [Joined, hpc] at hjoined
      exact ⟨h.left, hjoined.1, fun i => hjoined.2 i List.not_mem_nil⟩

/-- Of a pool whose workers have all left nothing is running. -/
theorem running_eq_nil_of_exited (h : ∀ i, s.workers i = .exited) : s.running = [] := by
  apply Held.held_eq_nil
  intro i
  rw [h i]
  rfl

/-- **Every accepted task is run just once**, in the order of submission, and `shutdown` returns when all of them are
    finished. -/
theorem runs_accepted_once (hn : 0 < n) {ops : List (PoolOp n τ)} (h : exec step (start n τ) ops = some s) :
    s.accepted = s.started ++ s.tasks ∧ List.Perm s.started (s.finished ++ s.running) ∧
      (s.closer = .returned → List.Perm s.finished s.accepted) := by
  have hacc : Accounted s := exec_invariant accounted_start (fun _ _ _ hi hs => hi.step hs) h
  have hclosing : Closing s := exec_invariant closing_start (fun _ _ _ hi hs => hi.step hs) h
  refine ⟨hacc.fifo, hacc.once, fun hreturned => ?_⟩
  have hjoined := hclosing.joined
  simp only [Joined, hreturned] at hjoined
  have htasks : s.tasks = [] := (hclosing.left ⟨0, hn⟩ (hjoined.2 _)).2
  have honce := hacc.once
  rw [running_eq_nil_of_exited hjoined.2, List.append_nil] at honce
  rw [hacc.fifo, htasks, List.append_nil]
  exact honce.symm

/-- The workers of a pool of two. -/
def firstWorker : Fin 2 := Fin.castSucc (Fin.last 0)

def secondWorker : Fin 2 := Fin.last 1

/-- The first worker sleeps; two tasks come in, and the second worker, which has not looked yet, takes the first. -/
def busyRun : List (PoolOp 2 Bool) :=
  [.lock firstWorker, .submit true, .submit false, .lock secondWorker]

/-- The pool is shut down with a task in the queue. -/
def drainRun : List (PoolOp 2 Bool) :=
  busyRun ++ ([.shutdown, .submit true, .notifyAll, .lock firstWorker, .notifyOne none, .notifyOne none,
    .finish firstWorker, .finish secondWorker, .lock secondWorker, .lock firstWorker, .join, .join, .join] :
      List (PoolOp 2 Bool))

theorem runs_accepted_once_drainRun : ∃ s : ThreadPool 2 Bool, exec step (start 2 Bool) drainRun = some s ∧
    s.closer = .returned ∧ List.Perm s.finished s.accepted := by
  have hrun : (exec step (start 2 Bool) drainRun).map (fun s => s.closer) = some .returned := by decide
  obtain ⟨s, hs, hcloser⟩ := Option.map_eq_some_iff.mp hrun
  exact ⟨s, hs, hcloser, (runs_accepted_once (by decide) hs).2.2 hcloser⟩

/-! ## C. Sleeping workers

`submit` notifies behind the mutex, so for a moment there is a task with its notification to come (`submitting`).
`Awaited` counts these, and the workers that are awake, against the tasks. -/

/-- The workers that are about to test the predicate. -/
def atLock (s : ThreadPool n τ) : Finset (Fin n) := Finset.univ.filter s.AtCheck

@[simp] theorem mem_atLock {i : Fin n} : i ∈ s.atLock ↔ s.AtCheck i := by simp [atLock]

/-- Whoever sleeps is at `cv_.wait`, and for each task there is somebody to take it or to notify a worker. -/
structure Awaited (s : ThreadPool n τ) : Prop where
  asleep : ∀ i ∈ s.waitSet, s.workers i = .waiting
  served : s.waitSet.Nonempty → s.queueSize ≤ s.submitting + s.atLock.card
  roused : s.shutdown = true → s.closer ≠ .notifying → s.waitSet = ∅

theorem awaited_start : Awaited (start n τ) := by
  refine ⟨?_, ?_, ?_⟩ <;> simp [start]

theorem atCheck_iff {i : Fin n} : s.AtCheck i ↔ s.workers i = .locking ∨ s.workers i = .waiting ∧ i ∉ s.waitSet := by
  unfold AtCheck
  cases s.workers i <;> simp

/-- A worker that has left the wait set is about to look. -/
theorem Awaited.card_wake (h : Awaited s) {i : Fin n} (hi : i ∈ s.waitSet) {k : Nat} :
    s.atLock.card + 1 ≤ ({ s with submitting := k, waitSet := s.waitSet.erase i } : ThreadPool n τ).atLock.card := by
  have hnew : i ∉ s.atLock := by
    rw [mem_atLock, atCheck_iff]
    simp [h.asleep i hi, hi]
  rw [← Finset.card_insert_of_notMem hnew]
  apply Finset.card_le_card
  intro j hj
  rw [mem_atLock, atCheck_iff]
  rcases Finset.mem_insert.mp hj with rfl | hj
  · exact Or.inr ⟨h.asleep j hi, Finset.notMem_erase j _⟩
  · rw [mem_atLock, atCheck_iff] at hj
    exact hj.imp_right fun hj => ⟨hj.1, fun hmem => hj.2 (Finset.mem_of_mem_erase hmem)⟩

/-- One that takes a task is no longer. -/
theorem card_take {i : Fin n} (hi : s.AtCheck i) (pc : WorkerPc τ) :
    s.atLock.card ≤ (s.setPc i pc).atLock.card + 1 := by
  have hcard := Finset.card_erase_add_one (mem_atLock.mpr hi)
  have hsub : s.atLock.erase i ⊆ (s.setPc i pc).atLock := by
    intro j hj
    obtain ⟨hji, hj⟩ := Finset.mem_erase.mp hj
    rw [mem_atLock, atCheck_iff] at hj ⊢
    rwa [workers_setPc_ne s hji]
  have hle := Finset.card_le_card hsub
  omega

/-- A worker that was not asleep keeps the others asleep, whatever it does. -/
theorem Awaited.asleep_setPc (h : Awaited s) {i : Fin n} {pc : WorkerPc τ} (hi : i ∉ s.waitSet) (j : Fin n)
    (hj : j ∈ s.waitSet) : (s.setPc i pc).workers j = .waiting := by
  have hji : j ≠ i := by
    rintro rfl
    exact hi hj
  rw [workers_setPc_ne s hji]
  exact h.asleep j hj

theorem Awaited.notMem_of_atCheck (h : Awaited s) {i : Fin n} (hpc : s.AtCheck i) : i ∉ s.waitSet := by
  rw [atCheck_iff] at hpc
  intro hi
  rcases hpc with hpc | ⟨-, hpc⟩
  · exact absurd (h.asleep i hi) (by simp [hpc])
  · exact hpc hi

/-- **One step.** -/
theorem Awaited.step (h : Awaited s) {op : PoolOp n τ} (hs : s.step op = some s') : Awaited s' := by
  cases Effect.of_step hs with
  | dropped _ | shutdownAgain _ => exact ⟨h.asleep, h.served, h.roused⟩
  | @submit task hopen =>
      refine ⟨h.asleep, ?_, h.roused⟩
      intro hne
      have hserved := h.served hne
      have hlength : (s.tasks ++ [task]).length = s.tasks.length + 1 := by simp
      change (s.tasks ++ [task]).length ≤ s.submitting + 1 + s.atLock.card
      unfold queueSize at hserved
      omega
  | notifyNone hpos hempty =>
      refine ⟨h.asleep, ?_, h.roused⟩
      rintro ⟨i, hi⟩
      exact absurd hi (by simp [hempty])
  | @notifyOne i hpos hi =>
      refine ⟨fun j hj => h.asleep j (Finset.mem_of_mem_erase hj), ?_, ?_⟩
      · intro _
        have hserved := h.served ⟨i, hi⟩
        have hcard := h.card_wake hi (k := s.submitting - 1)
        unfold queueSize at hserved ⊢
        dsimp only
        omega
      · intro hshut hpc
        exact absurd hi (by simp [h.roused hshut hpc])
  | @wake i hi =>
      refine ⟨fun j hj => h.asleep j (Finset.mem_of_mem_erase hj), ?_, ?_⟩
      · intro _
        have hserved := h.served ⟨i, hi⟩
        have hcard := h.card_wake hi (k := s.submitting)
        unfold queueSize at hserved ⊢
        dsimp only
        omega
      · intro hshut hpc
        exact absurd hi (by simp [h.roused hshut hpc])
  | @take i task tasks hpc htasks =>
      refine ⟨fun j => h.asleep_setPc (h.notMem_of_atCheck hpc) j, ?_, h.roused⟩
      intro hne
      have hserved := h.served hne
      have hcard := card_take hpc (.running task)
      have hlength : s.tasks.length = tasks.length + 1 := by simp [htasks]
      change tasks.length ≤ s.submitting + (s.setPc i (.running task)).atLock.card
      unfold queueSize at hserved
      omega
  | @exit i hpc htasks hshut =>
      refine ⟨fun j => h.asleep_setPc (h.notMem_of_atCheck hpc) j, ?_, h.roused⟩
      intro _
      change s.tasks.length ≤ _
      simp [htasks]
  | @sleep i hpc htasks hopen =>
      refine ⟨?_, ?_, ?_⟩
      · intro j hj
        by_cases hji : j = i
        · subst hji
          exact workers_setPc_self ..
        · rw [workers_setPc_ne _ hji]
          exact h.asleep j ((Finset.mem_insert.mp hj).resolve_left hji)
      · intro _
        change s.tasks.length ≤ _
        simp [htasks]
      · intro hshut _
        exact absurd (hopen.symm.trans hshut) (by decide)
  | @finish i task hpc =>
      have hi : i ∉ s.waitSet := fun hmem => absurd (h.asleep i hmem) (by simp [hpc])
      refine ⟨fun j => h.asleep_setPc hi j, ?_, h.roused⟩
      intro hne
      have hserved := h.served hne
      have hsub : s.atLock ⊆ (s.setPc i .locking).atLock := by
        intro j hj
        rw [mem_atLock, atCheck_iff] at hj ⊢
        by_cases hji : j = i
        · subst hji
          exact Or.inl (workers_setPc_self ..)
        · rwa [workers_setPc_ne s hji]
      exact hserved.trans (Nat.add_le_add_left (Finset.card_le_card hsub) _)
  | shutdown hopen => exact ⟨h.asleep, h.served, fun _ hpc => absurd rfl hpc⟩
  | notifyAll hpc =>
      refine ⟨fun i hi => absurd hi (Finset.notMem_empty i), ?_, fun _ _ => rfl⟩
      exact fun hne => absurd hne Finset.not_nonempty_empty
  | joined hpc hi =>
      refine ⟨h.asleep, h.served, fun hshut _ => h.roused hshut ?_⟩
      simp [hpc]
  | returned hpc =>
      refine ⟨h.asleep, h.served, fun hshut _ => h.roused hshut ?_⟩
      simp [hpc]

/-- Nothing is to be done but what callers may ask for. -/
def Quiet (s : ThreadPool n τ) : Prop :=
  s.submitting = 0 ∧ s.closer ≠ .notifying ∧ ∀ i, ¬ s.AtCheck i ∧ (s.workers i).task = none

/-- In a pool that has come to rest every worker sleeps or has left. -/
theorem Quiet.asleep_or_exited (h : Quiet s) (i : Fin n) : i ∈ s.waitSet ∨ s.workers i = .exited := by
  obtain ⟨hcheck, htask⟩ := h.2.2 i
  rw [atCheck_iff] at hcheck
  cases hpc : s.workers i with
  | locking => exact absurd (Or.inl hpc) hcheck
  | waiting =>
      by_contra hnot
      exact hcheck (Or.inr ⟨hpc, fun hmem => hnot (Or.inl hmem)⟩)
  | running task => simp [hpc, WorkerPc.task] at htask
  | exited => exact Or.inr rfl

/-- **The pool does not sleep over its work.** While a worker sleeps, there is somebody for every task in the queue; and
    when nothing moves any more, the queue is empty, and after `shutdown` all workers have left. -/
theorem no_work_left_behind (hn : 0 < n) {ops : List (PoolOp n τ)} (h : exec step (start n τ) ops = some s) :
    (s.waitSet.Nonempty → s.queueSize ≤ s.submitting + s.atLock.card) ∧
      (Quiet s → s.tasks = [] ∧ (s.shutdown = true → ∀ i, s.workers i = .exited)) := by
  have hclosing : Closing s := exec_invariant closing_start (fun _ _ _ hi hs => hi.step hs) h
  have hawaited : Awaited s := exec_invariant awaited_start (fun _ _ _ hi hs => hi.step hs) h
  refine ⟨hawaited.served, fun hquiet => ⟨?_, ?_⟩⟩
  · rcases hquiet.asleep_or_exited ⟨0, hn⟩ with hi | hi
    · have hserved := hawaited.served ⟨_, hi⟩
      have hnone : s.atLock = ∅ := Finset.filter_eq_empty_iff.mpr fun i _ => (hquiet.2.2 i).1
      rw [hquiet.1, hnone, Finset.card_empty] at hserved
      exact List.eq_nil_of_length_eq_zero (Nat.le_zero.mp hserved)
    · exact (hclosing.left _ hi).2
  · intro hshut i
    have hempty := hawaited.roused hshut hquiet.2.1
    refine (hquiet.asleep_or_exited i).resolve_left ?_
    simp [hempty]

theorem no_work_left_behind_samples :
    (∃ s : ThreadPool 2 Bool, exec step (start 2 Bool) busyRun = some s ∧ s.waitSet.Nonempty ∧
      s.tasks = [false] ∧ s.queueSize ≤ s.submitting + s.atLock.card) ∧
    ∃ s : ThreadPool 2 Bool, exec step (start 2 Bool) drainRun = some s ∧ Quiet s ∧
      s.tasks = [] ∧ ∀ i, s.workers i = .exited := by
  have hbusy : (exec step (start 2 Bool) busyRun).map (fun s => (decide (s.waitSet.Nonempty), s.tasks))
      = some (true, [false]) := by decide
  have hdrain : (exec step (start 2 Bool) drainRun).map (fun s => (s.submitting, s.closer, s.shutdown))
      = some (0, .returned, true) := by decide
  have hidle : (exec step (start 2 Bool) drainRun).map
      (fun s => decide (∀ i, ¬ s.AtCheck i ∧ (s.workers i).task = none)) = some true := by decide
  obtain ⟨s, hs, hfields⟩ := Option.map_eq_some_iff.mp hbusy
  obtain ⟨t, ht, hfields'⟩ := Option.map_eq_some_iff.mp hdrain
  simp only [Prod.mk.injEq, decide_eq_true_eq] at hfields hfields'
  rw [ht] at hidle
  have hquiet : Quiet t := ⟨hfields'.1, by simp [hfields'.2.1], of_decide_eq_true (Option.some.inj hidle)⟩
  refine ⟨⟨s, hs, hfields.1, hfields.2, (no_work_left_behind (by decide) hs).1 hfields.1⟩, t, ht, hquiet, ?_⟩
  obtain ⟨htasks, hexited⟩ := (no_work_left_behind (by decide) ht).2 hquiet
  exact ⟨htasks, hexited hfields'.2.2⟩

end ThreadPool

end KvStorageEngine.Server
