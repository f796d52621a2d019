import KvStorageEngine.Server.AcceptLoop
import KvStorageEngine.Server.Correctness.PoolDrain
import Mathlib.Data.List.Nodup

/-!
# `Server.Correctness.ConnectionCount` — what `active_connections_` counts

In any interleaving the counter is the number of connections that are on their way: the one that is about to be
submitted, those in the queue, those a worker has not counted down yet, and those that were lost, because the pool had
been shut down or the handler threw something that the task does not catch (`Inv`). Only the accept loop counts up, so
its test is still good when it does, and the limit is never exceeded. A task closes a descriptor that is open and that
no other connection has.
-/

namespace KvStorageEngine.Server

open Run Held

namespace AcceptLoop

variable {n : Nat} {s s' : AcceptLoop n}

/-! ## A. The invariant

The descriptors that are open are those of the connections under way, and the counter is their number and that of the
ones that ended without counting down. -/

/-- The descriptors that tasks are still to close. -/
def sockets (clients : Fin n → ClientPc) : List Nat := held fun i => (clients i).socket

/-- The connections that tasks are still to count down. -/
def uncounted (clients : Fin n → ClientPc) : List Nat := held fun i => (clients i).uncounted

/-- Who has which descriptor, and what is counted. The connections that were dropped or abandoned are lost: nobody will
    close them. -/
structure Inv (s : AcceptLoop n) : Prop where
  clients : ∀ i, s.clients i = .idle ↔ (s.pool.workers i).task = none
  opened : List.Perm s.openFds
    (s.acceptor.fd.toList ++ (s.pool.tasks ++ (sockets s.clients ++ (s.pool.dropped ++ s.abandoned))))
  distinct : s.openFds.Nodup
  counted : s.activeConnections = s.acceptor.countedFd.toList.length + s.pool.tasks.length +
    (uncounted s.clients).length + s.pool.dropped.length + s.abandoned.length
  limit : s.activeConnections ≤ s.maxConnections
  admitted : ∀ fd, s.acceptor = .admitted fd → s.activeConnections < s.maxConnections

theorem sockets_idle : sockets (fun _ : Fin n => .idle) = [] := held_none

theorem uncounted_idle : uncounted (fun _ : Fin n => .idle) = [] := held_none

/-- In the beginning there is no connection. -/
theorem inv_start (maxConnections : Nat) : Inv (start n maxConnections) := by
  refine ⟨fun _ => ?_, ?_, List.nodup_nil, ?_, Nat.zero_le _, fun fd hpc => ?_⟩
  · simp [start, ThreadPool.start, WorkerPc.task]
  · simp [start, ThreadPool.start, sockets_idle, AcceptPc.fd]
  · simp [start, ThreadPool.start, uncounted_idle, AcceptPc.countedFd]
  · exact absurd hpc (by simp [start])

/-! ## B. Clients after a move -/

section Move

variable {clients : Fin n → ClientPc} {i : Fin n} {fd : Nat}

theorem sockets_update (pc : ClientPc) :
    sockets (Function.update clients i pc) = held (Function.update (fun j => (clients j).socket) i pc.socket) := by
  unfold sockets
  congr 1
  exact funext fun j => Function.apply_update (fun _ => ClientPc.socket) clients i pc j

theorem uncounted_update (pc : ClientPc) :
    uncounted (Function.update clients i pc)
      = held (Function.update (fun j => (clients j).uncounted) i pc.uncounted) := by
  unfold uncounted
  congr 1
  exact funext fun j => Function.apply_update (fun _ => ClientPc.uncounted) clients i pc j

/-- A worker begins to serve a connection. -/
theorem serving_perm (hi : clients i = .idle) (fd : Nat) :
    List.Perm (sockets (Function.update clients i (.serving fd))) (fd :: sockets clients) ∧
      List.Perm (uncounted (Function.update clients i (.serving fd))) (fd :: uncounted clients) := by
  rw [sockets_update, uncounted_update]
  exact ⟨held_take (by simp [hi, ClientPc.socket]) fd, held_take (by simp [hi, ClientPc.uncounted]) fd⟩

/-- It closes the descriptor. -/
theorem closed_perm (hi : clients i = .serving fd) :
    List.Perm (sockets clients) (fd :: sockets (Function.update clients i (.closed fd))) ∧
      uncounted (Function.update clients i (.closed fd)) = uncounted clients := by
  rw [sockets_update, uncounted_update]
  exact ⟨held_drop (by simp [hi, ClientPc.socket]), held_update_self (by simp [hi, ClientPc.uncounted])⟩

/-- It counts the connection down. -/
theorem ended_perm (hi : clients i = .closed fd) :
    sockets (Function.update clients i .ended) = sockets clients ∧
      List.Perm (uncounted clients) (fd :: uncounted (Function.update clients i .ended)) := by
  rw [sockets_update, uncounted_update]
  exact ⟨held_update_self (by simp [hi, ClientPc.socket]), held_drop (by simp [hi, ClientPc.uncounted])⟩

/-- It is done with its task. -/
theorem idle_eq (hi : clients i = .ended) :
    sockets (Function.update clients i .idle) = sockets clients ∧
      uncounted (Function.update clients i .idle) = uncounted clients := by
  rw [sockets_update, uncounted_update]
  exact ⟨held_update_self (by simp [hi, ClientPc.socket]), held_update_self (by simp [hi, ClientPc.uncounted])⟩

/-- It leaves its task before the descriptor is closed. -/
theorem abandoned_perm (hi : clients i = .serving fd) :
    List.Perm (sockets clients) (fd :: sockets (Function.update clients i .idle)) ∧
      List.Perm (uncounted clients) (fd :: uncounted (Function.update clients i .idle)) := by
  rw [sockets_update, uncounted_update]
  exact ⟨held_drop (by simp [hi, ClientPc.socket]), held_drop (by simp [hi, ClientPc.uncounted])⟩

/-- Clients and workers after both have moved. -/
theorem idle_iff_update {workers : Fin n → WorkerPc Nat} (h : ∀ j, clients j = .idle ↔ (workers j).task = none)
    {pc : ClientPc} {worker : WorkerPc Nat} (hi : pc = .idle ↔ worker.task = none) (j : Fin n) :
    Function.update clients i pc j = .idle ↔ (Function.update workers i worker j).task = none := by
  by_cases hji : j = i
  · subst hji
    simpa using hi
  · simpa [hji] using h j

/-- A client that moves and stays at its task. -/
theorem idle_iff_stay {workers : Fin n → WorkerPc Nat} (h : ∀ j, clients j = .idle ↔ (workers j).task = none)
    {pc : ClientPc} (hold : clients i ≠ .idle) (hnew : pc ≠ .idle) (j : Fin n) :
    Function.update clients i pc j = .idle ↔ (workers j).task = none := by
  have hmove := idle_iff_update h (i := i) (iff_of_false hnew fun hnone => hold ((h i).mpr hnone)) j
  rwa [Function.update_eq_self] at hmove

end Move

/-! ## C. The steps of the pool -/

/-- A submitted task is in the queue, or it is dropped. -/
theorem submit_effect {pool pool' : ThreadPool n Nat} {fd : Nat} (h : pool.step (.submit fd) = some pool') :
    pool'.workers = pool.workers ∧ List.Perm (pool'.tasks ++ pool'.dropped) (fd :: (pool.tasks ++ pool.dropped)) := by
  cases ThreadPool.Effect.of_step h with
  | dropped _ => exact ⟨rfl, by simpa using List.perm_append_singleton fd (pool.tasks ++ pool.dropped)⟩
  | submit _ => exact ⟨rfl, by simp⟩

/-- A worker that takes a task. -/
theorem lock_effect {pool pool' : ThreadPool n Nat} {i : Fin n} (h : pool.step (.lock i) = some pool') :
    pool'.dropped = pool.dropped ∧ (pool.workers i).task = none ∧
      pool'.workers = Function.update pool.workers i (pool'.workers i) ∧
      pool.tasks = (pool'.workers i).task.toList ++ pool'.tasks := by
  cases ThreadPool.Effect.of_step h with
  | take hpc htasks =>
      refine ⟨rfl, ThreadPool.task_of_atCheck hpc, ?_, ?_⟩ <;> simp [ThreadPool.setPc, htasks, WorkerPc.task]
  | exit hpc htasks _ =>
      refine ⟨rfl, ThreadPool.task_of_atCheck hpc, ?_, ?_⟩ <;> simp [ThreadPool.setPc, WorkerPc.task]
  | sleep hpc htasks _ =>
      refine ⟨rfl, ThreadPool.task_of_atCheck hpc, ?_, ?_⟩ <;> simp [ThreadPool.setPc, WorkerPc.task]

theorem finish_effect {pool pool' : ThreadPool n Nat} {i : Fin n} (h : pool.step (.finish i) = some pool') :
    pool'.dropped = pool.dropped ∧ pool'.tasks = pool.tasks ∧
      pool'.workers = Function.update pool.workers i .locking := by
  cases ThreadPool.Effect.of_step h with
  | finish hpc => exact ⟨rfl, rfl, rfl⟩

/-- The other steps move no task. -/
theorem inner_effect {pool' : ThreadPool n Nat} {op : PoolOp n Nat} (hinner : s.inner op = true)
    (h : s.pool.step op = some pool') :
    pool'.dropped = s.pool.dropped ∧ pool'.tasks = s.pool.tasks ∧ pool'.workers = s.pool.workers := by
  cases ThreadPool.Effect.of_step h with
  | dropped _ | submit _ | take _ _ | exit _ _ _ | sleep _ _ _ | finish _ => simp [inner] at hinner
  | notifyNone _ _ | notifyOne _ _ | wake _ | shutdownAgain _ | shutdown _ | notifyAll _ | joined _ _ | returned _ =>
      exact ⟨rfl, rfl, rfl⟩

/-! ## D. One step

The accept loop counts before it submits, and a task counts down behind its `close`. -/

/-- **One step.** -/
theorem Inv.step (h : Inv s) {op : AcceptOp n} (hs : s.step op = some s') : Inv s' := by
  obtain ⟨hclients, hopened, hdistinct, hcounted, hlimit, hadmitted⟩ := h
  rw [List.perm_iff_count] at hopened
  cases Effect.of_step hs with
  | @loop _ acceptor hold hnew =>
      have hcountedFd : ∀ pc : AcceptPc, pc.fd = none → pc.countedFd = none := by
        intro pc hpc
        cases pc <;> simp_all [AcceptPc.fd, AcceptPc.countedFd]
      refine ⟨hclients, ?_, hdistinct, ?_, hlimit, ?_⟩
      · rw [List.perm_iff_count]
        simpa only [hold, hnew] using hopened
      · simpa only [hcountedFd _ hold, hcountedFd _ hnew] using hcounted
      · rintro fd rfl
        exact absurd hnew (by simp [AcceptPc.fd])
  | @accept fd hpc hfd =>
      rw [hpc] at hopened hcounted
      refine ⟨hclients, ?_, List.nodup_cons.mpr ⟨hfd, hdistinct⟩, hcounted, hlimit, fun _ hnew => absurd hnew (by simp)⟩
      exact (List.perm_iff_count.mpr hopened).cons fd
  | @reject fd hpc hfull =>
      rw [hpc] at hopened hcounted
      refine ⟨hclients, ?_, hdistinct.erase fd, hcounted, hlimit, fun _ hnew => absurd hnew (by simp)⟩
      have herase := (List.perm_iff_count.mpr hopened).erase fd
      simpa [AcceptPc.fd] using herase
  | @keep fd hpc hroom =>
      rw [hpc] at hopened hcounted
      exact ⟨hclients, List.perm_iff_count.mpr hopened, hdistinct, hcounted, hlimit, fun _ _ => hroom⟩
  | @count fd hpc =>
      rw [hpc] at hopened hcounted
      refine ⟨hclients, List.perm_iff_count.mpr hopened, hdistinct, ?_, hadmitted fd hpc,
        fun _ hnew => absurd hnew (by simp)⟩
      simp only [AcceptPc.countedFd, Option.toList_none, Option.toList_some, List.length_nil,
        List.length_singleton] at hcounted ⊢
      omega
  | @submit fd pool hpc hpool =>
      obtain ⟨hworkers, hperm⟩ := submit_effect hpool
      rw [hpc] at hopened hcounted
      refine ⟨fun i => hworkers ▸ hclients i, ?_, hdistinct, ?_, hlimit, fun _ hnew => absurd hnew (by simp)⟩
      · rw [List.perm_iff_count] at hperm ⊢
        intro x
        have hold := hopened x
        have hmoved := hperm x
        simp only [AcceptPc.fd, Option.toList_some, Option.toList_none, List.nil_append, List.singleton_append,
          List.count_append, List.count_cons] at hold hmoved ⊢
        omega
      · have hlength := hperm.length_eq
        simp only [AcceptPc.countedFd, Option.toList_some, Option.toList_none, List.length_nil, List.length_cons,
          List.length_append] at hcounted hlength ⊢
        omega
  | @serve i fd pool hpool hi =>
      obtain ⟨hdropped, hidle, hworkers, htasks⟩ := lock_effect hpool
      rw [hi] at hworkers htasks
      obtain ⟨hsockets, huncounted⟩ := serving_perm ((hclients i).mpr hidle) fd
      refine ⟨fun j => ?_, ?_, hdistinct, ?_, hlimit, hadmitted⟩
      · simp only [setClient, hworkers]
        exact idle_iff_update hclients (by simp [WorkerPc.task]) j
      · rw [List.perm_iff_count] at hsockets ⊢
        intro x
        have hold := hopened x
        have hmoved := hsockets x
        simp only [setClient, htasks, hdropped, WorkerPc.task, Option.toList_some, List.singleton_append,
          List.count_append, List.count_cons] at hold hmoved ⊢
        omega
      · have hlength := huncounted.length_eq
        simp only [setClient, htasks, hdropped, WorkerPc.task, Option.toList_some, List.singleton_append,
          List.length_cons] at hcounted hlength ⊢
        omega
  | @lock i pool hpool hi =>
      obtain ⟨hdropped, hidle, hworkers, htasks⟩ := lock_effect hpool
      rw [hi, Option.toList_none, List.nil_append] at htasks
      refine ⟨fun j => ?_, ?_, hdistinct, ?_, hlimit, hadmitted⟩
      · have hmove := idle_iff_update hclients (i := i) (iff_of_true ((hclients i).mpr hidle) hi) j
        rw [hworkers]
        rwa [Function.update_eq_self] at hmove
      · rw [List.perm_iff_count, ← htasks, hdropped]
        exact hopened
      · simpa only [← htasks, hdropped] using hcounted
  | @pool op pool hinner hpool =>
      obtain ⟨hdropped, htasks, hworkers⟩ := inner_effect hinner hpool
      refine ⟨fun j => hworkers ▸ hclients j, ?_, hdistinct, ?_, hlimit, hadmitted⟩
      · rw [List.perm_iff_count, htasks, hdropped]
        exact hopened
      · simpa only [htasks, hdropped] using hcounted
  | @handled i fd hpc =>
      obtain ⟨hsockets, huncounted⟩ := closed_perm hpc
      refine ⟨fun j => idle_iff_stay hclients (by simp [hpc]) (by simp) j, ?_, hdistinct.erase fd, ?_, hlimit,
        hadmitted⟩
      · -- the descriptor is open, since the task is still to close it
        have hmem : fd ∈ s.openFds := by
          rw [(List.perm_iff_count.mpr hopened).mem_iff]
          have hmem := hsockets.mem_iff.mpr List.mem_cons_self
          simp [hmem]
        have herase := List.perm_cons_erase hmem
        rw [List.perm_iff_count] at hsockets herase ⊢
        intro x
        have hold := hopened x
        have hmoved := hsockets x
        have hclosed := herase x
        simp only [setClient, List.count_append, List.count_cons] at hold hmoved hclosed ⊢
        omega
      · simpa only [setClient, huncounted] using hcounted
  | @countDown i fd hpc =>
      obtain ⟨hsockets, huncounted⟩ := ended_perm hpc
      have hlength := huncounted.length_eq
      rw [List.length_cons] at hlength
      refine ⟨fun j => idle_iff_stay hclients (by simp [hpc]) (by simp) j, ?_, hdistinct, ?_, ?_, ?_⟩
      · rw [List.perm_iff_count]
        simpa only [setClient, hsockets] using hopened
      · simp only [setClient] at hlength ⊢
        omega
      · exact (Nat.sub_le _ _).trans hlimit
      · exact fun fd' hadmit => (Nat.sub_le _ _).trans_lt (hadmitted fd' hadmit)
  | @finish i pool hpc hpool =>
      obtain ⟨hdropped, htasks, hworkers⟩ := finish_effect hpool
      obtain ⟨hsockets, huncounted⟩ := idle_eq hpc
      refine ⟨fun j => ?_, ?_, hdistinct, ?_, hlimit, hadmitted⟩
      · simp only [setClient, hworkers]
        exact idle_iff_update hclients (by simp [WorkerPc.task]) j
      · rw [List.perm_iff_count]
        simpa only [setClient, hsockets, htasks, hdropped] using hopened
      · simpa only [setClient, huncounted, htasks, hdropped] using hcounted
  | @throwOther i fd pool hpc hpool =>
      obtain ⟨hdropped, htasks, hworkers⟩ := finish_effect hpool
      obtain ⟨hsockets, huncounted⟩ := abandoned_perm hpc
      refine ⟨fun j => ?_, ?_, hdistinct, ?_, hlimit, hadmitted⟩
      · simp only [setClient, hworkers]
        exact idle_iff_update hclients (by simp [WorkerPc.task]) j
      · rw [List.perm_iff_count] at hsockets ⊢
        intro x
        have hold := hopened x
        have hmoved := hsockets x
        simp only [setClient, htasks, hdropped, List.count_append, List.count_cons, List.count_nil] at hold hmoved ⊢
        omega
      · have hlength := huncounted.length_eq
        simp only [setClient, htasks, hdropped, List.length_cons, List.length_append, List.length_nil]
          at hcounted hlength ⊢
        omega
  | stop => exact ⟨hclients, List.perm_iff_count.mpr hopened, hdistinct, hcounted, hlimit, hadmitted⟩

/-! ## E. Whole runs

Every connection that is accepted is counted, so the bound of the accept loop bounds them all. -/

/-- A step of the server is a step of its pool, or leaves the pool alone. -/
theorem pool_step {op : AcceptOp n} (hs : s.step op = some s') :
    s'.pool = s.pool ∨ ∃ poolOp, s.pool.step poolOp = some s'.pool := by
  cases Effect.of_step hs with
  | loop _ _ | accept _ _ | reject _ _ | keep _ _ | count _ | handled _ | countDown _ | stop => exact Or.inl rfl
  | submit _ hpool | serve hpool _ | lock hpool _ | pool _ hpool | finish _ hpool | throwOther _ hpool =>
      exact Or.inr ⟨_, hpool⟩

/-- The limit stays. -/
theorem maxConnections_step {op : AcceptOp n} (hs : s.step op = some s') : s'.maxConnections = s.maxConnections := by
  cases Effect.of_step hs <;> rfl

/-- A task that is still to close its descriptor is still to be counted down. -/
theorem length_sockets_le (clients : Fin n → ClientPc) :
    (sockets clients).length ≤ (uncounted clients).length := by
  apply length_held_le
  intro i hi
  cases hpc : clients i <;> simp_all [ClientPc.socket, ClientPc.uncounted]

/-- At most one descriptor is open that is not counted: the one that has just been accepted. -/
theorem Inv.length_openFds_le (h : Inv s) : s.openFds.length ≤ s.activeConnections + 1 := by
  have hlength := h.opened.length_eq
  have hcounted := h.counted
  have hsockets := length_sockets_le s.clients
  have hfd : s.acceptor.fd.toList.length ≤ s.acceptor.countedFd.toList.length + 1 := by
    cases s.acceptor <;> simp [AcceptPc.fd, AcceptPc.countedFd]
  simp only [List.length_append] at hlength
  omega

/-- **The limit is kept and no descriptor is mixed up.** In every run the connections that count are at most
    `max_connections`, at most one more descriptor is open, a worker closes one that is open and nobody else's, and when
    the pool has been shut down only the connections that were lost are left. -/
theorem connections_counted (hn : 0 < n) {maxConnections : Nat} {ops : List (AcceptOp n)}
    (h : exec step (start n maxConnections) ops = some s) :
    s.activeConnections ≤ maxConnections ∧ s.openFds.length ≤ s.activeConnections + 1 ∧
      (∀ i fd, s.clients i = .serving fd → fd ∈ s.openFds ∧ ∀ j, s.clients j = .serving fd → j = i) ∧
      (s.pool.closer = .returned →
        List.Perm s.openFds (s.acceptor.fd.toList ++ (s.pool.dropped ++ s.abandoned)) ∧
        s.activeConnections =
          s.acceptor.countedFd.toList.length + s.pool.dropped.length + s.abandoned.length) := by
  have hinv : Inv s := exec_invariant (inv_start maxConnections) (fun _ _ _ hi hs => hi.step hs) h
  have hmax : s.maxConnections = maxConnections :=
    exec_invariant (I := fun s => s.maxConnections = maxConnections) rfl
      (fun _ _ _ hi hs => (maxConnections_step hs).trans hi) h
  have hclosing : s.pool.Closing := by
    refine exec_invariant (I := fun s => s.pool.Closing) ThreadPool.closing_start (fun s a t hi hs => ?_) h
    rcases pool_step hs with hpool | ⟨poolOp, hpool⟩
    · exact hpool ▸ hi
    · exact hi.step hpool
  refine ⟨hmax ▸ hinv.limit, hinv.length_openFds_le, fun i fd hi => ⟨?_, fun j hj => ?_⟩, fun hreturned => ?_⟩
  · have hmem : fd ∈ sockets s.clients := mem_held.mpr ⟨i, by simp [hi, ClientPc.socket]⟩
    exact hinv.opened.mem_iff.mpr (by simp [hmem])
  · have hnodup := hinv.opened.nodup_iff.mp hinv.distinct
    have hsockets : (sockets s.clients).Nodup := (List.nodup_append.mp (List.nodup_append.mp
      (List.nodup_append.mp hnodup).2.1).2.1).1
    exact eq_of_nodup_held hsockets (a := fd) (by simp [hj, ClientPc.socket]) (by simp [hi, ClientPc.socket])
  · have hjoined := hclosing.joined
    simp only [ThreadPool.Joined, hreturned] at hjoined
    have htasks : s.pool.tasks = [] := (hclosing.left ⟨0, hn⟩ (hjoined.2 _)).2
    have hidle : s.clients = fun _ => .idle := funext fun i =>
      (hinv.clients i).mpr (by rw [hjoined.2 i]; rfl)
    have hopened := hinv.opened
    have hcounted := hinv.counted
    rw [htasks, hidle, sockets_idle] at hopened
    rw [htasks, hidle, uncounted_idle] at hcounted
    exact ⟨hopened, by simpa using hcounted⟩

/-- A server with one worker that lets in one connection: it serves a first client, sends a second one away, and is
    shut down while a third one is on its way to the pool. -/
def shutdownRun : List (AcceptOp 1) :=
  let worker : Fin 1 := Fin.last 0
  [.test, .accept 7, .check, .count, .submit, .pool (.lock worker), .test, .accept 8, .check, .handled worker,
    .countDown worker, .finish worker, .test, .accept 7, .check, .count, .stop, .pool .shutdown, .submit,
    .pool .notifyAll, .pool (.lock worker), .pool .join, .pool .join, .test]

theorem connections_counted_shutdownRun : ∃ s : AcceptLoop 1, exec step (start 1 1) shutdownRun = some s ∧
    s.pool.closer = .returned ∧ s.acceptor = .exited ∧ s.pool.dropped = [7] ∧ List.Perm s.openFds [7] ∧
      s.activeConnections = 1 := by
  have hrun : (exec step (start 1 1) shutdownRun).map
      (fun s => (s.pool.closer, s.acceptor, s.pool.dropped, s.abandoned)) = some (.returned, .exited, [7], []) := by
    decide
  obtain ⟨s, hs, hfields⟩ := Option.map_eq_some_iff.mp hrun
  simp only [Prod.mk.injEq] at hfields
  obtain ⟨hcloser, hacceptor, hdropped, habandoned⟩ := hfields
  obtain ⟨hopened, hcounted⟩ := (connections_counted (by decide) hs).2.2.2 hcloser
  rw [hacceptor, hdropped, habandoned] at hopened hcounted
  exact ⟨s, hs, hcloser, hacceptor, hdropped, hopened, hcounted⟩

end AcceptLoop

end KvStorageEngine.Server
