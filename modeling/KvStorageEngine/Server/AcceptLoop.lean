import KvStorageEngine.Server.ThreadPool

/-!
# `Server.AcceptLoop` — connections on their way through the pool

`TcpServer::acceptLoop` and `TcpServer::shutdown` (`server/src/tcp_server.cpp`). One thread accepts the connections,
counts them in `active_connections_` and submits a task for each to the pool of `Server.ThreadPool`; the task serves the
client, closes the descriptor and counts the connection down. The counter is atomic but its test and its increment are
two steps, as are a task's `close` and its decrement.

A task is the descriptor it serves. Descriptors are the operating system's: it gives out one that is not open, and may
give it out again as soon as it is closed.
-/

namespace KvStorageEngine.Server

/-- Where the accept loop is. -/
inductive AcceptPc where
  | testing
  | accepting
  | accepted (fd : Nat)
  | admitted (fd : Nat)
  | counted (fd : Nat)
  | exited
  deriving DecidableEq, Repr

namespace AcceptPc

/-- The descriptor that the accept loop has at hand. -/
def fd : AcceptPc → Option Nat
  | .accepted fd | .admitted fd | .counted fd => some fd
  | .testing | .accepting | .exited => none

/-- The one it has counted already. -/
def countedFd : AcceptPc → Option Nat
  | .counted fd => some fd
  | .testing | .accepting | .accepted _ | .admitted _ | .exited => none

end AcceptPc

/-- How far a worker is with the connection it serves. -/
inductive ClientPc where
  | idle
  | serving (fd : Nat)
  | closed (fd : Nat)
  | ended
  deriving DecidableEq, Repr

namespace ClientPc

/-- The descriptor that the task is still to close. -/
def socket : ClientPc → Option Nat
  | .serving fd => some fd
  | .idle | .closed _ | .ended => none

/-- The connection that the task is still to count down. -/
def uncounted : ClientPc → Option Nat
  | .serving fd | .closed fd => some fd
  | .idle | .ended => none

end ClientPc

/-- The server with `n` workers. -/
structure AcceptLoop (n : Nat) where
  maxConnections : Nat
  running : Bool
  acceptor : AcceptPc
  activeConnections : Nat
  pool : ThreadPool n Nat
  clients : Fin n → ClientPc
  /-- The client descriptors that are open. -/
  openFds : List Nat
  /-- History: the connections whose handler threw something that is no `std::exception`. -/
  abandoned : List Nat

/-- A step of the accept loop, of a task, of the pool or of the thread that shuts the server down. -/
inductive AcceptOp (n : Nat) where
  | test
  | accept (fd : Nat)
  | acceptFailed
  | check
  | count
  | submit
  | pool (op : PoolOp n Nat)
  | handled (i : Fin n)
  | countDown (i : Fin n)
  | finish (i : Fin n)
  | throwOther (i : Fin n)
  | stop
  deriving DecidableEq

namespace AcceptLoop

variable {n : Nat}

/-- `TcpServer::run` has set `running_` and enters the loop. -/
def start (n maxConnections : Nat) : AcceptLoop n :=
  ⟨maxConnections, true, .testing, 0, ThreadPool.start n Nat, fun _ => .idle, [], []⟩

def setClient (s : AcceptLoop n) (i : Fin n) (pc : ClientPc) : AcceptLoop n :=
  { s with clients := Function.update s.clients i pc }

/-- The steps of the pool that are not part of a step of the accept loop or of a task. -/
def inner (s : AcceptLoop n) : PoolOp n Nat → Bool
  | .submit _ | .finish _ | .lock _ => false
  -- `running_` is false before the pool is shut down
  | .shutdown => !s.running
  | .notifyOne _ | .wake _ | .notifyAll | .join => true

/-- One step, `none` where the thread is not at that point or would wait. -/
def step (s : AcceptLoop n) : AcceptOp n → Option (AcceptLoop n)
  | .test =>
    match s.acceptor with
    | .testing => some { s with acceptor := if s.running then .accepting else .exited }
    | _ => none
  | .accept fd =>
    match s.acceptor with
    | .accepting =>
      if fd ∈ s.openFds then none
      else some { s with acceptor := .accepted fd, openFds := fd :: s.openFds }
    | _ => none
  | .acceptFailed =>
    match s.acceptor with
    | .accepting => some { s with acceptor := if s.running then .testing else .exited }
    | _ => none
  | .check =>
    match s.acceptor with
    | .accepted fd =>
      if s.maxConnections ≤ s.activeConnections then
        some { s with acceptor := .testing, openFds := s.openFds.erase fd }
      else some { s with acceptor := .admitted fd }
    | _ => none
  | .count =>
    match s.acceptor with
    | .admitted fd => some { s with acceptor := .counted fd, activeConnections := s.activeConnections + 1 }
    | _ => none
  | .submit =>
    match s.acceptor with
    | .counted fd => (s.pool.step (.submit fd)).map fun pool => { s with pool, acceptor := .testing }
    | _ => none
  | .pool (.lock i) =>
    (s.pool.step (.lock i)).map fun pool =>
      match pool.workers i with
      -- the task begins with `handleClient`
      | .running fd => { s with pool }.setClient i (.serving fd)
      | _ => { s with pool }
  | .pool op => if s.inner op then (s.pool.step op).map fun pool => { s with pool } else none
  | .handled i =>
    match s.clients i with
    -- `handleClient` has returned, or has thrown an exception that is caught in the task
    | .serving fd => some ({ s with openFds := s.openFds.erase fd }.setClient i (.closed fd))
    | _ => none
  | .countDown i =>
    match s.clients i with
    | .closed _ => some ({ s with activeConnections := s.activeConnections - 1 }.setClient i .ended)
    | _ => none
  | .finish i =>
    match s.clients i with
    | .ended => (s.pool.step (.finish i)).map fun pool => { s with pool }.setClient i .idle
    | _ => none
  | .throwOther i =>
    match s.clients i with
    -- only the worker loop catches this
    | .serving fd => (s.pool.step (.finish i)).map fun pool =>
        { s with pool, abandoned := s.abandoned ++ [fd] }.setClient i .idle
    | _ => none
  | .stop => some { s with running := false }

/-! ## What a step does -/

/-- The effects of the steps, one constructor for each thing that can happen. -/
inductive Effect (s : AcceptLoop n) : AcceptOp n → AcceptLoop n → Prop where
  | loop {op : AcceptOp n} {acceptor : AcceptPc} (hold : s.acceptor.fd = none) (hnew : acceptor.fd = none) :
      Effect s op { s with acceptor }
  | accept {fd : Nat} (hpc : s.acceptor = .accepting) (hfd : fd ∉ s.openFds) :
      Effect s (.accept fd) { s with acceptor := .accepted fd, openFds := fd :: s.openFds }
  | reject {fd : Nat} (hpc : s.acceptor = .accepted fd) (hfull : s.maxConnections ≤ s.activeConnections) :
      Effect s .check { s with acceptor := .testing, openFds := s.openFds.erase fd }
  | keep {fd : Nat} (hpc : s.acceptor = .accepted fd) (hroom : s.activeConnections < s.maxConnections) :
      Effect s .check { s with acceptor := .admitted fd }
  | count {fd : Nat} (hpc : s.acceptor = .admitted fd) :
      Effect s .count { s with acceptor := .counted fd, activeConnections := s.activeConnections + 1 }
  | submit {fd : Nat} {pool : ThreadPool n Nat} (hpc : s.acceptor = .counted fd)
      (hpool : s.pool.step (.submit fd) = some pool) : Effect s .submit { s with pool, acceptor := .testing }
  | serve {i : Fin n} {fd : Nat} {pool : ThreadPool n Nat} (hpool : s.pool.step (.lock i) = some pool)
      (hi : pool.workers i = .running fd) : Effect s (.pool (.lock i)) ({ s with pool }.setClient i (.serving fd))
  | lock {i : Fin n} {pool : ThreadPool n Nat} (hpool : s.pool.step (.lock i) = some pool)
      (hi : (pool.workers i).task = none) : Effect s (.pool (.lock i)) { s with pool }
  | pool {op : PoolOp n Nat} {pool : ThreadPool n Nat} (hinner : s.inner op = true)
      (hpool : s.pool.step op = some pool) : Effect s (.pool op) { s with pool }
  | handled {i : Fin n} {fd : Nat} (hpc : s.clients i = .serving fd) :
      Effect s (.handled i) ({ s with openFds := s.openFds.erase fd }.setClient i (.closed fd))
  | countDown {i : Fin n} {fd : Nat} (hpc : s.clients i = .closed fd) :
      Effect s (.countDown i) ({ s with activeConnections := s.activeConnections - 1 }.setClient i .ended)
  | finish {i : Fin n} {pool : ThreadPool n Nat} (hpc : s.clients i = .ended)
      (hpool : s.pool.step (.finish i) = some pool) : Effect s (.finish i) ({ s with pool }.setClient i .idle)
  | throwOther {i : Fin n} {fd : Nat} {pool : ThreadPool n Nat} (hpc : s.clients i = .serving fd)
      (hpool : s.pool.step (.finish i) = some pool) : Effect s (.throwOther i)
        ({ s with pool, abandoned := s.abandoned ++ [fd] }.setClient i .idle)
  | stop : Effect s .stop { s with running := false }

/-- Every step has one of these effects. -/
theorem Effect.of_step {s s' : AcceptLoop n} {op : AcceptOp n} (h : s.step op = some s') : Effect s op s' := by
  cases op with
  | test =>
      cases hpc : s.acceptor <;> simp only [step, hpc] at h <;> try contradiction
      refine Option.some.inj h ▸ .loop (by simp [hpc, AcceptPc.fd]) ?_
      split_ifs <;> rfl
  | accept fd =>
      cases hpc : s.acceptor <;> simp only [step, hpc] at h <;> try contradiction
      split_ifs at h with hfd
      exact Option.some.inj h ▸ .accept hpc hfd
  | acceptFailed =>
      cases hpc : s.acceptor <;> simp only [step, hpc] at h <;> try contradiction
      refine Option.some.inj h ▸ .loop (by simp [hpc, AcceptPc.fd]) ?_
      split_ifs <;> rfl
  | check =>
      cases hpc : s.acceptor <;> simp only [step, hpc] at h <;> try contradiction
      split_ifs at h with hfull
      · exact Option.some.inj h ▸ .reject hpc hfull
      · exact Option.some.inj h ▸ .keep hpc (Nat.lt_of_not_le hfull)
  | count =>
      cases hpc : s.acceptor <;> simp only [step, hpc] at h <;> try contradiction
      exact Option.some.inj h ▸ .count hpc
  | submit =>
      cases hpc : s.acceptor <;> simp only [step, hpc] at h <;> try contradiction
      obtain ⟨pool, hpool, rfl⟩ := Option.map_eq_some_iff.mp h
      exact .submit hpc hpool
  | pool op =>
      cases op with
      | lock i =>
          obtain ⟨pool, hpool, rfl⟩ := Option.map_eq_some_iff.mp h
          cases hi : pool.workers i with
          | running fd => simpa [hi] using Effect.serve hpool hi
          | locking | waiting | exited => simpa [hi] using Effect.lock hpool (by simp [hi, WorkerPc.task])
      | submit _ | notifyOne _ | wake _ | finish _ | shutdown | notifyAll | join =>
          simp only [step] at h
          split_ifs at h with hinner
          obtain ⟨pool, hpool, rfl⟩ := Option.map_eq_some_iff.mp h
          exact .pool hinner hpool
  | handled i =>
      cases hpc : s.clients i <;> simp only [step, hpc] at h <;> try contradiction
      exact Option.some.inj h ▸ .handled hpc
  | countDown i =>
      cases hpc : s.clients i <;> simp only [step, hpc] at h <;> try contradiction
      exact Option.some.inj h ▸ .countDown hpc
  | finish i =>
      cases hpc : s.clients i <;> simp only [step, hpc] at h <;> try contradiction
      obtain ⟨pool, hpool, rfl⟩ := Option.map_eq_some_iff.mp h
      exact .finish hpc hpool
  | throwOther i =>
      cases hpc : s.clients i <;> simp only [step, hpc] at h <;> try contradiction
      obtain ⟨pool, hpool, rfl⟩ := Option.map_eq_some_iff.mp h
      exact .throwOther hpc hpool
  | stop => exact Option.some.inj h ▸ .stop

end AcceptLoop

end KvStorageEngine.Server
