import Mathlib.Data.Finset.Basic
import Mathlib.Data.List.FinRange
import Mathlib.Logic.Function.Basic

/-!
# `Distributed.PeerSockets` — the sockets of the log shipper

`LogShipper` (`distributed/replication/log_shipper.cpp`) keeps a descriptor and a flag for each peer. Three kinds of
threads change them under `peers_mutex_`: the detached retry thread of `Leader::start`, which calls `connectToPeers`
every tenth round; any number of `shipEntries` calls; and the thread that runs `Leader::stop` and with it
`LogShipper::stop`. The retry thread reads `shutdown_` and calls `connectToPeers` some time later, without a lock.

Descriptors are the operating system's, and other threads of the server have theirs: a number that is closed may be
given out again, to anybody. A `close`, `send` or `recv` on a number that is not an open socket of the shipper is
written down in `misused`.
-/

namespace KvStorageEngine.Distributed

/-- `PeerInfo` without the address: `socket_fd` and `connected`. -/
structure PeerInfo where
  socketFd : Int
  connected : Bool
  deriving DecidableEq, Repr

namespace PeerInfo

/-- The peer as it is configured. -/
def unconnected : PeerInfo := ⟨-1, false⟩

/-- The descriptor, if it is one. -/
def fd (peer : PeerInfo) : Option Nat := if 0 ≤ peer.socketFd then some peer.socketFd.toNat else none

@[simp] theorem fd_unconnected : unconnected.fd = none := rfl

@[simp] theorem fd_mk (fd : Nat) (connected : Bool) : PeerInfo.fd ⟨fd, connected⟩ = some fd := by
  simp [PeerInfo.fd]

theorem fd_eq_none {peer : PeerInfo} : peer.fd = none ↔ peer.socketFd < 0 := by
  simp [PeerInfo.fd]

theorem fd_eq_some {peer : PeerInfo} {fd : Nat} : peer.fd = some fd ↔ peer.socketFd = fd := by
  unfold PeerInfo.fd
  split_ifs with hfd
  · rw [Option.some.injEq]
    omega
  · exact iff_of_false (by simp) (by omega)

end PeerInfo

/-- Where the retry thread is; from `looping` to its end it is in `connectToPeers`, with the peers that are left. -/
inductive RetryPc (n : Nat) where
  | testing
  | counting
  | locking
  | looping (left : List (Fin n))
  | opened (p : Fin n) (sock : Nat) (left : List (Fin n))
  | resolved (p : Fin n) (sock : Nat) (left : List (Fin n))
  | exited
  deriving DecidableEq, Repr

namespace RetryPc

variable {n : Nat}

/-- Whether the thread holds `peers_mutex_`. -/
def inside : RetryPc n → Bool
  | .looping _ | .opened _ _ _ | .resolved _ _ _ => true
  | .testing | .counting | .locking | .exited => false

/-- The socket that no peer has yet. -/
def sock : RetryPc n → Option Nat
  | .opened _ sock _ | .resolved _ sock _ => some sock
  | .testing | .counting | .locking | .looping _ | .exited => none

/-- The peer it is for. -/
def peer : RetryPc n → Option (Fin n)
  | .opened p _ _ | .resolved p _ _ => some p
  | .testing | .counting | .locking | .looping _ | .exited => none

end RetryPc

/-- Where a call of `shipEntries` is: it goes through the peers, and waits for one's answer. -/
inductive ShipPc (n : Nat) where
  | outside
  | looping (left : List (Fin n)) (ackCount : Nat)
  | awaiting (p : Fin n) (left : List (Fin n)) (ackCount : Nat)
  | returned (ackCount : Nat)
  deriving DecidableEq, Repr

namespace ShipPc

variable {n : Nat}

def inside : ShipPc n → Bool
  | .looping _ _ | .awaiting _ _ _ => true
  | .outside | .returned _ => false

/-- The peer whose answer it waits for. -/
def awaited : ShipPc n → Option (Fin n)
  | .awaiting p _ _ => some p
  | .outside | .looping _ _ | .returned _ => none

end ShipPc

/-- Where the thread is that stops the leader; it may do so more than once. -/
inductive StopPc (n : Nat) where
  | running
  | locking
  | closing (left : List (Fin n))
  | stopped
  deriving DecidableEq, Repr

namespace StopPc

variable {n : Nat}

def inside : StopPc n → Bool
  | .closing _ => true
  | .running | .locking | .stopped => false

end StopPc

/-- Who holds `peers_mutex_`. -/
inductive PeersMutexHolder (ι : Type) where
  | retry
  | call (i : ι)
  | stop
  deriving DecidableEq, Repr

/-- A leader with `n` peers; `ι` names the calls of `shipEntries`. -/
structure PeerSockets (n : Nat) (ι : Type) where
  /-- `Leader::shutdown_`. -/
  shutdown : Bool
  retryCount : Nat
  retry : RetryPc n
  calls : ι → ShipPc n
  stopper : StopPc n
  peersMutex : Option (PeersMutexHolder ι)
  peers : Fin n → PeerInfo
  /-- The open sockets that the shipper has created. -/
  openFds : List Nat
  /-- The other open descriptors of the process. -/
  foreignFds : Finset Nat
  /-- History: the numbers that were used or closed while they were no open socket of the shipper. -/
  misused : List Int

/-- A step of the retry thread, of a call, of the stopping thread or of the rest of the process. -/
inductive PeerSocketsOp (ι : Type) where
  | test
  | count
  | lock
  | socket (sock : Option Nat)
  | resolve (ok : Bool)
  | connect (ok : Bool)
  | unlock
  | ship (i : ι)
  | send (i : ι) (ok : Bool)
  | recv (i : ι) (ok : Bool)
  | finish (i : ι)
  | stop
  | stopLock
  | stopPeer
  | stopUnlock
  | foreignOpen (fd : Nat)
  | foreignClose (fd : Nat)
  deriving DecidableEq, Repr

namespace PeerSockets

variable {n : Nat} {ι : Type}

/-- `Leader::start`; `foreignFds` are the descriptors that are open by then. -/
def start (n : Nat) (ι : Type) (foreignFds : Finset Nat) : PeerSockets n ι where
  shutdown := false
  retryCount := 0
  retry := .testing
  calls := fun _ => .outside
  stopper := .running
  peersMutex := none
  peers := fun _ => .unconnected
  openFds := []
  foreignFds := foreignFds
  misused := []

def setCall [DecidableEq ι] (s : PeerSockets n ι) (i : ι) (pc : ShipPc n) : PeerSockets n ι :=
  { s with calls := Function.update s.calls i pc }

def setPeer (s : PeerSockets n ι) (p : Fin n) (peer : PeerInfo) : PeerSockets n ι :=
  { s with peers := Function.update s.peers p peer }

/-- A system call on a descriptor. -/
def useFd (s : PeerSockets n ι) (fd : Int) : PeerSockets n ι :=
  if 0 ≤ fd ∧ fd.toNat ∈ s.openFds then s else { s with misused := s.misused ++ [fd] }

/-- `close` hits whoever has the number. -/
def closeFd (s : PeerSockets n ι) (fd : Int) : PeerSockets n ι :=
  let s := s.useFd fd
  if 0 ≤ fd then { s with openFds := s.openFds.erase fd.toNat, foreignFds := s.foreignFds.erase fd.toNat } else s

section Fields

variable (s : PeerSockets n ι) (fd : Int)

@[simp] theorem retry_useFd : (s.useFd fd).retry = s.retry := by unfold useFd; split_ifs <;> rfl

@[simp] theorem calls_useFd : (s.useFd fd).calls = s.calls := by unfold useFd; split_ifs <;> rfl

@[simp] theorem stopper_useFd : (s.useFd fd).stopper = s.stopper := by unfold useFd; split_ifs <;> rfl

@[simp] theorem peersMutex_useFd : (s.useFd fd).peersMutex = s.peersMutex := by unfold useFd; split_ifs <;> rfl

@[simp] theorem retry_closeFd : (s.closeFd fd).retry = s.retry := by unfold closeFd; split_ifs <;> simp

@[simp] theorem calls_closeFd : (s.closeFd fd).calls = s.calls := by unfold closeFd; split_ifs <;> simp

@[simp] theorem stopper_closeFd : (s.closeFd fd).stopper = s.stopper := by unfold closeFd; split_ifs <;> simp

@[simp] theorem peersMutex_closeFd : (s.closeFd fd).peersMutex = s.peersMutex := by
  unfold closeFd; split_ifs <;> simp

@[simp] theorem shutdown_useFd : (s.useFd fd).shutdown = s.shutdown := by unfold useFd; split_ifs <;> rfl

@[simp] theorem shutdown_closeFd : (s.closeFd fd).shutdown = s.shutdown := by unfold closeFd; split_ifs <;> simp

end Fields

variable [DecidableEq ι]

/-- One step, `none` where the thread is not at that point or would wait. -/
def step (s : PeerSockets n ι) : PeerSocketsOp ι → Option (PeerSockets n ι)
  | .test =>
    match s.retry with
    | .testing => some { s with retry := if s.shutdown then .exited else .counting }
    | _ => none
  | .count =>
    match s.retry with
    | .counting =>
      if s.retryCount % 10 = 0 then some { s with retry := .locking }
      else some { s with retry := .testing, retryCount := s.retryCount + 1 }
    | _ => none
  | .lock =>
    match s.retry, s.peersMutex with
    | .locking, none => some { s with retry := .looping (List.finRange n), peersMutex := some .retry }
    | _, _ => none
  | .socket sock =>
    match s.retry with
    | .looping (p :: left) =>
      if (s.peers p).connected ∧ 0 ≤ (s.peers p).socketFd then some { s with retry := .looping left }
      else match sock with
        | none => some { s with retry := .looping left }
        | some sock =>
          if sock ∈ s.openFds ∨ sock ∈ s.foreignFds then none
          else some { s with retry := .opened p sock left, openFds := sock :: s.openFds }
    | _ => none
  | .resolve ok =>
    match s.retry with
    -- where the host is not found, the peer stays as it is
    | .opened p sock left =>
      if ok then some { s with retry := .resolved p sock left }
      else some { s.closeFd sock with retry := .looping left }
    | _ => none
  | .connect ok =>
    match s.retry with
    | .resolved p sock left =>
      if ok then some ({ s with retry := .looping left }.setPeer p ⟨sock, true⟩)
      else some ({ s.closeFd sock with retry := .looping left }.setPeer p ⟨-1, false⟩)
    | _ => none
  | .unlock =>
    match s.retry with
    | .looping [] => some { s with retry := .testing, retryCount := s.retryCount + 1, peersMutex := none }
    | _ => none
  | .ship i =>
    match s.calls i, s.peersMutex with
    | .outside, none => some ({ s with peersMutex := some (.call i) }.setCall i (.looping (List.finRange n) 0))
    | _, _ => none
  | .send i ok =>
    match s.calls i with
    | .looping (p :: left) ackCount =>
      let peer := s.peers p
      if !peer.connected ∨ peer.socketFd < 0 then some (s.setCall i (.looping left ackCount))
      else if ok then some ((s.useFd peer.socketFd).setCall i (.awaiting p left ackCount))
      else some ((((s.useFd peer.socketFd).closeFd peer.socketFd).setPeer p ⟨-1, false⟩).setCall i
        (.looping left ackCount))
    | _ => none
  | .recv i ok =>
    match s.calls i with
    -- an answer that begins with `+OK`, or anything else
    | .awaiting p left ackCount =>
      some ((s.useFd (s.peers p).socketFd).setCall i (.looping left (if ok then ackCount + 1 else ackCount)))
    | _ => none
  | .finish i =>
    match s.calls i with
    | .looping [] ackCount => some ({ s with peersMutex := none }.setCall i (.returned ackCount))
    | _ => none
  | .stop =>
    match s.stopper with
    | .running | .stopped => some { s with shutdown := true, stopper := .locking }
    | _ => none
  | .stopLock =>
    match s.stopper, s.peersMutex with
    | .locking, none => some { s with stopper := .closing (List.finRange n), peersMutex := some .stop }
    | _, _ => none
  | .stopPeer =>
    match s.stopper with
    | .closing (p :: left) =>
      if 0 ≤ (s.peers p).socketFd then
        some ({ s.closeFd (s.peers p).socketFd with stopper := .closing left }.setPeer p ⟨-1, false⟩)
      else some { s with stopper := .closing left }
    | _ => none
  | .stopUnlock =>
    match s.stopper with
    | .closing [] => some { s with stopper := .stopped, peersMutex := none }
    | _ => none
  | .foreignOpen fd =>
    if fd ∈ s.openFds ∨ fd ∈ s.foreignFds then none
    else some { s with foreignFds := insert fd s.foreignFds }
  | .foreignClose fd =>
    if fd ∈ s.foreignFds then some { s with foreignFds := s.foreignFds.erase fd } else none

/-! ## What a step does -/

/-- The effects of the steps, one constructor for each thing that can happen. -/
inductive Effect (s : PeerSockets n ι) : PeerSocketsOp ι → PeerSockets n ι → Prop where
  | retryExits (hpc : s.retry = .testing) (hdown : s.shutdown = true) : Effect s .test { s with retry := .exited }
  | retryGoesOn (hpc : s.retry = .testing) (hdown : s.shutdown = false) : Effect s .test { s with retry := .counting }
  | tenth (hpc : s.retry = .counting) (hcount : s.retryCount % 10 = 0) : Effect s .count { s with retry := .locking }
  | sleep (hpc : s.retry = .counting) (hcount : s.retryCount % 10 ≠ 0) :
      Effect s .count { s with retry := .testing, retryCount := s.retryCount + 1 }
  | lock (hpc : s.retry = .locking) (hfree : s.peersMutex = none) :
      Effect s .lock { s with retry := .looping (List.finRange n), peersMutex := some .retry }
  | passedOver {p : Fin n} {left : List (Fin n)} {sock : Option Nat} (hpc : s.retry = .looping (p :: left)) :
      Effect s (.socket sock) { s with retry := .looping left }
  | opened {p : Fin n} {left : List (Fin n)} {sock : Nat} (hpc : s.retry = .looping (p :: left))
      (hpeer : ¬ ((s.peers p).connected ∧ 0 ≤ (s.peers p).socketFd)) (hown : sock ∉ s.openFds)
      (hforeign : sock ∉ s.foreignFds) :
      Effect s (.socket (some sock)) { s with retry := .opened p sock left, openFds := sock :: s.openFds }
  | resolved {p : Fin n} {left : List (Fin n)} {sock : Nat} (hpc : s.retry = .opened p sock left) :
      Effect s (.resolve true) { s with retry := .resolved p sock left }
  | notResolved {p : Fin n} {left : List (Fin n)} {sock : Nat} (hpc : s.retry = .opened p sock left) :
      Effect s (.resolve false) { s.closeFd sock with retry := .looping left }
  | connected {p : Fin n} {left : List (Fin n)} {sock : Nat} (hpc : s.retry = .resolved p sock left) :
      Effect s (.connect true) ({ s with retry := .looping left }.setPeer p ⟨sock, true⟩)
  | notConnected {p : Fin n} {left : List (Fin n)} {sock : Nat} (hpc : s.retry = .resolved p sock left) :
      Effect s (.connect false) ({ s.closeFd sock with retry := .looping left }.setPeer p ⟨-1, false⟩)
  | unlock (hpc : s.retry = .looping []) :
      Effect s .unlock { s with retry := .testing, retryCount := s.retryCount + 1, peersMutex := none }
  | ship {i : ι} (hpc : s.calls i = .outside) (hfree : s.peersMutex = none) :
      Effect s (.ship i) ({ s with peersMutex := some (.call i) }.setCall i (.looping (List.finRange n) 0))
  | skip {i : ι} {ok : Bool} {p : Fin n} {left : List (Fin n)} {k : Nat} (hpc : s.calls i = .looping (p :: left) k) :
      Effect s (.send i ok) (s.setCall i (.looping left k))
  | sent {i : ι} {p : Fin n} {left : List (Fin n)} {k : Nat} (hpc : s.calls i = .looping (p :: left) k)
      (hconn : (s.peers p).connected = true) (hfd : 0 ≤ (s.peers p).socketFd) :
      Effect s (.send i true) ((s.useFd (s.peers p).socketFd).setCall i (.awaiting p left k))
  | sendFailed {i : ι} {p : Fin n} {left : List (Fin n)} {k : Nat} (hpc : s.calls i = .looping (p :: left) k)
      (hfd : 0 ≤ (s.peers p).socketFd) :
      Effect s (.send i false) ((((s.useFd (s.peers p).socketFd).closeFd (s.peers p).socketFd).setPeer p
        ⟨-1, false⟩).setCall i (.looping left k))
  | recv {i : ι} {ok : Bool} {p : Fin n} {left : List (Fin n)} {k : Nat} (hpc : s.calls i = .awaiting p left k)
      (ackCount : Nat) :
      Effect s (.recv i ok) ((s.useFd (s.peers p).socketFd).setCall i (.looping left ackCount))
  | finish {i : ι} {k : Nat} (hpc : s.calls i = .looping [] k) :
      Effect s (.finish i) ({ s with peersMutex := none }.setCall i (.returned k))
  | stop (hpc : s.stopper.inside = false) : Effect s .stop { s with shutdown := true, stopper := .locking }
  | stopLock (hpc : s.stopper = .locking) (hfree : s.peersMutex = none) :
      Effect s .stopLock { s with stopper := .closing (List.finRange n), peersMutex := some .stop }
  | stopPeer {p : Fin n} {left : List (Fin n)} (hpc : s.stopper = .closing (p :: left))
      (hfd : 0 ≤ (s.peers p).socketFd) :
      Effect s .stopPeer ({ s.closeFd (s.peers p).socketFd with stopper := .closing left }.setPeer p ⟨-1, false⟩)
  | stopSkip {p : Fin n} {left : List (Fin n)} (hpc : s.stopper = .closing (p :: left))
      (hfd : (s.peers p).socketFd < 0) : Effect s .stopPeer { s with stopper := .closing left }
  | stopUnlock (hpc : s.stopper = .closing []) :
      Effect s .stopUnlock { s with stopper := .stopped, peersMutex := none }
  | foreignOpen {fd : Nat} (hown : fd ∉ s.openFds) :
      Effect s (.foreignOpen fd) { s with foreignFds := insert fd s.foreignFds }
  | foreignClose {fd : Nat} : Effect s (.foreignClose fd) { s with foreignFds := s.foreignFds.erase fd }

/-- Every step has one of these effects. -/
theorem Effect.of_step {s s' : PeerSockets n ι} {op : PeerSocketsOp ι} (h : s.step op = some s') : Effect s op s' := by
  cases op with
  | test =>
      cases hpc : s.retry <;> simp only [step, hpc] at h <;> try contradiction
      by_cases hdown : s.shutdown = true
      · rw [if_pos hdown] at h
        exact Option.some.inj h ▸ .retryExits hpc hdown
      · rw [if_neg hdown] at h
        exact Option.some.inj h ▸ .retryGoesOn hpc (Bool.not_eq_true _ ▸ hdown)
  | count =>
      cases hpc : s.retry <;> simp only [step, hpc] at h <;> try contradiction
      split_ifs at h with hcount
      · exact Option.some.inj h ▸ .tenth hpc hcount
      · exact Option.some.inj h ▸ .sleep hpc hcount
  | lock =>
      cases hpc : s.retry <;> cases hfree : s.peersMutex <;> simp only [step, hpc, hfree] at h <;> try contradiction
      exact Option.some.inj h ▸ .lock hpc hfree
  | socket sock =>
      simp only [step] at h
      split at h <;> try contradiction
      next p left hpc =>
        split_ifs at h with hpeer
        · exact Option.some.inj h ▸ .passedOver hpc
        · cases sock with
          | none => exact Option.some.inj h ▸ .passedOver hpc
          | some sock =>
              dsimp only at h
              split_ifs at h with htaken
              rw [not_or] at htaken
              exact Option.some.inj h ▸ .opened hpc hpeer htaken.1 htaken.2
  | resolve ok =>
      cases hpc : s.retry <;> simp only [step, hpc] at h <;> try contradiction
      cases ok
      · exact Option.some.inj h ▸ .notResolved hpc
      · exact Option.some.inj h ▸ .resolved hpc
  | connect ok =>
      cases hpc : s.retry <;> simp only [step, hpc] at h <;> try contradiction
      cases ok
      · exact Option.some.inj h ▸ .notConnected hpc
      · exact Option.some.inj h ▸ .connected hpc
  | unlock =>
      simp only [step] at h
      split at h <;> try contradiction
      next hpc => exact Option.some.inj h ▸ .unlock hpc
  | ship i =>
      cases hpc : s.calls i <;> cases hfree : s.peersMutex <;> simp only [step, hpc, hfree] at h <;> try contradiction
      exact Option.some.inj h ▸ .ship hpc hfree
  | send i ok =>
      simp only [step] at h
      split at h <;> try contradiction
      next p left k hpc =>
        split_ifs at h with hskip hok
        · exact Option.some.inj h ▸ .skip hpc
        · rw [not_or, Bool.not_eq_true, Bool.not_eq_false', Int.not_lt] at hskip
          subst hok
          exact Option.some.inj h ▸ .sent hpc hskip.1 hskip.2
        · rw [not_or, Int.not_lt] at hskip
          rw [Bool.not_eq_true] at hok
          subst hok
          exact Option.some.inj h ▸ .sendFailed hpc hskip.2
  | recv i ok =>
      cases hpc : s.calls i <;> simp only [step, hpc] at h <;> try contradiction
      exact Option.some.inj h ▸ .recv hpc _
  | finish i =>
      simp only [step] at h
      split at h <;> try contradiction
      next k hpc => exact Option.some.inj h ▸ .finish hpc
  | stop =>
      simp only [step] at h
      split at h <;> try contradiction
      next hpc => exact Option.some.inj h ▸ .stop (by rw [hpc]; rfl)
      next hpc => exact Option.some.inj h ▸ .stop (by rw [hpc]; rfl)
  | stopLock =>
      cases hpc : s.stopper <;> cases hfree : s.peersMutex <;> simp only [step, hpc, hfree] at h <;> try contradiction
      exact Option.some.inj h ▸ .stopLock hpc hfree
  | stopPeer =>
      simp only [step] at h
      split at h <;> try contradiction
      next p left hpc =>
        split_ifs at h with hfd
        · exact Option.some.inj h ▸ .stopPeer hpc hfd
        · exact Option.some.inj h ▸ .stopSkip hpc (Int.not_le.mp hfd)
  | stopUnlock =>
      simp only [step] at h
      split at h <;> try contradiction
      next hpc => exact Option.some.inj h ▸ .stopUnlock hpc
  | foreignOpen fd =>
      simp only [step] at h
      split_ifs at h with htaken
      rw [not_or] at htaken
      exact Option.some.inj h ▸ .foreignOpen htaken.1
  | foreignClose fd =>
      simp only [step] at h
      split_ifs at h
      exact Option.some.inj h ▸ .foreignClose

end PeerSockets

end KvStorageEngine.Distributed
