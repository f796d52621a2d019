import KvStorageEngine.Distributed.PeerSockets
import KvStorageEngine.Lib.Held
import KvStorageEngine.Lib.Run
import Mathlib.Data.Fintype.EquivFin
import Mathlib.Data.List.Nodup

/-!
# `Distributed.Correctness.SocketOwnership` — every socket of the log shipper has one owner

In any interleaving an open socket belongs to exactly one peer, or to the retry thread while it connects it
(`sockets_owned`): none is leaked by a host that is not found, a connection that is refused or a `send` that fails, none
is closed twice, and no thread sends on, reads from or closes a number that has come to be somebody else's. The mutex
carries this: a call that waits for an answer still has the peer's socket when the answer comes.

`Leader::stop` closes them all. They stay closed exactly if the retry thread, which nobody joins, was not yet past its
test of `shutdown_`; otherwise it connects to the peers of a leader that has stopped (`closed_for_good_iff`).
-/

namespace KvStorageEngine.Distributed

open Run Held

namespace PeerSockets

variable {n : Nat} {ι : Type} {s s' : PeerSockets n ι}

/-! ## A. The mutex

`peers_mutex_` is held by the retry thread over a whole round of connecting, by a call over all its sends and waits,
and by `stop` (`Inside`). -/

/-- Whether somebody is in code that holds the mutex. -/
def Inside (s : PeerSockets n ι) : PeersMutexHolder ι → Prop
  | .retry => s.retry.inside = true
  | .call i => (s.calls i).inside = true
  | .stop => s.stopper.inside = true

/-- The mutex is held by whoever is inside, so there is one of them at most. -/
def Locked (s : PeerSockets n ι) : Prop := ∀ holder, s.peersMutex = some holder ↔ s.Inside holder

theorem locked_start (foreignFds : Finset Nat) : Locked (start n ι foreignFds) := by
  intro holder
  cases holder <;> simp [start, Inside, RetryPc.inside, ShipPc.inside, StopPc.inside]

/-- Only one thread is inside. -/
theorem Locked.unique (h : Locked s) {a b : PeersMutexHolder ι} (ha : s.Inside a) (hb : s.Inside b) : a = b :=
  Option.some.inj (((h a).mpr ha).symm.trans ((h b).mpr hb))

/-- Somebody who holds the mutex or does not, and goes on so. -/
theorem Locked.congr (h : Locked s) (hmutex : s'.peersMutex = s.peersMutex)
    (hinside : ∀ holder, s'.Inside holder ↔ s.Inside holder) : Locked s' := by
  intro holder
  rw [hmutex, hinside]
  exact h holder

/-- Somebody takes the mutex. -/
theorem Locked.taken (h : Locked s) (hfree : s.peersMutex = none) {a : PeersMutexHolder ι}
    (hmutex : s'.peersMutex = some a) (hin : s'.Inside a)
    (hinside : ∀ holder, holder ≠ a → (s'.Inside holder ↔ s.Inside holder)) : Locked s' := by
  intro holder
  rw [hmutex, Option.some.injEq]
  by_cases ha : holder = a
  · subst ha
    exact iff_of_true rfl hin
  · rw [hinside holder ha, ← h holder, hfree]
    exact iff_of_false (Ne.symm ha) (by simp)

/-- Its holder gives it back. -/
theorem Locked.released (h : Locked s) {a : PeersMutexHolder ι} (hin : s.Inside a) (hmutex : s'.peersMutex = none)
    (hout : ¬ s'.Inside a) (hinside : ∀ holder, holder ≠ a → (s'.Inside holder ↔ s.Inside holder)) : Locked s' := by
  intro holder
  rw [hmutex]
  refine iff_of_false (by simp) ?_
  by_cases ha : holder = a
  · exact ha ▸ hout
  · rw [hinside holder ha]
    exact fun hold => ha (h.unique hold hin)

@[simp] theorem inside_useFd (s : PeerSockets n ι) (fd : Int) (holder : PeersMutexHolder ι) :
    (s.useFd fd).Inside holder ↔ s.Inside holder := by
  cases holder <;> simp [Inside]

@[simp] theorem inside_closeFd (s : PeerSockets n ι) (fd : Int) (holder : PeersMutexHolder ι) :
    (s.closeFd fd).Inside holder ↔ s.Inside holder := by
  cases holder <;> simp [Inside]

@[simp] theorem inside_setPeer (s : PeerSockets n ι) (p : Fin n) (peer : PeerInfo) (holder : PeersMutexHolder ι) :
    (s.setPeer p peer).Inside holder ↔ s.Inside holder := by
  cases holder <;> rfl

section Step

variable [DecidableEq ι]

/-- A call that moves. -/
theorem inside_setCall (s : PeerSockets n ι) (i : ι) (pc : ShipPc n) (holder : PeersMutexHolder ι) :
    (s.setCall i pc).Inside holder ↔ if holder = .call i then pc.inside = true else s.Inside holder := by
  cases holder with
  | retry | stop => simp [Inside, setCall]
  | call j =>
      by_cases hji : j = i
      · subst hji
        simp [Inside, setCall]
      · simp [Inside, setCall, hji]

/-- **One step of the mutex.** -/
theorem Locked.step (h : Locked s) {op : PeerSocketsOp ι} (hs : s.step op = some s') : Locked s' := by
  have hcall : ∀ {i : ι} {s : PeerSockets n ι}, Locked s → (s.calls i).inside = true → ∀ {pc : ShipPc n},
      pc.inside = true → Locked (s.setCall i pc) := by
    intro i s h hold pc hnew
    refine h.congr rfl fun holder => ?_
    rw [inside_setCall]
    split_ifs with hi
    · subst hi
      exact iff_of_true hnew hold
    · rfl
  cases Effect.of_step hs with
  | retryExits hpc _ | retryGoesOn hpc _ | tenth hpc _ | sleep hpc _ | passedOver hpc | opened hpc _ _ _
      | resolved hpc =>
      refine h.congr rfl fun holder => ?_
      cases holder <;> simp [Inside, hpc, RetryPc.inside]
  | lock hpc hfree =>
      refine h.taken hfree rfl rfl fun holder hne => ?_
      cases holder <;> simp_all [Inside]
  | notResolved hpc | connected hpc | notConnected hpc =>
      refine h.congr (by simp [setPeer]) fun holder => ?_
      cases holder <;> simp [Inside, setPeer, hpc, RetryPc.inside]
  | unlock hpc =>
      refine h.released (a := .retry) (by simp [Inside, hpc, RetryPc.inside]) rfl (by simp [Inside, RetryPc.inside])
        fun holder hne => ?_
      cases holder <;> simp_all [Inside]
  | @ship i hpc hfree =>
      refine h.taken hfree rfl (by simp [inside_setCall, ShipPc.inside]) fun holder hne => ?_
      rw [inside_setCall, if_neg hne]
      cases holder <;> rfl
  | skip hpc => exact hcall h (by rw [hpc]; rfl) rfl
  | sent hpc _ _ | recv hpc _ =>
      refine hcall (h.congr (by simp) fun holder => by simp) ?_ rfl
      rw [calls_useFd, hpc]
      rfl
  | sendFailed hpc _ =>
      refine hcall (h.congr (by simp [setPeer]) fun holder => by simp) ?_ rfl
      simp only [setPeer, calls_closeFd, calls_useFd, hpc]
      rfl
  | @finish i k hpc =>
      refine h.released (a := .call i) (by simp [Inside, hpc, ShipPc.inside]) rfl
        (by simp [inside_setCall, ShipPc.inside]) fun holder hne => ?_
      rw [inside_setCall, if_neg hne]
      cases holder <;> rfl
  | stop hpc =>
      refine h.congr rfl fun holder => ?_
      cases holder with
      | retry | call i => rfl
      | stop => exact iff_of_false (by simp [Inside, StopPc.inside]) (by simp [Inside, hpc])
  | stopLock hpc hfree =>
      refine h.taken hfree rfl rfl fun holder hne => ?_
      cases holder <;> simp_all [Inside]
  | stopPeer hpc _ =>
      refine h.congr (by simp [setPeer]) fun holder => ?_
      cases holder <;> simp [Inside, setPeer, hpc, StopPc.inside]
  | stopSkip hpc _ =>
      refine h.congr rfl fun holder => ?_
      cases holder <;> simp [Inside, hpc, StopPc.inside]
  | stopUnlock hpc =>
      refine h.released (a := .stop) (by simp [Inside, hpc, StopPc.inside]) rfl (by simp [Inside, StopPc.inside])
        fun holder hne => ?_
      cases holder <;> simp_all [Inside]
  | foreignOpen _ | foreignClose =>
      refine h.congr rfl fun holder => ?_
      cases holder <;> rfl

end Step

/-! ## B. The owners

A socket number in use is somebody's: a peer's, the retry thread's, or it belongs to the rest of the process. The
kernel hands out numbers that are free. -/

/-- The sockets of the peers. -/
def sockets (peers : Fin n → PeerInfo) : List Nat := held fun p => (peers p).fd

/-- The open sockets are those of the peers and the one that is being connected, each once, and nobody ever takes
    another descriptor for one of them. -/
structure Owned (s : PeerSockets n ι) : Prop where
  connected : ∀ p, (s.peers p).connected = true ↔ 0 ≤ (s.peers p).socketFd
  opened : List.Perm s.openFds (s.retry.sock.toList ++ sockets s.peers)
  distinct : s.openFds.Nodup
  apart : ∀ fd ∈ s.openFds, fd ∉ s.foreignFds
  misused : s.misused = []

theorem sockets_update (peers : Fin n → PeerInfo) (p : Fin n) (peer : PeerInfo) :
    sockets (Function.update peers p peer) = held (Function.update (fun q => (peers q).fd) p peer.fd) := by
  unfold sockets
  congr 1
  exact funext fun q => Function.apply_update (fun _ => PeerInfo.fd) peers p peer q

/-- In the beginning there is no socket. -/
theorem owned_start (foreignFds : Finset Nat) : Owned (start n ι foreignFds) := by
  refine ⟨fun p => ?_, ?_, List.nodup_nil, fun _ hfd => absurd hfd List.not_mem_nil, rfl⟩
  · simp [start, PeerInfo.unconnected]
  · simp [start, RetryPc.sock, sockets, held_eq_nil]

/-- A thread that moves and has no more and no less than before. -/
theorem Owned.of_eq (h : Owned s) (hpeers : s'.peers = s.peers) (hsock : s'.retry.sock = s.retry.sock)
    (hopen : s'.openFds = s.openFds) (hforeign : s'.foreignFds = s.foreignFds) (hmisused : s'.misused = s.misused) :
    Owned s' := by
  obtain ⟨hconnected, hopened, hdistinct, hapart, hmis⟩ := h
  rw [← hopen] at hdistinct
  rw [← hopen, ← hforeign] at hapart
  rw [← hopen, ← hpeers, ← hsock] at hopened
  exact ⟨hpeers ▸ hconnected, hopened, hdistinct, hapart, hmisused ▸ hmis⟩

section Owned

variable {p : Fin n} {fd : Nat}

theorem Owned.mem_openFds (h : Owned s) (hp : (s.peers p).fd = some fd) : fd ∈ s.openFds :=
  h.opened.symm.subset (List.mem_append_right _ (mem_held.mpr ⟨p, hp⟩))

/-- A system call on the socket of a peer. -/
theorem Owned.useFd (h : Owned s) (hp : (s.peers p).fd = some fd) : s.useFd fd = s :=
  if_pos ⟨Int.natCast_nonneg fd, h.mem_openFds hp⟩

/-- A `close` of an open socket hits nobody else. -/
theorem Owned.closeFd (h : Owned s) (hfd : fd ∈ s.openFds) :
    s.closeFd fd = { s with openFds := s.openFds.erase fd } := by
  have huse : s.useFd fd = s := if_pos ⟨Int.natCast_nonneg fd, hfd⟩
  unfold PeerSockets.closeFd
  rw [huse, if_pos (Int.natCast_nonneg fd), Int.toNat_natCast, Finset.erase_eq_of_notMem (h.apart fd hfd)]

theorem Owned.connected_update (h : Owned s) {peer : PeerInfo} (hpeer : peer.connected = true ↔ 0 ≤ peer.socketFd)
    (q : Fin n) : (Function.update s.peers p peer q).connected = true ↔
      0 ≤ (Function.update s.peers p peer q).socketFd := by
  by_cases hq : q = p
  · subst hq
    simpa using hpeer
  · simpa [hq] using h.connected q

/-- A peer's socket is closed and forgotten. -/
theorem Owned.closePeer (h : Owned s) (hp : (s.peers p).fd = some fd) :
    Owned ({ s with openFds := s.openFds.erase fd }.setPeer p ⟨-1, false⟩) := by
  refine ⟨h.connected_update (by simp), ?_, h.distinct.erase fd, fun _ hmem => h.apart _ (List.mem_of_mem_erase hmem),
    h.misused⟩
  have hdrop : List.Perm (sockets s.peers) (fd :: sockets (Function.update s.peers p ⟨-1, false⟩)) := by
    rw [sockets_update]
    exact held_drop hp
  have hopened := h.opened.trans ((hdrop.append_left s.retry.sock.toList).trans List.perm_middle)
  exact (hopened.erase fd).trans (by rw [List.erase_cons_head]; exact List.Perm.refl _)

/-- The retry thread closes the socket that no peer has got. -/
theorem Owned.closeSock (h : Owned s) (hsock : s.retry.sock = some fd) {retry : RetryPc n} (hnone : retry.sock = none) :
    Owned { s with retry, openFds := s.openFds.erase fd } := by
  refine ⟨h.connected, ?_, h.distinct.erase fd, fun _ hmem => h.apart _ (List.mem_of_mem_erase hmem), h.misused⟩
  have hopened := h.opened
  rw [hsock] at hopened
  simpa [hnone] using hopened.erase fd

/-- A peer without a socket is given the one that has been connected. -/
theorem Owned.handOver (h : Owned s) (hsock : s.retry.sock = some fd) {retry : RetryPc n} (hnone : retry.sock = none)
    (hp : (s.peers p).fd = none) : Owned ({ s with retry }.setPeer p ⟨fd, true⟩) := by
  refine ⟨h.connected_update (by simp), ?_, h.distinct, h.apart, h.misused⟩
  have hopened := h.opened
  rw [hsock] at hopened
  have htake : List.Perm (sockets (Function.update s.peers p ⟨fd, true⟩)) (fd :: sockets s.peers) := by
    rw [sockets_update, PeerInfo.fd_mk]
    exact held_take hp fd
  simpa [hnone, setPeer] using hopened.trans htake.symm

/-- A peer without a socket is marked so once more. -/
theorem Owned.forget (h : Owned s) (hp : (s.peers p).fd = none) : Owned (s.setPeer p ⟨-1, false⟩) := by
  refine ⟨h.connected_update (by simp), ?_, h.distinct, h.apart, h.misused⟩
  have hsame : sockets (Function.update s.peers p ⟨-1, false⟩) = sockets s.peers := by
    rw [sockets_update]
    exact held_update_self hp
  simpa [setPeer, hsame] using h.opened

end Owned

/-! ## C. The invariant

Owner and mutex together: who is inside has the peers to itself, so no other thread closes the socket it uses. -/

/-- The owners, and what the threads rely on between two of their steps. -/
structure Inv (s : PeerSockets n ι) : Prop where
  locked : Locked s
  owned : Owned s
  /-- The peer that is being connected has no socket yet. -/
  target : ∀ p, s.retry.peer = some p → (s.peers p).fd = none
  /-- The peer that is to answer still has one. -/
  awaited : ∀ i p, (s.calls i).awaited = some p → ∃ fd, (s.peers p).fd = some fd
  /-- The peers behind the one that is being closed have none. -/
  closing : ∀ left, s.stopper = .closing left → ∀ p, p ∉ left → (s.peers p).fd = none

theorem inv_start (foreignFds : Finset Nat) : Inv (start n ι foreignFds) :=
  ⟨locked_start foreignFds, owned_start foreignFds, fun _ hp => absurd hp (by simp [start, RetryPc.peer]),
    fun _ _ hp => absurd hp (by simp [start, ShipPc.awaited]), fun _ hstop => absurd hstop (by simp [start])⟩

section Alone

variable {a : PeersMutexHolder ι}

/-- While somebody else holds the mutex, the retry thread connects no peer. -/
theorem Inv.retry_out (h : Inv s) (ha : s.Inside a) (hne : a ≠ .retry) :
    s.retry.peer = none ∧ s.retry.sock = none := by
  have hout : s.retry.inside = false := by
    rw [← Bool.not_eq_true]
    exact fun hin => hne (h.locked.unique ha hin)
  cases hpc : s.retry <;> simp_all [RetryPc.inside, RetryPc.peer, RetryPc.sock]

/-- No other call waits for an answer. -/
theorem Inv.call_out (h : Inv s) (ha : s.Inside a) {i : ι} (hne : a ≠ .call i) : (s.calls i).awaited = none := by
  have hout : (s.calls i).inside = false := by
    rw [← Bool.not_eq_true]
    exact fun hin => hne (h.locked.unique ha hin)
  cases hpc : s.calls i <;> simp_all [ShipPc.inside, ShipPc.awaited]

/-- No peer is being closed. -/
theorem Inv.stop_out (h : Inv s) (ha : s.Inside a) (hne : a ≠ .stop) (left : List (Fin n)) :
    s.stopper ≠ .closing left := by
  intro hpc
  have hin : s.Inside .stop := by simp [Inside, hpc, StopPc.inside]
  exact hne (h.locked.unique ha hin)

end Alone

/-- Peers after one of them has lost its socket. -/
theorem fd_update_none {peers : Fin n → PeerInfo} {p q : Fin n} (h : (peers q).fd = none) :
    (Function.update peers p ⟨-1, false⟩ q).fd = none := by
  by_cases hq : q = p
  · subst hq
    simp [PeerInfo.fd]
  · simpa [hq] using h

variable [DecidableEq ι]

/-- Calls after one of them has moved to where it waits for nobody. -/
theorem awaited_update {calls : ι → ShipPc n} {i j : ι} {pc : ShipPc n} {p : Fin n} (hpc : pc.awaited = none)
    (h : (Function.update calls i pc j).awaited = some p) : (calls j).awaited = some p := by
  by_cases hj : j = i
  · subst hj
    rw [Function.update_self, hpc] at h
    exact absurd h (by simp)
  · rwa [Function.update_of_ne hj] at h

/-- **One step.** -/
theorem Inv.step (h : Inv s) {op : PeerSocketsOp ι} (hs : s.step op = some s') : Inv s' := by
  have hlocked := h.locked.step hs
  have ⟨_, howned, htarget, hawaited, hclosing⟩ := h
  cases Effect.of_step hs with
  | retryExits hpc _ | retryGoesOn hpc _ | tenth hpc _ | sleep hpc _ | lock hpc _ | passedOver hpc | unlock hpc =>
      exact ⟨hlocked, howned.of_eq rfl (by rw [hpc]; rfl) rfl rfl rfl, fun _ hp => absurd hp (by simp [RetryPc.peer]),
        hawaited, hclosing⟩
  | @opened p left sock hpc hpeer hown hforeign =>
      have hopened := howned.opened
      rw [hpc] at hopened
      refine ⟨hlocked, ⟨howned.connected, hopened.cons sock, List.nodup_cons.mpr ⟨hown, howned.distinct⟩, ?_,
        howned.misused⟩, ?_, hawaited, hclosing⟩
      · intro fd hfd
        rcases List.mem_cons.mp hfd with rfl | hfd
        · exact hforeign
        · exact howned.apart fd hfd
      · rintro q hq
        obtain rfl : p = q := by simpa [RetryPc.peer] using hq
        rw [howned.connected, and_self, Int.not_le] at hpeer
        exact PeerInfo.fd_eq_none.mpr hpeer
  | @resolved p left sock hpc =>
      refine ⟨hlocked, howned.of_eq rfl (by rw [hpc]; rfl) rfl rfl rfl, ?_, hawaited, hclosing⟩
      intro q hq
      exact htarget q (by rw [hpc]; exact hq)
  | @notResolved p left sock hpc =>
      have hsock : s.retry.sock = some sock := by rw [hpc]; rfl
      rw [howned.closeFd (howned.opened.symm.subset (by simp [hsock]))] at hlocked ⊢
      exact ⟨hlocked, howned.closeSock hsock rfl, fun _ hp => absurd hp (by simp [RetryPc.peer]), hawaited, hclosing⟩
  | @connected p left sock hpc =>
      have hin : s.Inside .retry := by simp [Inside, hpc, RetryPc.inside]
      have hsock : s.retry.sock = some sock := by rw [hpc]; rfl
      have hnone : (s.peers p).fd = none := htarget p (by rw [hpc]; rfl)
      refine ⟨hlocked, howned.handOver hsock rfl hnone, fun _ hp => absurd hp (by simp [setPeer, RetryPc.peer]), ?_,
        fun left hstop => absurd hstop (h.stop_out hin (by simp) left)⟩
      intro i q hq
      exact absurd hq (by simp [setPeer, h.call_out hin (i := i) (by simp)])
  | @notConnected p left sock hpc =>
      have hin : s.Inside .retry := by simp [Inside, hpc, RetryPc.inside]
      have hsock : s.retry.sock = some sock := by rw [hpc]; rfl
      have hnone : (s.peers p).fd = none := htarget p (by rw [hpc]; rfl)
      rw [howned.closeFd (howned.opened.symm.subset (by simp [hsock]))] at hlocked ⊢
      refine ⟨hlocked, (howned.closeSock hsock rfl).forget hnone,
        fun _ hp => absurd hp (by simp [setPeer, RetryPc.peer]), ?_,
        fun left hstop q hq => fd_update_none (hclosing left hstop q hq)⟩
      intro i q hq
      exact absurd hq (by simp [setPeer, h.call_out hin (i := i) (by simp)])
  | ship _ _ | skip _ | finish _ =>
      exact ⟨hlocked, howned.of_eq rfl rfl rfl rfl rfl, htarget,
        fun _ _ hq => hawaited _ _ (awaited_update rfl hq), hclosing⟩
  | @sent i p left k hpc hconn hfd =>
      obtain ⟨fd, hp⟩ := Option.ne_none_iff_exists'.mp (mt PeerInfo.fd_eq_none.mp (Int.not_lt.mpr hfd))
      rw [PeerInfo.fd_eq_some.mp hp, howned.useFd hp] at hlocked ⊢
      refine ⟨hlocked, howned.of_eq rfl rfl rfl rfl rfl, htarget, ?_, hclosing⟩
      intro j q hq
      by_cases hj : j = i
      · subst hj
        obtain rfl : p = q := by simpa [setCall, ShipPc.awaited] using hq
        exact ⟨fd, hp⟩
      · exact hawaited j q (by simpa [setCall, hj] using hq)
  | @sendFailed i p left k hpc hfd =>
      have hin : s.Inside (.call i) := by simp [Inside, hpc, ShipPc.inside]
      obtain ⟨fd, hp⟩ := Option.ne_none_iff_exists'.mp (mt PeerInfo.fd_eq_none.mp (Int.not_lt.mpr hfd))
      rw [PeerInfo.fd_eq_some.mp hp, howned.useFd hp, howned.closeFd (howned.mem_openFds hp)] at hlocked ⊢
      obtain ⟨hconnected, hopened, hdistinct, hapart, hmisused⟩ := howned.closePeer hp
      refine ⟨hlocked, ⟨hconnected, hopened, hdistinct, hapart, hmisused⟩,
        fun q hq => fd_update_none (htarget q hq), ?_,
        fun left hstop q hq => fd_update_none (hclosing left hstop q hq)⟩
      intro j q hq
      have hold : (s.calls j).awaited = some q := awaited_update rfl hq
      by_cases hj : j = i
      · subst hj
        exact absurd hold (by simp [hpc, ShipPc.awaited])
      · exact absurd hold (by simp [h.call_out hin (i := j) (by simp [Ne.symm hj])])
  | @recv i ok p left k hpc ackCount =>
      obtain ⟨fd, hp⟩ := hawaited i p (by rw [hpc]; rfl)
      rw [PeerInfo.fd_eq_some.mp hp, howned.useFd hp] at hlocked ⊢
      exact ⟨hlocked, howned.of_eq rfl rfl rfl rfl rfl, htarget,
        fun _ _ hq => hawaited _ _ (awaited_update rfl hq), hclosing⟩
  | stop _ | stopUnlock _ =>
      exact ⟨hlocked, howned.of_eq rfl rfl rfl rfl rfl, htarget, hawaited, fun _ hstop => absurd hstop (by simp)⟩
  | stopLock hpc _ =>
      refine ⟨hlocked, howned.of_eq rfl rfl rfl rfl rfl, htarget, hawaited, ?_⟩
      rintro _ ⟨rfl⟩ p hp
      exact absurd (List.mem_finRange p) hp
  | @stopPeer p left hpc hfd =>
      have hin : s.Inside .stop := by simp [Inside, hpc, StopPc.inside]
      obtain ⟨fd, hp⟩ := Option.ne_none_iff_exists'.mp (mt PeerInfo.fd_eq_none.mp (Int.not_lt.mpr hfd))
      rw [PeerInfo.fd_eq_some.mp hp, howned.closeFd (howned.mem_openFds hp)] at hlocked ⊢
      obtain ⟨hconnected, hopened, hdistinct, hapart, hmisused⟩ := howned.closePeer hp
      refine ⟨hlocked, ⟨hconnected, hopened, hdistinct, hapart, hmisused⟩,
        fun q hq => fd_update_none (htarget q hq), ?_, ?_⟩
      · intro i q hq
        exact absurd hq (by simp [setPeer, h.call_out hin (i := i) (by simp)])
      · rintro _ ⟨rfl⟩ q hq
        by_cases hqp : q = p
        · subst hqp
          simp [setPeer, PeerInfo.fd]
        · exact fd_update_none (hclosing (p :: left) hpc q (by simp [hqp, hq]))
  | @stopSkip p left hpc hfd =>
      refine ⟨hlocked, howned.of_eq rfl rfl rfl rfl rfl, htarget, hawaited, ?_⟩
      rintro _ ⟨rfl⟩ q hq
      by_cases hqp : q = p
      · subst hqp
        exact PeerInfo.fd_eq_none.mpr hfd
      · exact hclosing (p :: left) hpc q (by simp [hqp, hq])
  | foreignOpen hown =>
      refine ⟨hlocked, ⟨howned.connected, howned.opened, howned.distinct, ?_, howned.misused⟩, htarget, hawaited,
        hclosing⟩
      intro fd hfd hforeign
      rcases Finset.mem_insert.mp hforeign with rfl | hforeign
      · exact hown hfd
      · exact howned.apart fd hfd hforeign
  | foreignClose =>
      exact ⟨hlocked, ⟨howned.connected, howned.opened, howned.distinct,
        fun fd hfd hforeign => howned.apart fd hfd (Finset.mem_of_mem_erase hforeign), howned.misused⟩, htarget,
        hawaited, hclosing⟩

/-- The invariant holds in every reachable state. -/
theorem inv_of_exec {foreignFds : Finset Nat} {ops : List (PeerSocketsOp ι)}
    (h : exec PeerSockets.step (start n ι foreignFds) ops = some s) : Inv s :=
  exec_invariant (inv_start foreignFds) (fun _ _ _ h hs => h.step hs) h

/-- **Every open socket of the shipper is one peer's, or the one that is being connected.** -/
theorem sockets_owned {foreignFds : Finset Nat} {ops : List (PeerSocketsOp ι)}
    (h : exec PeerSockets.step (start n ι foreignFds) ops = some s) :
    Owned s ∧ ∀ p q fd, (s.peers p).fd = some fd → (s.peers q).fd = some fd → p = q := by
  have howned := (inv_of_exec h).owned
  refine ⟨howned, fun p q fd hp hq => ?_⟩
  have hnodup : (sockets s.peers).Nodup :=
    ((howned.opened.nodup_iff.mp howned.distinct).sublist (List.sublist_append_right _ _))
  exact eq_of_nodup_held hnodup hp hq

/-- Two peers are connected; the second one's socket fails and is closed, and another thread of the server gets its
    number while a call waits for the first one. -/
def reusedRun : List (PeerSocketsOp Nat) :=
  [.test, .count, .lock, .socket (some 3), .resolve true, .connect true, .socket (some 4), .resolve true, .connect true,
    .unlock, .ship 0, .send 0 true, .recv 0 true, .send 0 false, .finish 0, .foreignOpen 4, .ship 1, .send 1 true]

theorem sockets_owned_reusedRun : ∃ s : PeerSockets 2 Nat, exec PeerSockets.step (start 2 Nat {0}) reusedRun = some s ∧
    s.openFds = [3] ∧ 4 ∈ s.foreignFds ∧ Owned s := by
  have hrun : (exec PeerSockets.step (start 2 Nat {0}) reusedRun).map (fun s => (s.openFds, decide (4 ∈ s.foreignFds)))
      = some ([3], true) := by decide
  obtain ⟨s, hs, hfields⟩ := Option.map_eq_some_iff.mp hrun
  rw [Prod.mk.injEq, decide_eq_true_eq] at hfields
  exact ⟨s, hs, hfields.1, hfields.2, (sockets_owned hs).1⟩

/-! ## D. After `stop`

`stop` closes every socket under the mutex. What opens one afterwards is a retry thread that has passed its test of
`shutdown_` before. -/

/-- The retry thread has passed its test of `shutdown_` and has still to connect the peers. -/
def AboutToConnect (s : PeerSockets n ι) : Prop :=
  0 < n ∧ (s.retry = .locking ∨ s.retry = .counting ∧ s.retryCount % 10 = 0)

/-- No socket is open, and nobody will open one. -/
structure Quiet (s : PeerSockets n ι) : Prop where
  shutdown : s.shutdown = true
  /-- Without peers `connectToPeers` has nothing to do. -/
  retry : s.retry.inside = true → n = 0
  notConnecting : ¬ s.AboutToConnect
  peers : ∀ p, (s.peers p).fd = none
  opened : s.openFds = []

/-- `stop` has set `shutdown_`. -/
theorem shutdown_of_exec {foreignFds : Finset Nat} {ops : List (PeerSocketsOp ι)}
    (h : exec PeerSockets.step (start n ι foreignFds) ops = some s) : s.stopper ≠ .running → s.shutdown = true := by
  refine exec_invariant (I := fun s => s.stopper ≠ .running → s.shutdown = true) (by simp [start]) ?_ h
  intro s op s' hdown hs
  cases Effect.of_step hs with
  | stopLock hpc _ | stopUnlock hpc | stopSkip hpc _ => exact fun _ => hdown (by simp [hpc])
  | stopPeer hpc _ => simpa [setPeer, hpc] using hdown
  | stop _ => exact fun _ => rfl
  | notResolved _ | notConnected _ | sent _ _ _ | sendFailed _ _ | recv _ _ => simpa [setPeer, setCall] using hdown
  | retryExits _ _ | retryGoesOn _ _ | tenth _ _ | sleep _ _ | lock _ _ | passedOver _ | opened _ _ _ _ | resolved _
      | connected _ | unlock _ | ship _ _ | skip _ | finish _ | foreignOpen _ | foreignClose => exact hdown

/-- A call finds no peer connected. -/
theorem Quiet.step (hinv : Inv s) (h : Quiet s) {op : PeerSocketsOp ι} (hs : s.step op = some s') : Quiet s' := by
  obtain ⟨hshutdown, hretry, hnot, hpeers, hopened⟩ := h
  have hclosed : ∀ p, ¬ 0 ≤ (s.peers p).socketFd := fun p hfd =>
    absurd (PeerInfo.fd_eq_none.mp (hpeers p)) (Int.not_lt.mpr hfd)
  cases Effect.of_step hs with
  | retryExits hpc _ | sleep hpc _ =>
      exact ⟨hshutdown, by simp [RetryPc.inside], by simp [AboutToConnect], hpeers, hopened⟩
  | retryGoesOn hpc hup => exact absurd (hshutdown.symm.trans hup) (by simp)
  | tenth hpc hcount =>
      refine ⟨hshutdown, by simp [RetryPc.inside], ?_, hpeers, hopened⟩
      rintro ⟨hpos, -⟩
      exact hnot ⟨hpos, Or.inr ⟨hpc, hcount⟩⟩
  | lock hpc _ =>
      refine ⟨hshutdown, fun _ => ?_, by simp [AboutToConnect], hpeers, hopened⟩
      by_contra hn
      exact hnot ⟨Nat.pos_of_ne_zero hn, Or.inl hpc⟩
  | @passedOver p _ _ hpc | @opened p _ _ hpc _ _ _ | @resolved p _ _ hpc | @notResolved p _ _ hpc
      | @connected p _ _ hpc | @notConnected p _ _ hpc =>
      exact absurd (hretry (by simp [hpc, RetryPc.inside])) (Nat.pos_iff_ne_zero.mp p.pos)
  | unlock hpc => exact ⟨hshutdown, by simp [RetryPc.inside], by simp [AboutToConnect], hpeers, hopened⟩
  | ship _ _ | skip _ | finish _ | stopLock _ _ | stopSkip _ _ | stopUnlock _ | foreignOpen _ | foreignClose =>
      exact ⟨hshutdown, hretry, hnot, hpeers, hopened⟩
  | stop _ => exact ⟨rfl, hretry, hnot, hpeers, hopened⟩
  | sent hpc _ hfd | sendFailed hpc hfd | stopPeer hpc hfd => exact absurd hfd (hclosed _)
  | @recv i ok p left k hpc _ =>
      obtain ⟨fd, hp⟩ := hinv.awaited i p (by rw [hpc]; rfl)
      exact absurd hp (by simp [hpeers p])

/-- When `stop` returns, all is closed. -/
theorem closed_of_stopUnlock {t : PeerSockets n ι} (hinv : Inv t) (hs : t.step .stopUnlock = some s) :
    s.retry.inside = false ∧ (∀ p, (s.peers p).fd = none) ∧ s.openFds = [] := by
  cases Effect.of_step hs with
  | stopUnlock hpc =>
      have hin : t.Inside .stop := by simp [Inside, hpc, StopPc.inside]
      have hpeers : ∀ p, (t.peers p).fd = none := fun p => hinv.closing [] hpc p List.not_mem_nil
      refine ⟨?_, hpeers, ?_⟩
      · rw [← Bool.not_eq_true]
        exact fun hretry => absurd (hinv.locked.unique (a := .retry) hretry hin) (by simp)
      · have hopened := hinv.owned.opened
        rw [(hinv.retry_out hin (by simp)).2, sockets, held_eq_nil hpeers] at hopened
        exact hopened.eq_nil

/-- A retry thread that is about to connect opens a socket next, whatever has been closed before. -/
theorem exists_opened (hfree : s.peersMutex = none) (hpeers : ∀ p, (s.peers p).fd = none) (h : s.AboutToConnect) :
    ∃ more t, exec PeerSockets.step s more = some t ∧ t.openFds ≠ [] := by
  obtain ⟨hpos, hretry⟩ := h
  obtain ⟨sock, hsock⟩ := Infinite.exists_notMem_finset (s.openFds.toFinset ∪ s.foreignFds)
  rw [Finset.mem_union, List.mem_toFinset] at hsock
  obtain ⟨p, left, hall⟩ := List.exists_cons_of_ne_nil
    (List.ne_nil_of_length_pos (by rwa [List.length_finRange]) : List.finRange n ≠ [])
  have hpeer : ¬ ((s.peers p).connected = true ∧ 0 ≤ (s.peers p).socketFd) := fun hconn =>
    absurd (PeerInfo.fd_eq_none.mp (hpeers p)) (Int.not_lt.mpr hconn.2)
  have hconnect : ∀ t : PeerSockets n ι, t.retry = .locking → t.peersMutex = none → t.peers = s.peers →
      t.openFds = s.openFds → t.foreignFds = s.foreignFds →
      ∃ u, exec PeerSockets.step t [.lock, .socket (some sock)] = some u ∧ u.openFds ≠ [] := by
    intro t hpc hmutex hsame hown hforeign
    refine ⟨{ t with retry := .opened p sock left, peersMutex := some .retry, openFds := sock :: t.openFds }, ?_,
      List.cons_ne_nil sock t.openFds⟩
    simp only [exec_cons, exec_nil, PeerSockets.step, hpc, hmutex, hall, Option.bind_some, hsame, hown, hforeign]
    rw [if_neg hpeer, if_neg hsock]
    rfl
  rcases hretry with hpc | ⟨hpc, hcount⟩
  · obtain ⟨u, hu, hne⟩ := hconnect s hpc hfree rfl rfl rfl
    exact ⟨_, u, hu, hne⟩
  · obtain ⟨u, hu, hne⟩ := hconnect { s with retry := .locking } rfl hfree rfl rfl rfl
    refine ⟨[.count, .lock, .socket (some sock)], u, ?_, hne⟩
    rw [exec_cons, PeerSockets.step, hpc]
    simpa [hcount] using hu

/-- **After `stop` the sockets stay closed exactly if the retry thread is not about to connect.** -/
theorem closed_for_good_iff {foreignFds : Finset Nat} {ops : List (PeerSocketsOp ι)}
    (h : exec PeerSockets.step (start n ι foreignFds) (ops ++ [.stopUnlock]) = some s) :
    s.openFds = [] ∧ ((∀ more t, exec PeerSockets.step s more = some t → t.openFds = []) ↔ ¬ s.AboutToConnect) := by
  obtain ⟨t, ht, hs⟩ := exec_concat_eq_some h
  obtain ⟨hretry, hpeers, hopened⟩ := closed_of_stopUnlock (inv_of_exec ht) hs
  have hstopped : s.stopper = .stopped ∧ s.peersMutex = none := by
    cases Effect.of_step hs with
    | stopUnlock hpc => exact ⟨rfl, rfl⟩
  refine ⟨hopened, ?_, ?_⟩
  · intro hclosed habout
    obtain ⟨more, u, hu, hne⟩ := exists_opened hstopped.2 hpeers habout
    exact hne (hclosed more u hu)
  · intro hnot more u hu
    have hquiet : Quiet s := ⟨shutdown_of_exec h (by simp [hstopped.1]), by simp [hretry], hnot, hpeers, hopened⟩
    have hkept : Inv u ∧ Quiet u := exec_invariant (I := fun s => Inv s ∧ Quiet s) ⟨inv_of_exec h, hquiet⟩
      (fun _ _ _ hi hst => ⟨hi.1.step hst, hi.2.step hi.1 hst⟩) hu
    exact hkept.2.opened

/-- The leader is stopped after the retry thread has connected its peer. -/
def restingRun : List (PeerSocketsOp Nat) :=
  [.test, .count, .lock, .socket (some 3), .resolve true, .connect true, .unlock, .stop, .stopLock, .stopPeer]

/-- It is stopped while the retry thread is on its way to the mutex. -/
def overtakenRun : List (PeerSocketsOp Nat) := [.test, .count, .stop, .stopLock, .stopPeer]

theorem closed_for_good_iff_samples :
    (∃ s : PeerSockets 1 Nat, exec PeerSockets.step (start 1 Nat {0}) (restingRun ++ [.stopUnlock]) = some s ∧
      ∀ more t, exec PeerSockets.step s more = some t → t.openFds = []) ∧
    ∃ s : PeerSockets 1 Nat, exec PeerSockets.step (start 1 Nat {0}) (overtakenRun ++ [.stopUnlock]) = some s ∧
      s.openFds = [] ∧ ∃ more t, exec PeerSockets.step s more = some t ∧ t.openFds ≠ [] := by
  have hresting : (exec PeerSockets.step (start 1 Nat {0}) (restingRun ++ [.stopUnlock])).map (·.retry)
      = some .testing := by decide
  have hovertaken : (exec PeerSockets.step (start 1 Nat {0}) (overtakenRun ++ [.stopUnlock])).map (·.retry)
      = some .locking := by decide
  obtain ⟨s, hs, hretry⟩ := Option.map_eq_some_iff.mp hresting
  obtain ⟨t, ht, hlocking⟩ := Option.map_eq_some_iff.mp hovertaken
  refine ⟨⟨s, hs, (closed_for_good_iff hs).2.mpr (by simp [AboutToConnect, hretry])⟩,
    t, ht, (closed_for_good_iff ht).1, ?_⟩
  have habout : ¬ ∀ more u, exec PeerSockets.step t more = some u → u.openFds = [] :=
    fun hclosed => (closed_for_good_iff ht).2.mp hclosed ⟨Nat.one_pos, Or.inl hlocking⟩
  simpa using habout

end PeerSockets

end KvStorageEngine.Distributed
