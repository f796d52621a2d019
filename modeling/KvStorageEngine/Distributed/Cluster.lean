import KvStorageEngine.Distributed.Replica
import KvStorageEngine.Lib.Run
import Mathlib.Data.List.FinRange
import Mathlib.Logic.Function.Basic

/-!
# `Distributed.Cluster` — one leader, its replicate calls, the network and the followers

`Leader::replicate` is cut where the code gives up a lock or takes one: append under the lock, set
`commit_index_` under the lock, read it back into the message, read `log_.back()` into the message, hand the
message to `LogShipper::shipEntries`, which holds `peers_mutex_` while it goes through the peers. Any number
of calls run at once, each at its own place.

A peer keeps every message that was written to its socket, and `deliver` hands any of them to the follower at
any time and any number of times: messages may be lost, repeated and overtaken. The leader reads answers off
its socket by number only, since every answer is the same `+OK`.
-/

namespace KvStorageEngine.Distributed

open NumberedLog

/-- Where a call of `Leader::replicate` is. From `shipping` to its return it holds `peers_mutex_`; `left` are
    the peers that `shipEntries` has still to go through. -/
inductive ReplicatePc (n : Nat) where
  | appended
  | committed
  | stamped (term leaderCommit : Nat)
  | built (msg : ReplicationMessage)
  | shipping (msg : ReplicationMessage) (left : List (Fin n)) (ackCount : Nat)
  | awaiting (msg : ReplicationMessage) (peer : Fin n) (left : List (Fin n)) (ackCount : Nat)
  | returned (ok : Bool)
  deriving DecidableEq

/-- A call of `replicate`; `own` is the entry it appended. -/
structure ReplicateCall (n : Nat) where
  own : LogEntry
  pc : ReplicatePc n
  deriving DecidableEq

/-- A follower and the connection to it. -/
structure Peer where
  connected : Bool
  /-- Every message written to one of the peer's sockets. -/
  sent : List ReplicationMessage
  /-- The answers that wait to be read on the leader's socket. -/
  acks : Nat
  follower : Follower

/-- The leader's process and its `n` configured peers. -/
structure Cluster (n : Nat) where
  leader : Leader
  calls : Nat → Option (ReplicateCall n)
  /-- Whether some call holds `peers_mutex_`. -/
  peersMutex : Bool
  peers : Fin n → Peer
  /-- History: the messages that were handed to `shipEntries`. -/
  shipped : List ReplicationMessage

/-- A step of a `replicate` call, of the connection thread, of an apply loop or of the network. -/
inductive ClusterOp (n : Nat) where
  | append (t : Nat) (entry : LogEntry)
  | commit (t : Nat)
  | stamp (t : Nat)
  | build (t : Nat)
  | ship (t : Nat)
  | send (t : Nat) (ok : Bool)
  | recv (t : Nat) (answers : Nat)
  | finish (t : Nat)
  | connect (p : Fin n)
  | leaderApply
  | leaderCall (memory : LogEntry)
  | leaderApplied
  | deliver (p : Fin n) (i : Nat) (answered : Bool)
  | followerApply (p : Fin n)
  | followerCall (p : Fin n) (memory : LogEntry)
  | followerApplied (p : Fin n)
  deriving DecidableEq

/-- A step within a life of the leader, or the end of one. -/
inductive LivesOp (n : Nat) where
  | act (op : ClusterOp n)
  | restart

namespace Cluster

variable {n : Nat}

/-- The leader has just been started; nobody is connected. -/
def init (n : Nat) : Cluster n := ⟨Replica.new, fun _ => none, false, fun _ => ⟨false, [], 0, Replica.new⟩, []⟩

/-- The replicas of the cluster: the leader, and its followers. -/
def replica (c : Cluster n) : Option (Fin n) → Replica
  | none => c.leader
  | some p => (c.peers p).follower

/-- The only peer of a leader that has one. -/
def onlyPeer : Fin 1 := Fin.last 0

def setPc (c : Cluster n) (t : Nat) (own : LogEntry) (pc : ReplicatePc n) : Cluster n :=
  { c with calls := Function.update c.calls t (some ⟨own, pc⟩) }

def setPeer (c : Cluster n) (p : Fin n) (peer : Peer) : Cluster n :=
  { c with peers := Function.update c.peers p peer }

def setFollower (c : Cluster n) (p : Fin n) (f : Follower) : Cluster n :=
  c.setPeer p { c.peers p with follower := f }

/-- `LogShipper::sendToPeer` up to the answer: a peer that is not connected is passed over, and a failed
    `send` closes the connection. -/
def sendToPeer (c : Cluster n) (t : Nat) (own : LogEntry) (msg : ReplicationMessage) (p : Fin n)
    (left : List (Fin n)) (ackCount : Nat) (ok : Bool) : Cluster n :=
  let peer := c.peers p
  if peer.connected then
    if ok then
      (c.setPeer p { peer with sent := peer.sent ++ [msg] }).setPc t own (.awaiting msg p left ackCount)
    else (c.setPeer p { peer with connected := false, acks := 0 }).setPc t own (.shipping msg left ackCount)
  else c.setPc t own (.shipping msg left ackCount)

/-- The effect of a step, `none` where it is not enabled. -/
def step (c : Cluster n) : ClusterOp n → Option (Cluster n)
  | .append t entry =>
    -- the index and the term are given under the lock
    match c.calls t with
    | none => some ({ c with leader := c.leader.appendLog entry }.setPc t (c.leader.indexed entry) .appended)
    | some _ => none
  | .commit t =>
    match c.calls t with
    -- whatever entry is the last one by now, the call's own or a later one
    | some ⟨own, .appended⟩ =>
      c.leader.commitLast.map fun leader => { c with leader := leader }.setPc t own .committed
    | _ => none
  | .stamp t =>
    match c.calls t with
    | some ⟨own, .committed⟩ => some (c.setPc t own (.stamped c.leader.currentTerm c.leader.commitIndex))
    | _ => none
  | .build t =>
    match c.calls t with
    -- `log_.back()` is read once more, without the lock
    | some ⟨own, .stamped term leaderCommit⟩ =>
      c.leader.log.getLast?.map fun last => c.setPc t own (.built ⟨term, leaderCommit, [last]⟩)
    | _ => none
  | .ship t =>
    match c.calls t with
    -- waits for `peers_mutex_`
    | some ⟨own, .built msg⟩ =>
      if c.peersMutex then none
      else some ({ c with peersMutex := true, shipped := c.shipped ++ [msg] }.setPc t own
        (.shipping msg (List.finRange n) 0))
    | _ => none
  | .send t ok =>
    match c.calls t with
    | some ⟨own, .shipping msg (p :: left) ackCount⟩ => some (c.sendToPeer t own msg p left ackCount ok)
    | _ => none
  | .recv t answers =>
    match c.calls t with
    | some ⟨own, .awaiting msg p left ackCount⟩ =>
      -- no answer within the timeout, or one or more at once
      if answers = 0 then some (c.setPc t own (.shipping msg left ackCount))
      else if answers ≤ (c.peers p).acks then
        some ((c.setPeer p { c.peers p with acks := (c.peers p).acks - answers }).setPc t own
          (.shipping msg left (ackCount + 1)))
      else none
    | _ => none
  | .finish t =>
    match c.calls t with
    -- `ack_count > 0 || config_.peers.empty()`
    | some ⟨own, .shipping _ [] ackCount⟩ =>
      some ({ c with peersMutex := false }.setPc t own (.returned (0 < ackCount ∨ n = 0)))
    | _ => none
  | .connect p =>
    -- `connectToPeers` passes over a peer that is connected; a new socket has no answers waiting
    if c.peersMutex ∨ (c.peers p).connected then none
    else some (c.setPeer p { c.peers p with connected := true, acks := 0 })
  | .leaderApply => c.leader.beginApply.map fun leader => { c with leader := leader }
  | .leaderCall memory => (c.leader.callApply memory).map fun leader => { c with leader := leader }
  | .leaderApplied => c.leader.endApply.map fun leader => { c with leader := leader }
  | .deliver p i answered =>
    match (c.peers p).sent[i]? with
    -- `handleConnection` takes the message in and answers `+OK`, which may or may not arrive
    | some msg =>
      some (c.setPeer p { c.peers p with
        acks := if answered then (c.peers p).acks + 1 else (c.peers p).acks
        follower := (c.peers p).follower.handleReplication msg })
    | none => none
  | .followerApply p => (c.peers p).follower.beginApply.map (c.setFollower p)
  | .followerCall p memory => ((c.peers p).follower.callApply memory).map (c.setFollower p)
  | .followerApplied p => (c.peers p).follower.endApply.map (c.setFollower p)

/-! ## What a step does -/

/-- The effects of the steps, one constructor for each thing that can happen. -/
inductive Effect (c : Cluster n) : ClusterOp n → Cluster n → Prop where
  | append {t : Nat} (entry : LogEntry) (hpc : c.calls t = none) :
      Effect c (.append t entry)
        ({ c with leader := c.leader.appendLog entry }.setPc t (c.leader.indexed entry) .appended)
  | commit {t : Nat} {own last : LogEntry} (hpc : c.calls t = some ⟨own, .appended⟩)
      (hlast : c.leader.log.getLast? = some last) :
      Effect c (.commit t)
        ({ c with leader := { c.leader with commitIndex := last.index } }.setPc t own .committed)
  | stamp {t : Nat} {own : LogEntry} (hpc : c.calls t = some ⟨own, .committed⟩) :
      Effect c (.stamp t) (c.setPc t own (.stamped c.leader.currentTerm c.leader.commitIndex))
  | build {t : Nat} {own last : LogEntry} {term leaderCommit : Nat}
      (hpc : c.calls t = some ⟨own, .stamped term leaderCommit⟩)
      (hlast : c.leader.log.getLast? = some last) :
      Effect c (.build t) (c.setPc t own (.built ⟨term, leaderCommit, [last]⟩))
  | ship {t : Nat} {own : LogEntry} {msg : ReplicationMessage} (hpc : c.calls t = some ⟨own, .built msg⟩)
      (hmutex : c.peersMutex = false) :
      Effect c (.ship t) ({ c with peersMutex := true, shipped := c.shipped ++ [msg] }.setPc t own
        (.shipping msg (List.finRange n) 0))
  | sent {t : Nat} {own : LogEntry} {msg : ReplicationMessage} {p : Fin n} {left : List (Fin n)} {k : Nat}
      (hpc : c.calls t = some ⟨own, .shipping msg (p :: left) k⟩) (hconn : (c.peers p).connected = true) :
      Effect c (.send t true)
        ((c.setPeer p { c.peers p with sent := (c.peers p).sent ++ [msg] }).setPc t own
          (.awaiting msg p left k))
  | sendFailed {t : Nat} {own : LogEntry} {msg : ReplicationMessage} {p : Fin n} {left : List (Fin n)}
      {k : Nat} (hpc : c.calls t = some ⟨own, .shipping msg (p :: left) k⟩)
      (hconn : (c.peers p).connected = true) :
      Effect c (.send t false)
        ((c.setPeer p { c.peers p with connected := false, acks := 0 }).setPc t own (.shipping msg left k))
  | passedOver {t : Nat} {ok : Bool} {own : LogEntry} {msg : ReplicationMessage} {p : Fin n}
      {left : List (Fin n)} {k : Nat} (hpc : c.calls t = some ⟨own, .shipping msg (p :: left) k⟩)
      (hconn : (c.peers p).connected = false) :
      Effect c (.send t ok) (c.setPc t own (.shipping msg left k))
  | noAnswer {t : Nat} {own : LogEntry} {msg : ReplicationMessage} {p : Fin n} {left : List (Fin n)} {k : Nat}
      (hpc : c.calls t = some ⟨own, .awaiting msg p left k⟩) :
      Effect c (.recv t 0) (c.setPc t own (.shipping msg left k))
  | answered {t answers : Nat} {own : LogEntry} {msg : ReplicationMessage} {p : Fin n} {left : List (Fin n)}
      {k : Nat} (hpc : c.calls t = some ⟨own, .awaiting msg p left k⟩) (hpos : answers ≠ 0)
      (hacks : answers ≤ (c.peers p).acks) :
      Effect c (.recv t answers)
        ((c.setPeer p { c.peers p with acks := (c.peers p).acks - answers }).setPc t own
          (.shipping msg left (k + 1)))
  | finish {t : Nat} {own : LogEntry} {msg : ReplicationMessage} {k : Nat}
      (hpc : c.calls t = some ⟨own, .shipping msg [] k⟩) :
      Effect c (.finish t) ({ c with peersMutex := false }.setPc t own (.returned (0 < k ∨ n = 0)))
  | connect {p : Fin n} (hmutex : c.peersMutex = false) (hconn : (c.peers p).connected = false) :
      Effect c (.connect p) (c.setPeer p { c.peers p with connected := true, acks := 0 })
  | leaderApply {l : Leader} (hl : c.leader.beginApply = some l) :
      Effect c .leaderApply { c with leader := l }
  | leaderCall {memory : LogEntry} {l : Leader} (hl : c.leader.callApply memory = some l) :
      Effect c (.leaderCall memory) { c with leader := l }
  | leaderApplied {l : Leader} (hl : c.leader.endApply = some l) :
      Effect c .leaderApplied { c with leader := l }
  | deliver {p : Fin n} {i : Nat} {answered : Bool} {msg : ReplicationMessage}
      (hmsg : (c.peers p).sent[i]? = some msg) :
      Effect c (.deliver p i answered) (c.setPeer p { c.peers p with
        acks := if answered then (c.peers p).acks + 1 else (c.peers p).acks
        follower := (c.peers p).follower.handleReplication msg })
  | followerApply {p : Fin n} {f : Follower} (hf : (c.peers p).follower.beginApply = some f) :
      Effect c (.followerApply p) (c.setFollower p f)
  | followerCall {p : Fin n} {memory : LogEntry} {f : Follower} (hf : (c.peers p).follower.callApply memory = some f) :
      Effect c (.followerCall p memory) (c.setFollower p f)
  | followerApplied {p : Fin n} {f : Follower} (hf : (c.peers p).follower.endApply = some f) :
      Effect c (.followerApplied p) (c.setFollower p f)

/-- Every step has one of these effects. -/
theorem Effect.of_step {c c' : Cluster n} {op : ClusterOp n} (h : c.step op = some c') : Effect c op c' := by
  cases op with
  | append t entry =>
      cases hpc : c.calls t <;> simp only [step, hpc] at h
      · exact Option.some.inj h ▸ .append entry hpc
      · contradiction
  | commit t =>
      unfold step at h; dsimp only at h; split at h <;> try contradiction
      next own hpc =>
        rw [Leader.commitLast, Option.map_map] at h
        obtain ⟨last, hlast, rfl⟩ := Option.map_eq_some_iff.mp h
        exact .commit hpc hlast
  | stamp t =>
      unfold step at h; dsimp only at h; split at h <;> try contradiction
      next own hpc => exact Option.some.inj h ▸ .stamp hpc
  | build t =>
      unfold step at h; dsimp only at h; split at h <;> try contradiction
      next own term leaderCommit hpc =>
        obtain ⟨last, hlast, rfl⟩ := Option.map_eq_some_iff.mp h
        exact .build hpc hlast
  | ship t =>
      unfold step at h; dsimp only at h; split at h <;> try contradiction
      next own msg hpc =>
        split_ifs at h with hmutex
        exact Option.some.inj h ▸ .ship hpc (by simpa using hmutex)
  | send t ok =>
      unfold step at h; dsimp only at h; split at h <;> try contradiction
      next own msg p left k hpc =>
        rw [← Option.some.inj h]
        unfold sendToPeer
        by_cases hconn : (c.peers p).connected
        · cases ok
          · simpa [hconn] using Effect.sendFailed hpc hconn
          · simpa [hconn] using Effect.sent hpc hconn
        · rw [Bool.not_eq_true] at hconn
          simpa [hconn] using Effect.passedOver hpc hconn
  | recv t answers =>
      unfold step at h; dsimp only at h; split at h <;> try contradiction
      next own msg p left k hpc =>
        split_ifs at h with hzero hacks
        · subst hzero
          exact Option.some.inj h ▸ .noAnswer hpc
        · exact Option.some.inj h ▸ .answered hpc hzero hacks
  | finish t =>
      unfold step at h; dsimp only at h; split at h <;> try contradiction
      next own msg k hpc => exact Option.some.inj h ▸ .finish hpc
  | connect p =>
      unfold step at h; dsimp only at h
      split_ifs at h with hbusy
      rw [not_or, Bool.not_eq_true, Bool.not_eq_true] at hbusy
      exact Option.some.inj h ▸ .connect hbusy.1 hbusy.2
  | leaderApply =>
      obtain ⟨l, hl, rfl⟩ := Option.map_eq_some_iff.mp h
      exact .leaderApply hl
  | leaderCall memory =>
      obtain ⟨l, hl, rfl⟩ := Option.map_eq_some_iff.mp h
      exact .leaderCall hl
  | leaderApplied =>
      obtain ⟨l, hl, rfl⟩ := Option.map_eq_some_iff.mp h
      exact .leaderApplied hl
  | deliver p i answered =>
      unfold step at h; dsimp only at h; split at h <;> try contradiction
      next msg hmsg => exact Option.some.inj h ▸ .deliver hmsg
  | followerApply p =>
      obtain ⟨f, hf, rfl⟩ := Option.map_eq_some_iff.mp h
      exact .followerApply hf
  | followerCall p memory =>
      obtain ⟨f, hf, rfl⟩ := Option.map_eq_some_iff.mp h
      exact .followerCall hf
  | followerApplied p =>
      obtain ⟨f, hf, rfl⟩ := Option.map_eq_some_iff.mp h
      exact .followerApplied hf

/-! ## The lives of a leader

`Leader` keeps its log in memory only: a leader that comes back numbers its entries from 1 again, in the same term. The
followers go on running. Their connections to the old process end, and the connection thread of the new one makes new
ones; what the old process wrote to the sockets may still arrive. -/

/-- The leader's process ends and is started again. -/
def restartLeader (c : Cluster n) : Cluster n :=
  { c with
    leader := Replica.new
    calls := fun _ => none
    peersMutex := false
    peers := fun p => { c.peers p with connected := false, acks := 0 } }

/-- The effect of a step within a life of the leader, or at the end of one; `none` where it is not enabled. -/
def livesStep (c : Cluster n) : LivesOp n → Option (Cluster n)
  | .act op => c.step op
  | .restart => some c.restartLeader

/-! ## Fields after an update -/

theorem calls_setPc_self (c : Cluster n) (t : Nat) (own : LogEntry) (pc : ReplicatePc n) :
    (c.setPc t own pc).calls t = some ⟨own, pc⟩ := Function.update_self ..

theorem calls_setPc_ne (c : Cluster n) {t u : Nat} (h : u ≠ t) (own : LogEntry) (pc : ReplicatePc n) :
    (c.setPc t own pc).calls u = c.calls u := Function.update_of_ne h ..

theorem peers_setPeer_self (c : Cluster n) (p : Fin n) (peer : Peer) : (c.setPeer p peer).peers p = peer :=
  Function.update_self ..

theorem peers_setPeer_ne (c : Cluster n) {p q : Fin n} (h : q ≠ p) (peer : Peer) :
    (c.setPeer p peer).peers q = c.peers q := Function.update_of_ne h ..

/-- What holds of every call holds after one has moved, if it holds of that one at its new place. -/
theorem forall_calls_setPc {P : Nat → ReplicateCall n → Prop} {c : Cluster n} {t : Nat} {own : LogEntry}
    {pc : ReplicatePc n} (h : ∀ u call, c.calls u = some call → P u call) (ht : P t ⟨own, pc⟩) :
    ∀ u call, (c.setPc t own pc).calls u = some call → P u call := by
  intro u call hu
  by_cases hut : u = t
  · subst hut
    rw [calls_setPc_self] at hu
    exact Option.some.inj hu ▸ ht
  · rw [calls_setPc_ne c hut] at hu
    exact h u call hu

/-- The same for the peers. -/
theorem forall_peers_setPeer {P : Peer → Prop} {c : Cluster n} {p : Fin n} {peer : Peer}
    (h : ∀ q, P (c.peers q)) (hp : P peer) : ∀ q, P ((c.setPeer p peer).peers q) := by
  intro q
  by_cases hqp : q = p
  · subst hqp
    rw [peers_setPeer_self]
    exact hp
  · rw [peers_setPeer_ne c hqp]
    exact h q

end Cluster

end KvStorageEngine.Distributed
