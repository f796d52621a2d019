import KvStorageEngine.Server.Correctness.NodeInvariant

/-!
# `Server.Correctness.CommitAfterAck` — committing before anybody has the entry

`Leader::replicate` sets `commit_index_` right after it has appended the entry, and ships the entry only
then. So the first call that gets as far as setting the commit index commits an entry that no follower has
(`commitsAfterAck_iff_noCommit`). The value `replicate` returns comes too late to matter: whatever it is, the
entry is committed (`committed_of_returned`), the apply loop applies it, and `executeCommand` goes on to store
the value and to answer `STORED` (`stored_unreplicated`).
-/

namespace KvStorageEngine.Server

open Distributed NumberedLog Run

namespace LeaderNode

variable [Platform] {n : Nat} {s s' : LeaderNode n} {c c' : Cluster n}

/-- Committed entries are on a follower, and a write that failed to replicate is neither committed nor applied
    nor acknowledged. -/
structure CommitsAfterAck (s : LeaderNode n) : Prop where
  acknowledged : ∀ e ∈ s.cluster.leader.log, e.index ≤ s.cluster.leader.commitIndex →
    ∃ p, e ∈ (s.cluster.peers p).follower.log
  failed : ∀ t own, s.cluster.calls t = some ⟨own, .returned false⟩ →
    s.cluster.leader.commitIndex < own.index ∧ own ∉ s.cluster.leader.passed ∧
      ∀ req, s.handlers t ≠ some ⟨req, .answered (Response.ok "STORED")⟩

/-! ## Before the first commit

No follower has an entry and none is on its way, so nothing is committed too early and nothing is acknowledged either.
-/

/-- No call is past its append, so nothing has been sent. -/
structure Uncommitted (c : Cluster n) : Prop where
  commit : c.leader.commitIndex = 0
  calls : ∀ t call, c.calls t = some call → call.pc = .appended
  sent : ∀ p, (c.peers p).sent = []
  logs : ∀ p, (c.peers p).follower.log = []

omit [Platform] in
theorem uncommitted_init (n : Nat) : Uncommitted (Cluster.init n) :=
  ⟨rfl, fun t call h => absurd h (by simp [Cluster.init]), fun _ => rfl, fun _ => rfl⟩

omit [Platform] in
theorem Uncommitted.setPeer (h : Uncommitted c) {p : Fin n} {peer : Peer} (hsent : peer.sent = [])
    (hlog : peer.follower.log = []) : Uncommitted (c.setPeer p peer) where
  commit := h.commit
  calls := h.calls
  sent := Cluster.forall_peers_setPeer (P := fun peer => peer.sent = []) h.sent hsent
  logs := Cluster.forall_peers_setPeer (P := fun peer => peer.follower.log = []) h.logs hlog

omit [Platform] in
theorem Uncommitted.step (h : Uncommitted c) {op : ClusterOp n} (hop : ∀ t, op ≠ .commit t)
    (hs : c.step op = some c') : Uncommitted c' := by
  have hat {t : Nat} {own : LogEntry} {pc : ReplicatePc n} (hpc : c.calls t = some ⟨own, pc⟩) :
      pc = .appended := h.calls t _ hpc
  cases Cluster.Effect.of_step hs with
  | @append t entry hpc =>
      refine ⟨h.commit, ?_, h.sent, h.logs⟩
      exact Cluster.forall_calls_setPc (P := fun _ call => call.pc = .appended) h.calls rfl
  | commit hpc hlast => exact absurd rfl (hop _)
  | stamp hpc => exact absurd (hat hpc) (by simp)
  | build hpc hlast => exact absurd (hat hpc) (by simp)
  | ship hpc hmutex => exact absurd (hat hpc) (by simp)
  | sent hpc hconn => exact absurd (hat hpc) (by simp)
  | sendFailed hpc hconn => exact absurd (hat hpc) (by simp)
  | passedOver hpc hconn => exact absurd (hat hpc) (by simp)
  | noAnswer hpc => exact absurd (hat hpc) (by simp)
  | answered hpc hpos hacks => exact absurd (hat hpc) (by simp)
  | finish hpc => exact absurd (hat hpc) (by simp)
  | @connect p hmutex hconn => exact h.setPeer (h.sent p) (h.logs p)
  | leaderApply hl =>
      obtain ⟨-, -, e, -, rfl⟩ := Replica.beginApply_eq_some.mp hl
      exact ⟨h.commit, h.calls, h.sent, h.logs⟩
  | leaderCall hl =>
      obtain ⟨i, it, -, rfl⟩ := Replica.callApply_eq_some.mp hl
      exact ⟨h.commit, h.calls, h.sent, h.logs⟩
  | leaderApplied hl =>
      obtain ⟨i, e, -, rfl⟩ := Replica.endApply_eq_some.mp hl
      exact ⟨h.commit, h.calls, h.sent, h.logs⟩
  | @deliver p i answered msg hmsg =>
      rw [h.sent p] at hmsg
      exact absurd hmsg (by simp)
  | @followerApply p f hf =>
      obtain ⟨-, -, e, -, rfl⟩ := Replica.beginApply_eq_some.mp hf
      exact h.setPeer (h.sent p) (h.logs p)
  | @followerCall p memory f hf =>
      obtain ⟨i, it, -, rfl⟩ := Replica.callApply_eq_some.mp hf
      exact h.setPeer (h.sent p) (h.logs p)
  | @followerApplied p f hf =>
      obtain ⟨i, e, -, rfl⟩ := Replica.endApply_eq_some.mp hf
      exact h.setPeer (h.sent p) (h.logs p)

/-- Not a step in which some `replicate` sets `commit_index_`. -/
def NoCommit : NodeOp n → Prop
  | .cluster (.commit _) => False
  | _ => True

theorem uncommitted_step (h : Uncommitted s.cluster) {op : NodeOp n} (hop : NoCommit op)
    (hs : s.step op = some s') : Uncommitted s'.cluster := by
  cases Effect.of_step hs with
  | replicate _ _ hc => exact h.step (by simp) hc
  | @cluster cop c _ hc =>
      refine h.step (fun t ht => ?_) hc
      subst ht
      exact hop
  | @applyBegin who c hc => exact h.step (fun t => by cases who <;> simp [LoopStep.op]) hc
  | @applyCall who memory c hc => exact h.step (fun t => by cases who <;> simp [LoopStep.op]) hc
  | @applyEnd who _ _ _ c _ _ hc => exact h.step (fun t => by cases who <;> simp [LoopStep.op]) hc
  | _ => exact h

/-- A run without a commit leaves everything uncommitted. -/
theorem uncommitted_of_exec {nodeId : Nat} {stores : Option (Fin n) → Store} {ops : List (NodeOp n)}
    (h : exec LeaderNode.step (init n nodeId stores) ops = some s)
    (hC : Meets LeaderNode.step (fun _ op => NoCommit op) (init n nodeId stores) ops) :
    Uncommitted s.cluster :=
  exec_invariant_of_meets (I := fun s : LeaderNode n => Uncommitted s.cluster) (uncommitted_init n)
    (fun _ _ _ hi hC hs => uncommitted_step hi hC hs) hC h

/-- Where nothing is committed, nothing is committed too early. -/
theorem Uncommitted.commitsAfterAck (h : Uncommitted s.cluster) (hinv : s.cluster.Inv) : s.CommitsAfterAck := by
  refine ⟨fun e he hle => ?_, fun t own ht => ?_⟩
  · have := hinv.numbered.index_pos he
    rw [h.commit] at hle
    omega
  · exact absurd (h.calls t _ ht) (by simp)

/-! ## The first commit

It commits an entry that was appended by the same call and that no follower has. -/

/-- It commits the last entry, which is on no follower. -/
theorem not_commitsAfterAck_commit (h : Uncommitted s.cluster) {t : Nat}
    (hs : s.step (.cluster (.commit t)) = some s') : ¬ s'.CommitsAfterAck := by
  cases Effect.of_step hs with
  | cluster _ hc =>
      cases Cluster.Effect.of_step hc with
      | @commit t own last hpc hlast =>
          intro hack
          obtain ⟨p, hp⟩ := hack.acknowledged last (List.mem_of_getLast? hlast) le_rfl
          have hp : last ∈ (s.cluster.peers p).follower.log := hp
          rw [h.logs p] at hp
          exact absurd hp (by simp)

/-- **Committing never waits for an acknowledgement.** The promise holds in every state of a run exactly when
    no call of `replicate` sets the commit index in it. -/
theorem commitsAfterAck_iff_noCommit {nodeId : Nat} {stores : Option (Fin n) → Store} {ops : List (NodeOp n)}
    (h : exec LeaderNode.step (init n nodeId stores) ops = some s) :
    Along LeaderNode.step (fun _ s => s.CommitsAfterAck) (init n nodeId stores) ops ↔
      Meets LeaderNode.step (fun _ op => NoCommit op) (init n nodeId stores) ops := by
  refine along_iff_meets ?_ (fun pre op u v _ hu hv hm _ => ?_) h
  · exact (uncommitted_init n).commitsAfterAck (Cluster.inv_init n)
  · have hunc := uncommitted_of_exec hu hm
    have hinv := cluster_inv_of_exec hu
    by_cases hop : NoCommit op
    · exact iff_of_true ((uncommitted_step hunc hop hv).commitsAfterAck (cluster_inv_step hinv hv)) hop
    · refine iff_of_false ?_ hop
      obtain ⟨t, rfl⟩ : ∃ t, op = .cluster (.commit t) := by
        unfold NoCommit at hop
        split at hop
        · exact ⟨_, rfl⟩
        · exact absurd trivial hop
      exact not_commitsAfterAck_commit hunc hv

/-! ## What `replicate` returns

A call commits on its way to the answer, so whatever the answer is its entry is committed. -/

/-- A call that is past its append has its entry committed. -/
def OwnCommitted (c : Cluster n) : Prop :=
  ∀ t call, c.calls t = some call → call.pc ≠ .appended → call.own.index ≤ c.leader.commitIndex

omit [Platform] in
theorem ownCommitted_setPc (h : OwnCommitted c) {t : Nat} {own : LogEntry} {pc pc' : ReplicatePc n}
    (hpc : c.calls t = some ⟨own, pc⟩) (hpast : pc ≠ .appended) : OwnCommitted (c.setPc t own pc') := by
  have hown : own.index ≤ c.leader.commitIndex := h t _ hpc hpast
  exact Cluster.forall_calls_setPc h (fun _ => hown)

omit [Platform] in
/-- A call's entry is committed when it has passed its second step. -/
theorem ownCommitted_step (h : OwnCommitted c) (hinv : c.Inv) {op : ClusterOp n}
    (hs : c.step op = some c') : OwnCommitted c' := by
  cases Cluster.Effect.of_step hs with
  | append entry hpc =>
      exact Cluster.forall_calls_setPc (c := { c with leader := c.leader.appendLog entry }) h
        (fun hne => absurd rfl hne)
  | @commit t own last hpc hlast =>
      -- the commit index becomes the length of the log, which holds every call's entry
      have hall : ∀ u call, c.calls u = some call → call.pc ≠ .appended → call.own.index ≤ last.index := by
        intro u call hu _
        rw [hinv.numbered.index_getLast? hlast]
        exact hinv.numbered.index_le (hinv.calls u call hu).1
      have hown : own.index ≤ last.index := by
        rw [hinv.numbered.index_getLast? hlast]
        exact hinv.numbered.index_le (hinv.calls t _ hpc).1
      exact Cluster.forall_calls_setPc (c := { c with leader := { c.leader with commitIndex := last.index } })
        hall (fun _ => hown)
  | stamp hpc => exact ownCommitted_setPc h hpc (by simp)
  | build hpc hlast => exact ownCommitted_setPc h hpc (by simp)
  | ship hpc hmutex => exact ownCommitted_setPc (c := { c with peersMutex := _, shipped := _ }) h hpc (by simp)
  | @sent t own msg p left k hpc hconn => exact ownCommitted_setPc (c := c.setPeer p _) h hpc (by simp)
  | @sendFailed t own msg p left k hpc hconn => exact ownCommitted_setPc (c := c.setPeer p _) h hpc (by simp)
  | passedOver hpc hconn => exact ownCommitted_setPc h hpc (by simp)
  | noAnswer hpc => exact ownCommitted_setPc h hpc (by simp)
  | @answered t answers own msg p left k hpc hpos hacks =>
      exact ownCommitted_setPc (c := c.setPeer p _) h hpc (by simp)
  | finish hpc => exact ownCommitted_setPc (c := { c with peersMutex := _ }) h hpc (by simp)
  | leaderApply hl =>
      obtain ⟨-, -, e, -, rfl⟩ := Replica.beginApply_eq_some.mp hl
      exact h
  | leaderCall hl =>
      obtain ⟨i, it, -, rfl⟩ := Replica.callApply_eq_some.mp hl
      exact h
  | leaderApplied hl =>
      obtain ⟨i, e, -, rfl⟩ := Replica.endApply_eq_some.mp hl
      exact h
  | _ => exact h

omit [Platform] in
/-- Whatever `replicate` returns, its entry is committed. -/
theorem committed_of_returned {ops : List (ClusterOp n)}
    (h : exec Cluster.step (Cluster.init n) ops = some c) {t : Nat} {own : LogEntry} {ok : Bool}
    (ht : c.calls t = some ⟨own, .returned ok⟩) : own.index ≤ c.leader.commitIndex := by
  have hinv : c.Inv ∧ OwnCommitted c :=
    exec_invariant (I := fun c : Cluster n => c.Inv ∧ OwnCommitted c)
      ⟨Cluster.inv_init n, fun t call hcall => absurd hcall (by simp [Cluster.init])⟩
      (fun _ _ _ hi hs => ⟨hi.1.step hs, ownCommitted_step hi.2 hi.1 hs⟩) h
  exact hinv.2 t _ ht (by simp)

/-- A PUT while the only peer is not connected. -/
def unreachablePeerRun : List (NodeOp 1) :=
  ([.request 0 ⟨.put, Bytes.ascii "a", Bytes.ascii "1"⟩, .cluster (.commit 0), .cluster (.stamp 0),
    .cluster (.build 0), .cluster (.ship 0), .cluster (.send 0 true), .cluster (.finish 0), .replicated 0,
    .execute 0 1] : List (NodeOp 1)) ++ writeSteps none (.handler 0) ++
  ([.returned 0, .applyBegin none, .applyCall none ⟨0, 0, .put, [], []⟩, .applyWrite none] : List (NodeOp 1)) ++
  writeSteps none .applyLoop ++ [NodeOp.applyEnd none]

omit [Platform] in
theorem commitsAfterAck_iff_unreachablePeerRun : letI := Platform.sample
    Along LeaderNode.step (fun _ s => s.CommitsAfterAck) (init 1 1 (freshStores 1)) unreachablePeerRun ↔
      Meets LeaderNode.step (fun _ op => NoCommit op) (init 1 1 (freshStores 1)) unreachablePeerRun := by
  let := Platform.sample
  have hrun : (exec LeaderNode.step (init 1 1 (freshStores 1)) unreachablePeerRun).isSome := by decide +kernel
  obtain ⟨s, hs⟩ := Option.isSome_iff_exists.mp hrun
  exact commitsAfterAck_iff_noCommit hs

omit [Platform] in
/-- `replicate` has returned false, no follower has the entry, and the write is committed, applied and
    answered `STORED`. -/
theorem stored_unreplicated : letI := Platform.sample
    ∃ s, exec LeaderNode.step (init 1 1 (freshStores 1)) unreachablePeerRun = some s ∧
    (s.cluster.calls 0).map (·.pc) = some (.returned false) ∧ s.cluster.leader.commitIndex = 1 ∧
    s.cluster.leader.lastApplied = 1 ∧ (s.cluster.peers 0).follower.log = [] ∧
    s.answers.map (·.response) = [Response.ok "STORED"] ∧ ¬ s.CommitsAfterAck := by
  let := Platform.sample
  have hrun : (exec LeaderNode.step (init 1 1 (freshStores 1)) unreachablePeerRun).map (fun s => decide
      ((s.cluster.calls 0).map (·.pc) = some (.returned false) ∧ s.cluster.leader.commitIndex = 1 ∧
        s.cluster.leader.lastApplied = 1 ∧ (s.cluster.peers 0).follower.log = [] ∧
        s.answers.map (·.response) = [Response.ok "STORED"] ∧
        s.cluster.leader.log.map (·.index) = [1])) = some true := by decide +kernel
  obtain ⟨s, hs, hval⟩ := Option.map_eq_some_iff.mp hrun
  obtain ⟨hpc, hcommit, happlied, hlog, hanswers, hindex⟩ := of_decide_eq_true hval
  refine ⟨s, hs, hpc, hcommit, happlied, hlog, hanswers, fun hack => ?_⟩
  obtain ⟨e, he, hone⟩ := List.mem_map.mp (hindex ▸ List.mem_singleton_self 1)
  obtain ⟨p, hp⟩ := hack.acknowledged e he (by omega)
  obtain rfl : p = 0 := Subsingleton.elim p 0
  rw [hlog] at hp
  exact absurd hp (by simp)

end LeaderNode

end KvStorageEngine.Server
