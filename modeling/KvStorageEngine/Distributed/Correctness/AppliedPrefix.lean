import KvStorageEngine.Distributed.Cluster

/-!
# `Distributed.Correctness.AppliedPrefix` — what the apply loops pass on

A follower's log is a copy of the leader's in the sense of `Lib.NumberedLog`: some of its entries, in any
order, some of them repeated, while its commit index may already be past what it has received. Still both
apply loops pass on a prefix of the leader's log, entry by entry, because each asks for the next index only,
and every entry in flight stands in the leader's log under its index (`Leader.Issued`).

The loop gives up its lock while the callback runs, so for that long one entry more has been passed on than
`last_applied_` says (`applies_of_exec`); `callback_ahead` is a run that stops there. And it gives it up before the
callback has read the entry: what is said of the entries holds as long as no append moves the log in between
(`Cluster.InTime`).
-/

namespace KvStorageEngine.Distributed

open NumberedLog Run

/-! ## The apply loop

What holds of the loop in any case (`InStep`), and of what the callbacks have read (`Applies`) as long as they read
through an iterator that points into the log. -/

/-- The loop is at work on the next index, and its iterator points to the entry of `log` with this index, if anywhere. -/
structure Replica.InStep (r : Replica) (log : List LogEntry) : Prop where
  le_commit : r.lastApplied ≤ r.commitIndex
  next : ∀ i, r.applying.nextIndex? = some i → i = r.lastApplied + 1 ∧ r.lastApplied < r.commitIndex
  found : ∀ i e, r.applying = .found i (some e) → log[r.lastApplied]? = some e

/-- What the callbacks have read is the part of `log` up to `last_applied_`, and the entry after it while its callback
    is not accounted for. -/
structure Replica.Applies (r : Replica) (log : List LogEntry) : Prop where
  passed : r.passed = log.take r.lastApplied ++ r.applying.entry?.toList
  next : ∀ e, r.applying.entry? = some e → log[r.lastApplied]? = some e

variable {r r' : Replica} {log : List LogEntry}

namespace Replica.InStep

/-- The loop finds an entry only where the log has it. -/
theorem beginApply (h : r.InStep log) (hnum : Numbered LogEntry.index log) (hsub : ∀ e ∈ r.log, e ∈ log)
    (hr : r.beginApply = some r') : r'.InStep log := by
  obtain ⟨-, hlt, e, hfind, rfl⟩ := beginApply_eq_some.mp hr
  refine ⟨h.le_commit, ?_, ?_⟩
  · intro i hi
    exact ⟨(Option.some.inj hi).symm, hlt⟩
  · intro i e' he'
    obtain ⟨-, he⟩ := CallbackPc.found.inj he'
    exact Option.some.inj he ▸ hnum.find?_copy hsub hfind

theorem callApply (h : r.InStep log) {memory : LogEntry} (hr : r.callApply memory = some r') : r'.InStep log := by
  obtain ⟨i, it, happ, rfl⟩ := callApply_eq_some.mp hr
  refine ⟨h.le_commit, ?_, fun _ _ he => absurd he (by simp)⟩
  intro j hj
  exact h.next j (by rw [happ]; exact hj)

theorem endApply (h : r.InStep log) (hr : r.endApply = some r') : r'.InStep log := by
  obtain ⟨i, e, happ, rfl⟩ := endApply_eq_some.mp hr
  obtain ⟨rfl, hlt⟩ := h.next i (by rw [happ]; rfl)
  exact ⟨hlt, fun j hj => absurd hj (by simp [CallbackPc.nextIndex?]), fun _ _ he => absurd he (by simp)⟩

/-- The commit index may move up, the replica's own log and the leader's may grow. -/
theorem mono (h : r.InStep log) (hlen : r.commitIndex ≤ log.length) {log' : List LogEntry} (hlog : log <+: log')
    (hlast : r'.lastApplied = r.lastApplied) (hcommit : r.commitIndex ≤ r'.commitIndex)
    (hnext : r'.applying.nextIndex? = r.applying.nextIndex?)
    (hfound : ∀ i e, r'.applying = .found i (some e) → r.applying = .found i (some e)) : r'.InStep log' := by
  obtain ⟨rest, rfl⟩ := hlog
  refine ⟨?_, ?_, ?_⟩
  · rw [hlast]
    exact h.le_commit.trans hcommit
  · intro i hi
    rw [hnext] at hi
    obtain ⟨rfl, hlt⟩ := h.next i hi
    rw [hlast]
    exact ⟨rfl, hlt.trans_le hcommit⟩
  · intro i e he
    have hfind := hfound i e he
    obtain ⟨-, hlt⟩ := h.next i (by rw [hfind]; rfl)
    rw [hlast, List.getElem?_append_left (hlt.trans_le hlen)]
    exact h.found i e hfind

theorem mono_log (h : r.InStep log) (hlen : r.commitIndex ≤ log.length) {log' : List LogEntry}
    (hlog : log <+: log') : r.InStep log' := h.mono hlen hlog rfl le_rfl rfl fun _ _ he => he

end Replica.InStep

namespace Replica.Applies

/-- A callback that reads through a valid iterator reads the entry of the log. -/
theorem callApply (h : r.Applies log) (hstep : r.InStep log) {memory : LogEntry} (hvalid : r.applying.valid = true)
    (hr : r.callApply memory = some r') : r'.Applies log := by
  obtain ⟨i, it, happ, rfl⟩ := callApply_eq_some.mp hr
  rw [happ] at hvalid
  cases it with
  | none => exact absurd hvalid (by simp [CallbackPc.valid])
  | some e =>
      have he := hstep.found i e happ
      refine ⟨?_, ?_⟩
      · show r.passed ++ [e] = log.take r.lastApplied ++ [e]
        rw [h.passed, happ]
        simp [CallbackPc.entry?]
      · intro e' he'
        obtain rfl : e = e' := Option.some.inj he'
        exact he

theorem beginApply (h : r.Applies log) (hr : r.beginApply = some r') : r'.Applies log := by
  obtain ⟨hidle, -, e, -, rfl⟩ := beginApply_eq_some.mp hr
  refine ⟨?_, fun e' he' => absurd he' (by simp [CallbackPc.entry?])⟩
  have hpassed := h.passed
  rw [hidle] at hpassed
  exact hpassed

/-- The entry moves from the callback into the prefix. -/
theorem endApply (h : r.Applies log) (hstep : r.InStep log) (hr : r.endApply = some r') : r'.Applies log := by
  obtain ⟨i, e, happ, rfl⟩ := endApply_eq_some.mp hr
  obtain ⟨rfl, -⟩ := hstep.next i (by rw [happ]; rfl)
  have he := h.next e (by rw [happ]; rfl)
  refine ⟨?_, fun e' he' => absurd he' (by simp [CallbackPc.entry?])⟩
  show r.passed = log.take (r.lastApplied + 1) ++ []
  rw [h.passed, happ, take_add_one_of_getElem? he, List.append_nil]
  rfl

/-- The logs may grow; what has been passed on stays. -/
theorem mono (h : r.Applies log) (hlen : r.lastApplied ≤ log.length) {log' : List LogEntry} (hlog : log <+: log')
    (hlast : r'.lastApplied = r.lastApplied) (hpassed : r'.passed = r.passed)
    (hentry : r'.applying.entry? = r.applying.entry?) : r'.Applies log' := by
  obtain ⟨rest, rfl⟩ := hlog
  refine ⟨?_, ?_⟩
  · rw [hpassed, hlast, hentry, take_append_of_le hlen, h.passed]
  · intro e he
    rw [hentry] at he
    have hget := h.next e he
    rw [hlast, List.getElem?_append_left (List.getElem?_eq_some_iff.mp hget).1]
    exact hget

theorem mono_log (h : r.Applies log) (hlen : r.lastApplied ≤ log.length) {log' : List LogEntry}
    (hlog : log <+: log') : r.Applies log' := h.mono hlen hlog rfl rfl rfl

end Replica.Applies

/-! ## What the leader has issued

A message is made from the leader's log, so whatever a follower gets was in that log under its index; and the log only
grows, so it still is. -/

namespace Leader

/-- A message that the leader could have made: entries of its log, and a commit index it has had. -/
def Issued (l : Leader) (msg : ReplicationMessage) : Prop :=
  msg.leaderCommit ≤ l.commitIndex ∧ ∀ e ∈ msg.entries, e ∈ l.log

/-- A follower of the leader: a copy of its log, and a commit index it has had. -/
structure Followed (l : Leader) (f : Follower) : Prop where
  copy : ∀ e ∈ f.log, e ∈ l.log
  commit_le : f.commitIndex ≤ l.commitIndex
  inStep : f.InStep l.log

/-- What a call holds at its place came from the leader. -/
def HoldsOwn {n : Nat} (l : Leader) : ReplicatePc n → Prop
  | .stamped _ leaderCommit => leaderCommit ≤ l.commitIndex
  | .built msg | .shipping msg _ _ | .awaiting msg _ _ _ => l.Issued msg
  | .appended | .committed | .returned _ => True

/-- Later states of the leader: its log and its commit index have grown. -/
structure Grown (l l' : Leader) : Prop where
  log : l.log <+: l'.log
  commit_le : l.commitIndex ≤ l'.commitIndex

variable {l l' : Leader}

theorem Issued.mono {msg : ReplicationMessage} (h : l.Issued msg) (hg : l.Grown l') : l'.Issued msg :=
  ⟨h.1.trans hg.commit_le, fun e he => hg.log.subset (h.2 e he)⟩

theorem HoldsOwn.mono {n : Nat} {pc : ReplicatePc n} (h : l.HoldsOwn pc) (hg : l.Grown l') :
    l'.HoldsOwn pc := by
  cases pc with
  | stamped term leaderCommit =>
      have hle : leaderCommit ≤ l.commitIndex := h
      exact hle.trans hg.commit_le
  | built msg => exact Issued.mono h hg
  | shipping msg left k => exact Issued.mono h hg
  | awaiting msg p left k => exact Issued.mono h hg
  | appended => trivial
  | committed => trivial
  | returned ok => trivial

theorem Followed.mono {f : Follower} (h : l.Followed f) (hg : l.Grown l') (hle : l.commitIndex ≤ l.log.length) :
    l'.Followed f :=
  ⟨fun e he => hg.log.subset (h.copy e he), h.commit_le.trans hg.commit_le,
    h.inStep.mono_log (h.commit_le.trans hle) hg.log⟩

/-- A message moves the commit index up, if at all. -/
theorem commitIndex_le_handleReplication (f : Follower) (msg : ReplicationMessage) :
    f.commitIndex ≤ (f.handleReplication msg).commitIndex := by
  show f.commitIndex ≤ if f.commitIndex < msg.leaderCommit then msg.leaderCommit else f.commitIndex
  split_ifs with hlt
  · exact hlt.le
  · exact le_rfl

/-- A message of the leader keeps a follower a follower. -/
theorem Followed.handleReplication {f : Follower} (h : l.Followed f) (hle : l.commitIndex ≤ l.log.length)
    {msg : ReplicationMessage} (hmsg : l.Issued msg) : l.Followed (f.handleReplication msg) := by
  have happended := f.appended_foldl msg.entries
  refine ⟨?_, ?_, ?_⟩
  · intro e he
    change e ∈ (msg.entries.foldl Replica.pushBack f).log at he
    rw [happended.log] at he
    rcases List.mem_append.mp he with he | he
    · exact h.copy e he
    · exact hmsg.2 e he
  · show (if f.commitIndex < msg.leaderCommit then msg.leaderCommit else f.commitIndex) ≤ l.commitIndex
    split_ifs
    · exact hmsg.1
    · exact h.commit_le
  · exact h.inStep.mono (h.commit_le.trans hle) (List.prefix_refl _) happended.lastApplied
      (commitIndex_le_handleReplication f msg) happended.nextIndex? fun _ _ he => happended.found he

end Leader

/-! ## The invariant

The leader, the calls, the messages in flight and the followers, each compared with the leader's log. -/

namespace Cluster

variable {n : Nat} {c c' : Cluster n}

structure Inv (c : Cluster n) : Prop where
  numbered : Numbered LogEntry.index c.leader.log
  commit_le : c.leader.commitIndex ≤ c.leader.log.length
  leader : c.leader.InStep c.leader.log
  calls : ∀ t call, c.calls t = some call → call.own ∈ c.leader.log ∧ c.leader.HoldsOwn call.pc
  sent : ∀ p, ∀ msg ∈ (c.peers p).sent, c.leader.Issued msg
  followers : ∀ p, c.leader.Followed (c.peers p).follower

theorem inv_init (n : Nat) : (init n).Inv := by
  have hstep : Replica.new.InStep [] := ⟨le_rfl, fun i hi => absurd hi (by simp [Replica.new, CallbackPc.nextIndex?]),
    fun i e he => absurd he (by simp [Replica.new])⟩
  refine ⟨numbered_nil, le_rfl, hstep, fun t call h => absurd h (by simp [init]), ?_, ?_⟩
  · intro p msg h
    exact absurd h (by simp [init])
  · intro p
    exact ⟨fun e he => absurd he (by simp [init, Replica.new]), le_rfl, hstep⟩

/-- The leader may grow, as long as its own part of the invariant is there again. -/
theorem Inv.setLeader (h : c.Inv) {l : Leader} (hg : c.leader.Grown l)
    (hnum : Numbered LogEntry.index l.log) (hle : l.commitIndex ≤ l.log.length) (hstep : l.InStep l.log) :
    { c with leader := l }.Inv where
  numbered := hnum
  commit_le := hle
  leader := hstep
  calls t call hc := ⟨hg.log.subset (h.calls t call hc).1, (h.calls t call hc).2.mono hg⟩
  sent p msg hm := (h.sent p msg hm).mono hg
  followers p := (h.followers p).mono hg h.commit_le

theorem Inv.setPc (h : c.Inv) {t : Nat} {own : LogEntry} {pc : ReplicatePc n} (hown : own ∈ c.leader.log)
    (hpc : c.leader.HoldsOwn pc) : (c.setPc t own pc).Inv := by
  refine ⟨h.numbered, h.commit_le, h.leader, ?_, h.sent, h.followers⟩
  exact forall_calls_setPc h.calls ⟨hown, hpc⟩

theorem Inv.setPeer (h : c.Inv) {p : Fin n} {peer : Peer} (hsent : ∀ msg ∈ peer.sent, c.leader.Issued msg)
    (hf : c.leader.Followed peer.follower) : (c.setPeer p peer).Inv where
  numbered := h.numbered
  commit_le := h.commit_le
  leader := h.leader
  calls := h.calls
  sent := forall_peers_setPeer (P := fun peer => ∀ msg ∈ peer.sent, c.leader.Issued msg) h.sent hsent
  followers := forall_peers_setPeer (P := fun peer => c.leader.Followed peer.follower) h.followers hf

/-- Of the mutex and of the history nothing is required. -/
theorem Inv.setShipping (h : c.Inv) (held : Bool) (shipped : List ReplicationMessage) :
    { c with peersMutex := held, shipped := shipped }.Inv :=
  ⟨h.numbered, h.commit_le, h.leader, h.calls, h.sent, h.followers⟩

/-- A new entry gets the next index. -/
theorem Inv.appendLog (h : c.Inv) (entry : LogEntry) : { c with leader := c.leader.appendLog entry }.Inv := by
  have happended := c.leader.appended_pushBack (c.leader.indexed entry)
  have hlog : c.leader.log <+: (c.leader.appendLog entry).log := List.prefix_append _ _
  have hle : c.leader.commitIndex ≤ (c.leader.appendLog entry).log.length :=
    h.commit_le.trans hlog.length_le
  exact h.setLeader ⟨hlog, le_rfl⟩ (h.numbered.concat rfl) hle
    (h.leader.mono h.commit_le hlog rfl le_rfl happended.nextIndex? fun _ _ he => happended.found he)

/-- The new commit index is the length of the log. -/
theorem Inv.commitLast (h : c.Inv) {last : LogEntry} (hlast : c.leader.log.getLast? = some last) :
    { c with leader := { c.leader with commitIndex := last.index } }.Inv := by
  have hindex : last.index = c.leader.log.length := h.numbered.index_getLast? hlast
  have hle : c.leader.commitIndex ≤ last.index := hindex ▸ h.commit_le
  exact h.setLeader ⟨List.prefix_refl _, hle⟩ h.numbered hindex.le
    (h.leader.mono h.commit_le (List.prefix_refl _) rfl hle rfl fun _ _ he => he)

theorem Inv.step (h : c.Inv) {op : ClusterOp n} (hs : c.step op = some c') : c'.Inv := by
  cases Effect.of_step hs with
  | append entry hpc =>
      apply (h.appendLog entry).setPc
      · exact List.mem_append_right _ List.mem_cons_self
      · trivial
  | commit hpc hlast => exact (h.commitLast hlast).setPc (h.calls _ _ hpc).1 trivial
  | stamp hpc =>
      have hle : c.leader.commitIndex ≤ c.leader.commitIndex := le_rfl
      exact h.setPc (h.calls _ _ hpc).1 hle
  | build hpc hlast =>
      obtain ⟨hown, hle⟩ := h.calls _ _ hpc
      refine h.setPc hown ⟨hle, ?_⟩
      intro e he
      rw [List.mem_singleton.mp he]
      exact List.mem_of_getLast? hlast
  | ship hpc hmutex =>
      obtain ⟨hown, hmsg⟩ := h.calls _ _ hpc
      exact (h.setShipping _ _).setPc hown hmsg
  | @sent t own msg p left k hpc hconn =>
      obtain ⟨hown, hmsg⟩ := h.calls _ _ hpc
      refine Inv.setPc ?_ hown hmsg
      refine h.setPeer (?_) (h.followers p)
      intro m hm
      rcases List.mem_append.mp hm with hm | hm
      · exact h.sent p m hm
      · exact List.mem_singleton.mp hm ▸ hmsg
  | @sendFailed t own msg p left k hpc hconn =>
      obtain ⟨hown, hmsg⟩ := h.calls _ _ hpc
      refine Inv.setPc ?_ hown hmsg
      exact h.setPeer (h.sent p) (h.followers p)
  | passedOver hpc hconn =>
      obtain ⟨hown, hmsg⟩ := h.calls _ _ hpc
      exact h.setPc hown hmsg
  | noAnswer hpc =>
      obtain ⟨hown, hmsg⟩ := h.calls _ _ hpc
      exact h.setPc hown hmsg
  | @answered t answers own msg p left k hpc hpos hacks =>
      obtain ⟨hown, hmsg⟩ := h.calls _ _ hpc
      refine Inv.setPc ?_ hown hmsg
      exact h.setPeer (h.sent p) (h.followers p)
  | finish hpc =>
      exact (h.setShipping _ _).setPc (h.calls _ _ hpc).1 trivial
  | @connect p hmutex hconn => exact h.setPeer (h.sent p) (h.followers p)
  | leaderApply hl =>
      have hstep := h.leader.beginApply h.numbered (fun e he => he) hl
      obtain ⟨-, -, e, -, rfl⟩ := Replica.beginApply_eq_some.mp hl
      exact h.setLeader ⟨List.prefix_refl _, le_rfl⟩ h.numbered h.commit_le hstep
  | leaderCall hl =>
      have hstep := h.leader.callApply hl
      obtain ⟨i, it, -, rfl⟩ := Replica.callApply_eq_some.mp hl
      exact h.setLeader ⟨List.prefix_refl _, le_rfl⟩ h.numbered h.commit_le hstep
  | leaderApplied hl =>
      have hstep := h.leader.endApply hl
      obtain ⟨i, e, -, rfl⟩ := Replica.endApply_eq_some.mp hl
      exact h.setLeader ⟨List.prefix_refl _, le_rfl⟩ h.numbered h.commit_le hstep
  | @deliver p i answered msg hmsg =>
      have hissued := h.sent p msg (List.mem_of_getElem? hmsg)
      exact h.setPeer (h.sent p) ((h.followers p).handleReplication h.commit_le hissued)
  | @followerApply p f hf =>
      have hp := h.followers p
      have hstep := hp.inStep.beginApply h.numbered hp.copy hf
      obtain ⟨-, -, e, -, rfl⟩ := Replica.beginApply_eq_some.mp hf
      exact h.setPeer (h.sent p) ⟨hp.copy, hp.commit_le, hstep⟩
  | @followerCall p memory f hf =>
      have hp := h.followers p
      have hstep := hp.inStep.callApply hf
      obtain ⟨i, it, -, rfl⟩ := Replica.callApply_eq_some.mp hf
      exact h.setPeer (h.sent p) ⟨hp.copy, hp.commit_le, hstep⟩
  | @followerApplied p f hf =>
      have hp := h.followers p
      have hstep := hp.inStep.endApply hf
      obtain ⟨i, e, -, rfl⟩ := Replica.endApply_eq_some.mp hf
      exact h.setPeer (h.sent p) ⟨hp.copy, hp.commit_le, hstep⟩

/-- The invariant holds in every reachable state of a cluster. -/
theorem inv_of_exec {ops : List (ClusterOp n)} (h : exec Cluster.step (init n) ops = some c) : c.Inv :=
  exec_invariant (inv_init n) (fun _ _ _ hi hs => hi.step hs) h

/-! ## One replica in a step

Only the own steps of a replica change it, and only those of the leader its log. -/

/-- The steps that leave the follower `p` alone. -/
def elsewhere (p : Fin n) : ClusterOp n → Bool
  | .deliver q _ _ | .followerApply q | .followerCall q _ | .followerApplied q => q ≠ p
  | _ => true

/-- What a step does to a follower: it takes in a message, its apply loop moves, or nothing. -/
inductive FollowerStep (c : Cluster n) (p : Fin n) (f : Follower) : ClusterOp n → Prop where
  | handle {i : Nat} {answered : Bool} {msg : ReplicationMessage} (hmsg : (c.peers p).sent[i]? = some msg)
      (hf : f = (c.peers p).follower.handleReplication msg) : FollowerStep c p f (.deliver p i answered)
  | begin (hf : (c.peers p).follower.beginApply = some f) : FollowerStep c p f (.followerApply p)
  | call {memory : LogEntry} (hf : (c.peers p).follower.callApply memory = some f) :
      FollowerStep c p f (.followerCall p memory)
  | applied (hf : (c.peers p).follower.endApply = some f) : FollowerStep c p f (.followerApplied p)
  | rest {op : ClusterOp n} (hop : elsewhere p op = true) (hf : f = (c.peers p).follower) : FollowerStep c p f op

/-- A step of the cluster does to a follower what `FollowerStep` says. -/
theorem followerStep_of_step {op : ClusterOp n} (hs : c.step op = some c') (p : Fin n) :
    FollowerStep c p (c'.peers p).follower op := by
  have hkept (q : Fin n) (peer : Peer) (h : q = p → peer.follower = (c.peers p).follower) :
      ((c.setPeer q peer).peers p).follower = (c.peers p).follower := by
    by_cases hpq : p = q
    · subst hpq
      rw [peers_setPeer_self]
      exact h rfl
    · rw [peers_setPeer_ne c hpq]
  cases Effect.of_step hs with
  | @deliver q i answered msg hmsg =>
      by_cases hqp : q = p
      · subst hqp
        exact .handle hmsg (by rw [peers_setPeer_self])
      · exact .rest (by simpa [elsewhere] using hqp) (hkept q _ (absurd · hqp))
  | @followerApply q f hf =>
      by_cases hqp : q = p
      · subst hqp
        exact .begin (by rw [setFollower, peers_setPeer_self]; exact hf)
      · exact .rest (by simpa [elsewhere] using hqp) (hkept q _ (absurd · hqp))
  | @followerCall q memory f hf =>
      by_cases hqp : q = p
      · subst hqp
        exact .call (by rw [setFollower, peers_setPeer_self]; exact hf)
      · exact .rest (by simpa [elsewhere] using hqp) (hkept q _ (absurd · hqp))
  | @followerApplied q f hf =>
      by_cases hqp : q = p
      · subst hqp
        exact .applied (by rw [setFollower, peers_setPeer_self]; exact hf)
      · exact .rest (by simpa [elsewhere] using hqp) (hkept q _ (absurd · hqp))
  | @sent t own msg q left k hpc hconn =>
      refine .rest rfl (hkept q _ ?_)
      rintro rfl
      rfl
  | @sendFailed t own msg q left k hpc hconn =>
      refine .rest rfl (hkept q _ ?_)
      rintro rfl
      rfl
  | @answered t answers own msg q left k hpc hpos hacks =>
      refine .rest rfl (hkept q _ ?_)
      rintro rfl
      rfl
  | @connect q hmutex hconn =>
      refine .rest rfl (hkept q _ ?_)
      rintro rfl
      rfl
  | _ => exact .rest rfl rfl

/-- **What a step appends**: nothing, except that `append` puts one entry at the end. -/
theorem log_step {op : ClusterOp n} (hs : c.step op = some c') :
    (∃ t entry, op = .append t entry ∧ c'.leader.log = c.leader.log ++ [c.leader.indexed entry]) ∨
      (∀ t entry, op ≠ .append t entry) ∧ c'.leader.log = c.leader.log := by
  cases Effect.of_step hs with
  | append entry hpc => exact Or.inl ⟨_, entry, rfl, rfl⟩
  | leaderApply hl =>
      obtain ⟨-, -, e, -, rfl⟩ := Replica.beginApply_eq_some.mp hl
      exact Or.inr ⟨by simp, rfl⟩
  | leaderCall hl =>
      obtain ⟨i, it, -, rfl⟩ := Replica.callApply_eq_some.mp hl
      exact Or.inr ⟨by simp, rfl⟩
  | leaderApplied hl =>
      obtain ⟨i, e, -, rfl⟩ := Replica.endApply_eq_some.mp hl
      exact Or.inr ⟨by simp, rfl⟩
  | _ => exact Or.inr ⟨by simp, rfl⟩

/-- The leader's log only grows. -/
theorem log_prefix_step {op : ClusterOp n} (hs : c.step op = some c') : c.leader.log <+: c'.leader.log := by
  rcases log_step hs with ⟨t, entry, -, hlog⟩ | ⟨-, hlog⟩
  · exact hlog ▸ List.prefix_append _ _
  · exact hlog ▸ List.prefix_refl _

/-! ## Every reachable state

`InTime` says that no step moves the log under a callback that has not read its entry yet. It is asked of one replica
at a time. -/

/-- Whether in the step the callback of a replica reads its entry for the last time. -/
def isCall : Option (Fin n) → ClusterOp n → Bool
  | none, .leaderCall _ => true
  | some p, .followerCall q _ => q = p
  | _, _ => false

/-- No append has moved the replica's log since its apply loop took the iterator that the callback reads through. -/
def InTime (who : Option (Fin n)) (c : Cluster n) (op : ClusterOp n) : Prop :=
  isCall who op = true → (c.replica who).applying.valid = true

instance (who : Option (Fin n)) (c : Cluster n) (op : ClusterOp n) : Decidable (InTime who c op) :=
  inferInstanceAs (Decidable (isCall who op = true → (c.replica who).applying.valid = true))

theorem Inv.inStep (h : c.Inv) (who : Option (Fin n)) : (c.replica who).InStep c.leader.log := by
  cases who with
  | none => exact h.leader
  | some p => exact (h.followers p).inStep

theorem Inv.commitIndex_le (h : c.Inv) (who : Option (Fin n)) :
    (c.replica who).commitIndex ≤ c.leader.log.length := by
  cases who with
  | none => exact h.commit_le
  | some p => exact (h.followers p).commit_le.trans h.commit_le

/-- **A step in time keeps what has been passed on a prefix.** -/
theorem applies_step (h : c.Inv) {who : Option (Fin n)} (happ : (c.replica who).Applies c.leader.log)
    {op : ClusterOp n} (hC : InTime who c op) (hs : c.step op = some c') :
    (c'.replica who).Applies c'.leader.log := by
  have hlog := log_prefix_step hs
  have hcommit := h.commitIndex_le who
  have hstep := (h.inStep who).mono_log hcommit hlog
  have hle := (h.inStep who).le_commit.trans (hcommit.trans hlog.length_le)
  replace happ := happ.mono_log ((h.inStep who).le_commit.trans hcommit) hlog
  cases who with
  | none =>
      cases Effect.of_step hs with
      | append entry hpc =>
          have happended := c.leader.appended_pushBack (c.leader.indexed entry)
          exact happ.mono hle (List.prefix_refl _) rfl rfl happended.entry?
      | commit hpc hlast => exact happ.mono hle (List.prefix_refl _) rfl rfl rfl
      | leaderApply hl => exact happ.beginApply hl
      | @leaderCall memory l hl => exact happ.callApply hstep (hC rfl) hl
      | leaderApplied hl => exact happ.endApply hstep hl
      | _ => exact happ
  | some p =>
      cases followerStep_of_step hs p with
      | @handle i answered msg hmsg hf =>
          have happended := (c.peers p).follower.appended_foldl msg.entries
          show Replica.Applies (c'.peers p).follower _
          rw [hf]
          exact happ.mono hle (List.prefix_refl _) happended.lastApplied happended.passed happended.entry?
      | begin hf => exact happ.beginApply hf
      | @call memory hf => exact happ.callApply hstep (hC (by simp [isCall])) hf
      | applied hf => exact happ.endApply hstep hf
      | rest hop hf =>
          show Replica.Applies (c'.peers p).follower _
          rw [hf]
          exact happ

theorem applies_init (n : Nat) (who : Option (Fin n)) :
    ((init n).replica who).Applies (init n).leader.log := by
  cases who with
  | none => exact ⟨rfl, fun e he => absurd he (by simp [replica, init, Replica.new, CallbackPc.entry?])⟩
  | some p => exact ⟨rfl, fun e he => absurd he (by simp [replica, init, Replica.new, CallbackPc.entry?])⟩

/-- Of a replica whose callbacks read in time. -/
theorem applies_of_inTime {ops : List (ClusterOp n)} (h : exec Cluster.step (init n) ops = some c) {who : Option (Fin n)}
    (hC : Meets Cluster.step (InTime who) (init n) ops) : (c.replica who).Applies c.leader.log := by
  have hboth := exec_invariant_of_meets (I := fun c => c.Inv ∧ (c.replica who).Applies c.leader.log)
    ⟨inv_init n, applies_init n who⟩
    (fun _ _ _ hi hC hs => ⟨hi.1.step hs, applies_step hi.1 hi.2 hC hs⟩) hC h
  exact hboth.2

/-- Two writes, the second one shipped first and twice. The follower has passed both on, the second without
    having moved `last_applied_`. -/
def overtakenRun : List (ClusterOp 1) :=
  let entry (key : String) : LogEntry := ⟨0, 0, .put, Bytes.ascii key, Bytes.ascii "1"⟩
  [.connect onlyPeer, .append 0 (entry "a"), .commit 0, .stamp 0, .build 0,
    .append 1 (entry "b"), .commit 1, .stamp 1, .build 1,
    .ship 1, .send 1 true, .recv 1 0, .finish 1, .ship 0, .send 0 true,
    .deliver onlyPeer 0 true, .deliver onlyPeer 0 false, .deliver onlyPeer 1 true,
    .followerApply onlyPeer, .followerCall onlyPeer (entry "x"), .followerApplied onlyPeer,
    .followerApply onlyPeer, .followerCall onlyPeer (entry "x")]

end Cluster

end KvStorageEngine.Distributed
