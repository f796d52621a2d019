import KvStorageEngine.Distributed.ApplySignals
import KvStorageEngine.Distributed.Correctness.AppliedPrefix

/-!
# `Distributed.Correctness.ApplyWakeups` — the apply loop does not sleep over a commit, and may sleep over a stop

While the apply loop sleeps, everything committed is applied, except on a leader one of whose `replicate` calls has
committed and has still to notify (`asleep_applied`). So the loop, left to itself, applies all that is committed, where
every entry is there, and on a leader they are (`committed_applied`).

`stop` stores `shutdown_` without the mutex. If it does so, and notifies as well, between the loop's test and its sleep,
the loop sleeps on, and the `join` waits for a thread that nothing will wake. A follower's `stop` waits before that for
the thread that listens, which sits in `recv` as long as a leader is connected and silent. Otherwise both threads exit
(`stop_returns_or_hangs`).
-/

namespace KvStorageEngine.Distributed

open NumberedLog Run

/-! ## A. The log of a leader

A leader numbers its entries without a gap, so it has every entry that it has committed. A follower may not. -/

/-- The leader has committed what is in its log. -/
structure Leader.Led (l : Leader) : Prop where
  numbered : Numbered LogEntry.index l.log
  commit_le : l.commitIndex ≤ l.log.length

namespace Leader.Led

variable {l l' : Leader}

theorem new : Led Replica.new := ⟨numbered_nil, le_rfl⟩

theorem appendLog (h : l.Led) (entry : LogEntry) : (l.appendLog entry).Led := by
  have hlog : l.log <+: (l.appendLog entry).log := List.prefix_append _ _
  exact ⟨h.numbered.concat rfl, h.commit_le.trans hlog.length_le⟩

theorem commitLast (h : l.Led) (hl : l.commitLast = some l') : l'.Led ∧ l'.lastApplied = l.lastApplied ∧
    l'.applying = l.applying ∧ l.commitIndex ≤ l'.commitIndex := by
  obtain ⟨last, hlast, rfl⟩ := Option.map_eq_some_iff.mp hl
  have hindex : last.index = l.log.length := h.numbered.index_getLast? hlast
  exact ⟨⟨h.numbered, hindex.le⟩, rfl, rfl, hindex ▸ h.commit_le⟩

/-- Every committed entry is there. -/
theorem exists_mem (h : l.Led) {i : Nat} (hpos : 0 < i) (hi : i ≤ l.commitIndex) : ∃ e ∈ l.log, e.index = i := by
  have hlt : i - 1 < l.log.length := by
    have hle := h.commit_le
    omega
  refine ⟨l.log[i - 1], List.getElem_mem hlt, ?_⟩
  have hindex := h.numbered (i - 1) _ (List.getElem?_eq_getElem hlt)
  omega

end Leader.Led

namespace ApplySignals

variable {ι : Type} {s s' : ApplySignals ι}

/-! ## B. The invariant

The loop sleeps only with the predicate false, and whoever makes it true is to notify: a follower's handler before it
gives up the mutex, a leader's `replicate` after. -/

/-- Where the loop is, what it has in hand, and when it may sleep. -/
structure Inv (s : ApplySignals ι) : Prop where
  le : s.replica.lastApplied ≤ s.replica.commitIndex
  idle : s.loop ≠ .applying → s.loop ≠ .relocking → s.replica.applying = .idle
  found : s.loop = .applying → s.replica.lastApplied < s.replica.commitIndex ∧
    ∃ it, s.replica.applying = .found (s.replica.lastApplied + 1) it
  called : s.loop = .relocking → s.replica.lastApplied < s.replica.commitIndex ∧
    ∃ e, s.replica.applying = .called (s.replica.lastApplied + 1) e
  asleep : s.asleep = true → s.loop = .sleeping
  blocked : s.loop = .blocked → s.replica.commitIndex ≤ s.replica.lastApplied
  /-- What the loop sleeps over is about to be notified. -/
  waits : s.asleep = true → s.replica.commitIndex ≤ s.replica.lastApplied ∨ ∃ i, s.calls i = .committed
  calls : s.role = .follower → ∀ i, s.calls i = .outside
  leader : s.role = .leader → Leader.Led s.replica

theorem inv_start (role : NodeRole) : Inv (start role ι) := by
  refine ⟨le_rfl, fun _ _ => rfl, ?_, ?_, ?_, ?_, ?_, fun _ _ => rfl, fun _ => Leader.Led.new⟩ <;> simp [start]

/-- A loop that goes on is not asleep and has no entry in hand, neither before nor after. -/
theorem Goes.facts {pc : ApplyPc} (h : Inv s) (hgoes : Goes s pc) :
    s.asleep = false ∧ (pc = .blocked → s.predicate = false) ∧ pc ≠ .applying ∧ pc ≠ .relocking ∧
      s.replica.applying = .idle := by
  have hawake : s.loop ≠ .sleeping → s.asleep = false := by
    intro hne
    rw [← Bool.not_eq_true]
    exact fun hasleep => hne (h.asleep hasleep)
  cases hgoes with
  | relocks hpc hwoken => exact ⟨hwoken, by simp, by simp, by simp, h.idle (by simp [hpc]) (by simp [hpc])⟩
  | blocks hpc hpred =>
      exact ⟨hawake (by simp [hpc]), fun _ => hpred, by simp, by simp, h.idle (by simp [hpc]) (by simp [hpc])⟩
  | leaves hpc _ | goesOn hpc _ | locks hpc | finds hpc _ | breaks hpc _ | scans hpc _ | stuck hpc _ =>
      exact ⟨hawake (by simp [hpc]), by simp, by simp, by simp, h.idle (by simp [hpc]) (by simp [hpc])⟩

/-- Appends leave the loop with what it had in hand, but for the iterator. -/
theorem Inv.appended (h : Inv s) {r : Replica} {entries : List LogEntry}
    (happended : s.replica.Appended r entries) {k : Nat} (hk : s.replica.commitIndex ≤ k) :
    (s.loop ≠ .applying → s.loop ≠ .relocking → r.applying = .idle) ∧
      (s.loop = .applying → r.lastApplied < k ∧ ∃ it, r.applying = .found (r.lastApplied + 1) it) ∧
      (s.loop = .relocking → r.lastApplied < k ∧ ∃ e, r.applying = .called (r.lastApplied + 1) e) := by
  have hlast := happended.lastApplied
  refine ⟨fun ha hr => ?_, fun hpc => ?_, fun hpc => ?_⟩
  · have hidle := h.idle ha hr
    rcases happended.applying with heq | heq
    · exact heq.trans hidle
    · rw [heq, hidle]
      rfl
  · obtain ⟨hlt, it, hfound⟩ := h.found hpc
    refine ⟨hlast ▸ hlt.trans_le hk, ?_⟩
    rw [hlast]
    rcases happended.applying with heq | heq
    · exact ⟨it, heq.trans hfound⟩
    · rw [heq, hfound]
      exact ⟨none, rfl⟩
  · obtain ⟨hlt, e, hcalled⟩ := h.called hpc
    refine ⟨hlast ▸ hlt.trans_le hk, e, ?_⟩
    rw [hlast]
    rcases happended.applying with heq | heq
    · exact heq.trans hcalled
    · rw [heq, hcalled]
      rfl

variable [DecidableEq ι]

/-- A call in `committed` stays there while another one moves. -/
theorem committed_setCall {i : ι} {pc : CommitPc} (hpc : s.calls i ≠ .committed) (h : ∃ j, s.calls j = .committed) :
    ∃ j, (s.setCall i pc).calls j = .committed := by
  obtain ⟨j, hj⟩ := h
  have hne : j ≠ i := by
    rintro rfl
    exact hpc hj
  exact ⟨j, (Function.update_of_ne hne ..).trans hj⟩

/-- **One step.** -/
theorem Inv.step (h : Inv s) {op : ApplySignalsOp ι} (hs : s.step op = some s') : Inv s' := by
  have ⟨hle, hidle, hfound, hcalled, hasleep, hblocked, hwaits, hcalls, hleader⟩ := h
  have hunblocked : s.loop.holds = false → s.loop ≠ .blocked := by
    rintro hfree hpc
    simp [hpc, ApplyPc.holds] at hfree
  cases Effect.of_step hs with
  | @goes memory pc hgoes =>
      obtain ⟨hawake, hblocks, happlying, hrelocking, hnone⟩ := hgoes.facts h
      refine ⟨hle, fun _ _ => hnone, fun hpc => absurd hpc happlying, fun hpc => absurd hpc hrelocking,
        fun hsleep => absurd hsleep (by simp [hawake]), ?_, fun hsleep => absurd hsleep (by simp [hawake]), hcalls,
        hleader⟩
      rintro rfl
      have hpred := hblocks rfl
      rw [predicate, Bool.or_eq_false_iff, decide_eq_false_iff_not, Nat.not_lt] at hpred
      exact hpred.2
  | sleep hpc =>
      exact ⟨hle, fun _ _ => hidle (by simp [hpc]) (by simp [hpc]), by simp, by simp, fun _ => rfl, by simp,
        fun _ => Or.inl (hblocked hpc), hcalls, hleader⟩
  | begin hpc hbegin =>
      obtain ⟨-, hlt, e, hfind, rfl⟩ := Replica.beginApply_eq_some.mp hbegin
      exact ⟨hle, fun hne => absurd rfl hne, fun _ => ⟨hlt, _, rfl⟩, by simp,
        fun hsleep => absurd (hasleep hsleep) (by simp [hpc]), by simp, hwaits, hcalls,
        fun hrole => ⟨(hleader hrole).numbered, (hleader hrole).commit_le⟩⟩
  | called hpc hcall =>
      obtain ⟨hlt, it, hit⟩ := hfound hpc
      obtain ⟨i, it', happ, rfl⟩ := Replica.callApply_eq_some.mp hcall
      obtain ⟨rfl, rfl⟩ := CallbackPc.found.inj (hit.symm.trans happ)
      exact ⟨hle, fun _ hne => absurd rfl hne, by simp, fun _ => ⟨hlt, _, rfl⟩,
        fun hsleep => absurd (hasleep hsleep) (by simp [hpc]), by simp, hwaits, hcalls,
        fun hrole => ⟨(hleader hrole).numbered, (hleader hrole).commit_le⟩⟩
  | applied hpc hend =>
      obtain ⟨hlt, e, he⟩ := hcalled hpc
      obtain ⟨i, e', happ, rfl⟩ := Replica.endApply_eq_some.mp hend
      obtain ⟨rfl, rfl⟩ := CallbackPc.called.inj (he.symm.trans happ)
      exact ⟨hlt, fun _ _ => rfl, by simp, by simp, fun hsleep => absurd (hasleep hsleep) (by simp [hpc]), by simp,
        fun hsleep => absurd (hasleep hsleep) (by simp [hpc]), hcalls,
        fun hrole => ⟨(hleader hrole).numbered, (hleader hrole).commit_le⟩⟩
  | wake | stopNotify hpc =>
      exact ⟨hle, hidle, hfound, hcalled, fun hsleep => absurd hsleep (by simp), hblocked,
        fun hsleep => absurd hsleep (by simp), hcalls, hleader⟩
  | @append i entry hrole hpc hfree =>
      obtain ⟨hidle', hfound', hcalled'⟩ :=
        h.appended (s.replica.appended_pushBack (Leader.indexed s.replica entry)) le_rfl
      refine ⟨hle, hidle', hfound', hcalled', hasleep, fun hloop => absurd hloop (hunblocked hfree), fun hsleep => ?_,
        fun hfollower => absurd (hrole.symm.trans hfollower) (by simp), fun _ => (hleader hrole).appendLog entry⟩
      exact (hwaits hsleep).imp id (committed_setCall (by simp [hpc]))
  | @commit i replica hpc hfree hcommit =>
      have hrole : s.role = .leader := by
        cases hrole : s.role with
        | leader => rfl
        | follower => exact absurd (hcalls hrole i) (by simp [hpc])
      obtain ⟨hled, hlast, happ, hmore⟩ := (hleader hrole).commitLast hcommit
      refine ⟨?_, ?_, ?_, ?_, hasleep, fun hloop => absurd hloop (hunblocked hfree),
        fun _ => Or.inr ⟨i, Function.update_self ..⟩, fun hfollower => absurd (hrole.symm.trans hfollower) (by simp),
        fun _ => hled⟩
      · exact (hlast ▸ hle).trans hmore
      · intro ha hr
        exact happ.trans (hidle ha hr)
      · intro hloop
        obtain ⟨hlt, it, hit⟩ := hfound hloop
        exact ⟨by simpa [setCall, hlast] using hlt.trans_le hmore, it, by simpa [setCall, hlast, happ] using hit⟩
      · intro hloop
        obtain ⟨hlt, e, he⟩ := hcalled hloop
        exact ⟨by simpa [setCall, hlast] using hlt.trans_le hmore, e, by simpa [setCall, hlast, happ] using he⟩
  | @notify i hpc =>
      refine ⟨hle, hidle, hfound, hcalled, fun hsleep => absurd hsleep (by simp [setCall]), hblocked,
        fun hsleep => absurd hsleep (by simp [setCall]), fun hrole => ?_, hleader⟩
      exact absurd (hcalls hrole i) (by simp [hpc])
  | @handle msg hrole hpc hfree =>
      have hmore := Leader.commitIndex_le_handleReplication s.replica msg
      have happended := s.replica.appended_foldl msg.entries
      obtain ⟨hidle', hfound', hcalled'⟩ := h.appended happended hmore
      have hlast : (Follower.handleReplication s.replica msg).lastApplied = s.replica.lastApplied :=
        happended.lastApplied
      refine ⟨?_, hidle', hfound', hcalled', fun hsleep => ?_, fun hloop => absurd hloop (hunblocked hfree), ?_, hcalls,
        fun hleads => absurd (hrole.symm.trans hleads) (by simp)⟩
      · show (Follower.handleReplication s.replica msg).lastApplied ≤ _
        rw [hlast]
        exact hle.trans hmore
      · rw [Bool.and_eq_true] at hsleep
        exact hasleep hsleep.1
      · -- a message that commits something wakes the loop up
        intro hsleep
        rw [Bool.and_eq_true, Bool.not_eq_true', decide_eq_false_iff_not] at hsleep
        have hsame : (Follower.handleReplication s.replica msg).commitIndex = s.replica.commitIndex :=
          if_neg hsleep.2
        rcases hwaits hsleep.1 with hdone | hcalled
        · refine Or.inl ?_
          show (Follower.handleReplication s.replica msg).commitIndex ≤
            (Follower.handleReplication s.replica msg).lastApplied
          rw [hsame, hlast]
          exact hdone
        · exact Or.inr hcalled
  | listener _ | stop hpc | stopClose hpc | joinListener hpc _ | join hpc hexited =>
      exact ⟨hle, hidle, hfound, hcalled, hasleep, hblocked, hwaits, hcalls, hleader⟩

/-- The invariant holds in every reachable state. -/
theorem inv_of_exec {role : NodeRole} {ops : List (ApplySignalsOp ι)}
    (h : exec ApplySignals.step (start role ι) ops = some s) : Inv s :=
  exec_invariant (inv_start role) (fun _ _ _ hi hs => hi.step hs) h

/-- A loop that has exited has been told to. -/
theorem shutdown_of_exited {role : NodeRole} {ops : List (ApplySignalsOp ι)}
    (h : exec ApplySignals.step (start role ι) ops = some s) : s.loop = .exited → s.shutdown = true := by
  refine exec_invariant (I := fun s => s.loop = .exited → s.shutdown = true) (by simp [start])
    (fun s op s' hi hs => ?_) h
  cases Effect.of_step hs with
  | goes hgoes =>
      rintro rfl
      cases hgoes with
      | leaves _ hdown | breaks _ hdown => exact hdown
  | sleep _ | begin _ _ | called _ _ | applied _ _ => exact fun hpc => absurd hpc (by simp)
  | stop _ => exact fun _ => rfl
  | wake | append _ _ _ | commit _ _ _ | notify _ | listener _ | handle _ _ _ | stopNotify _ | stopClose _
  | joinListener _ _ | join _ _ => exact hi

theorem shutdown_of_stopper {role : NodeRole} {ops : List (ApplySignalsOp ι)}
    (h : exec ApplySignals.step (start role ι) ops = some s) : s.stopper ≠ .running → s.shutdown = true := by
  refine exec_invariant (I := fun s => s.stopper ≠ .running → s.shutdown = true) (by simp [start])
    (fun s op s' hi hs => ?_) h
  cases Effect.of_step hs with
  | stop _ => exact fun _ => rfl
  | stopNotify hpc | stopClose hpc | joinListener hpc _ | join hpc _ => exact fun _ => hi (by simp [hpc])
  | goes _ | sleep _ | begin _ _ | called _ _ | applied _ _ | wake | append _ _ _ | commit _ _ _ | notify _
  | listener _ | handle _ _ _ => exact hi

theorem role_of_exec {role : NodeRole} {ops : List (ApplySignalsOp ι)}
    (h : exec ApplySignals.step (start role ι) ops = some s) : s.role = role := by
  refine exec_invariant (I := fun s => s.role = role) rfl (fun s op s' hi hs => ?_) h
  cases Effect.of_step hs <;> exact hi

/-- **The loop sleeps over nothing that is committed.** While the apply loop is asleep, or has decided to sleep,
    everything committed is applied; only on a leader may a call of `replicate` have committed more, and then it has
    still to notify. -/
theorem asleep_applied {role : NodeRole} {ops : List (ApplySignalsOp ι)}
    (h : exec ApplySignals.step (start role ι) ops = some s) (hsleeps : s.asleep = true ∨ s.loop = .blocked) :
    s.replica.lastApplied = s.replica.commitIndex ∨ role = .leader ∧ s.asleep = true ∧ ∃ i, s.calls i = .committed := by
  have hinv := inv_of_exec h
  rcases hsleeps with hasleep | hblocked
  · rcases hinv.waits hasleep with hdone | ⟨i, hi⟩
    · exact Or.inl (le_antisymm hinv.le hdone)
    · refine Or.inr ⟨?_, hasleep, i, hi⟩
      cases hrole : role with
      | leader => rfl
      | follower => exact absurd (hinv.calls ((role_of_exec h).trans hrole) i) (by simp [hi])
  · exact Or.inl (le_antisymm hinv.le (hinv.blocked hblocked))

/-- The loop of a leader falls asleep, and a call commits an entry. -/
def beforeNotifyRun : List (ApplySignalsOp Nat) :=
  List.replicate 4 (ApplySignalsOp.loop ⟨0, 0, .put, [], []⟩) ++
    [ApplySignalsOp.append 0 ⟨0, 0, .put, [], []⟩, ApplySignalsOp.commit 0]

theorem asleep_applied_beforeNotifyRun : ∃ s, exec ApplySignals.step (start .leader Nat) beforeNotifyRun = some s ∧
    s.replica.commitIndex = 1 ∧ s.asleep = true ∧ ∃ i, s.calls i = .committed := by
  have hrun : (exec ApplySignals.step (start .leader Nat) beforeNotifyRun).map
      (fun s => (s.replica.lastApplied, s.replica.commitIndex, s.asleep)) = some (0, 1, true) := by decide
  obtain ⟨s, hs, hfields⟩ := Option.map_eq_some_iff.mp hrun
  simp only [Prod.mk.injEq] at hfields
  obtain ⟨hlast, hcommit, hasleep⟩ := hfields
  refine ⟨s, hs, hcommit, hasleep, ?_⟩
  rcases asleep_applied hs (Or.inl hasleep) with hdone | ⟨-, -, hcalled⟩
  · omega
  · exact hcalled

/-! ## C. The loop on its own

With nobody else moving, the loop takes entry after entry until one is missing or all that is committed is applied.
Between two entries it takes a fixed number of steps, counted by a rank. -/

/-- The loop changes nothing but its place and how far it has got. -/
theorem loop_frame (hinv : Inv s) {memory : LogEntry} (hs : s.step (.loop memory) = some s') :
    s'.calls = s.calls ∧ s'.shutdown = s.shutdown ∧ s'.role = s.role ∧ s'.replica.log = s.replica.log ∧
      s'.replica.commitIndex = s.replica.commitIndex ∧ s.replica.lastApplied ≤ s'.replica.lastApplied := by
  cases Effect.of_step hs with
  | goes _ | sleep _ => exact ⟨rfl, rfl, rfl, rfl, rfl, le_rfl⟩
  | begin _ hbegin =>
      obtain ⟨-, -, e, -, rfl⟩ := Replica.beginApply_eq_some.mp hbegin
      exact ⟨rfl, rfl, rfl, rfl, rfl, le_rfl⟩
  | called _ hcall =>
      obtain ⟨i, it, -, rfl⟩ := Replica.callApply_eq_some.mp hcall
      exact ⟨rfl, rfl, rfl, rfl, rfl, le_rfl⟩
  | applied hpc hend =>
      obtain ⟨-, e, he⟩ := hinv.called hpc
      obtain ⟨i, e', happ, rfl⟩ := Replica.endApply_eq_some.mp hend
      obtain ⟨rfl, rfl⟩ := CallbackPc.called.inj (he.symm.trans happ)
      exact ⟨rfl, rfl, rfl, rfl, rfl, Nat.le_succ _⟩
  | listener hlistens => cases hlistens

/-- What is left to apply, three steps for each entry, and the way back to the search. -/
def toApply (rank : ApplyPc → Nat) (s : ApplySignals ι) : Nat :=
  3 * (s.replica.commitIndex - s.replica.lastApplied) + rank s.loop

/-- The loop is past its callback: it accounts for the entry. -/
theorem exists_applied (rank : ApplyPc → Nat) (hinv : Inv s) (memory : LogEntry) (hpc : s.loop = .relocking)
    (hrank : rank .scanning ≤ rank .relocking + 2) :
    ∃ t, s.step (.loop memory) = some t ∧ toApply rank t < toApply rank s := by
  obtain ⟨hlt, e, happ⟩ := hinv.called hpc
  refine ⟨{ s with
    replica := { s.replica with applying := .idle, lastApplied := s.replica.lastApplied + 1 }
    loop := .scanning }, ?_, ?_⟩
  · simp [ApplySignals.step, loopStep, hpc, Replica.endApply, happ]
  · simp only [toApply, hpc]
    omega

/-- The loop calls the callback on what it has found. -/
theorem exists_called {rank : ApplyPc → Nat} (hinv : Inv s) (memory : LogEntry) (hpc : s.loop = .applying)
    (hrank : rank .relocking < rank .applying) :
    ∃ t, s.step (.loop memory) = some t ∧ toApply rank t < toApply rank s := by
  obtain ⟨-, it, happ⟩ := hinv.found hpc
  have hcall : s.replica.callApply memory = some _ := Replica.callApply_eq_some.mpr ⟨_, it, happ, rfl⟩
  refine ⟨_, by simp only [ApplySignals.step, loopStep, hpc, hcall]; rfl, ?_⟩
  simp only [toApply, hpc]
  omega

/-- The loop looks for an entry that is there. -/
theorem exists_begun (hinv : Inv s) (memory : LogEntry) (hpc : s.loop = .scanning)
    (hlt : s.replica.lastApplied < s.replica.commitIndex)
    (hentry : ∃ e ∈ s.replica.log, e.index = s.replica.lastApplied + 1) {rank : ApplyPc → Nat}
    (hrank : rank .applying < rank .scanning) :
    ∃ t, s.step (.loop memory) = some t ∧ toApply rank t < toApply rank s := by
  have hidle : s.replica.applying = .idle := hinv.idle (by simp [hpc]) (by simp [hpc])
  obtain ⟨e, he, hindex⟩ := hentry
  obtain ⟨first, hfirst⟩ := Option.isSome_iff_exists.mp
    (List.find?_isSome.mpr ⟨e, he, beq_iff_eq.mpr hindex⟩ :
      (s.replica.log.find? fun e => e.index == s.replica.lastApplied + 1).isSome)
  have hbegin := Replica.beginApply_eq_some.mpr ⟨hidle, hlt, first, hfirst, rfl⟩
  refine ⟨_, by simp only [ApplySignals.step, loopStep, hpc, hbegin]; rfl, ?_⟩
  simp only [toApply, hpc]
  omega

/-- How many steps the loop is from looking for an entry again. -/
def scanRank : ApplyPc → Nat
  | .testing => 6
  | .locking | .sleeping => 5
  | .holding => 4
  | .woken => 3
  | .scanning => 2
  | .applying => 1
  | .relocking | .blocked | .exited => 0

/-- A node that is up, with nobody about to notify, on its way to `target` with every entry there. -/
structure Catching (target : Nat) (entries : List LogEntry) (s : ApplySignals ι) : Prop where
  inv : Inv s
  up : s.shutdown = false
  exited : s.loop ≠ .exited
  calls : ∀ i, s.calls i ≠ .committed
  commit : s.replica.commitIndex = target
  log : s.replica.log = entries
  complete : ∀ i, s.replica.lastApplied < i → i ≤ target → ∃ e ∈ entries, e.index = i

/-- The loop goes on towards its target. -/
theorem Catching.step {target : Nat} {entries : List LogEntry} (h : Catching target entries s) {memory : LogEntry}
    (hs : s.step (.loop memory) = some s') : Catching target entries s' := by
  obtain ⟨hcalls, hshutdown, -, hlog, hcommit, hle⟩ := loop_frame h.inv hs
  refine ⟨h.inv.step hs, hshutdown.trans h.up, ?_, fun i => hcalls ▸ h.calls i, hcommit.trans h.commit,
    hlog.trans h.log, fun i hi => h.complete i (hle.trans_lt hi)⟩
  cases Effect.of_step hs with
  | goes hgoes =>
      rintro rfl
      cases hgoes with
      | leaves _ hdown | breaks _ hdown => exact absurd (h.up.symm.trans hdown) (by simp)
  | sleep _ | begin _ _ | called _ _ | applied _ _ => simp
  | listener hlistens => cases hlistens

/-- It takes a step towards it. -/
theorem Catching.progress {target : Nat} {entries : List LogEntry} (h : Catching target entries s)
    (hgoal : s.replica.lastApplied ≠ target) (memory : LogEntry) :
    ∃ t, s.step (.loop memory) = some t ∧ Catching target entries t ∧ toApply scanRank t < toApply scanRank s := by
  have hlt : s.replica.lastApplied < s.replica.commitIndex := lt_of_le_of_ne h.inv.le (h.commit ▸ hgoal)
  have hpred : s.predicate = true := by simp [predicate, hlt]
  have hmoves : ∃ t, s.step (.loop memory) = some t ∧ toApply scanRank t < toApply scanRank s := by
    cases hpc : s.loop with
    | testing => exact ⟨_, step_of_goes (.goesOn hpc h.up) memory, by simp [toApply, hpc, scanRank]⟩
    | locking => exact ⟨_, step_of_goes (.locks hpc) memory, by simp [toApply, hpc, scanRank]⟩
    | holding => exact ⟨_, step_of_goes (.finds hpc hpred) memory, by simp [toApply, hpc, scanRank]⟩
    | blocked => exact absurd (h.inv.blocked hpc) (Nat.not_le.mpr hlt)
    | sleeping =>
        have hawake : s.asleep = false := by
          rw [← Bool.not_eq_true]
          intro hasleep
          rcases h.inv.waits hasleep with hdone | ⟨i, hi⟩
          · exact absurd hdone (Nat.not_le.mpr hlt)
          · exact h.calls i hi
        exact ⟨_, step_of_goes (.relocks hpc hawake) memory, by simp [toApply, hpc, scanRank]⟩
    | woken => exact ⟨_, step_of_goes (.scans hpc h.up) memory, by simp [toApply, hpc, scanRank]⟩
    | scanning =>
        refine exists_begun h.inv memory hpc hlt ?_ (by decide)
        rw [h.log]
        exact h.complete _ (Nat.lt_succ_self _) (h.commit ▸ hlt)
    | applying => exact exists_called h.inv memory hpc (by decide)
    | relocking => exact exists_applied scanRank h.inv memory hpc (by decide)
    | exited => exact absurd hpc h.exited
  obtain ⟨t, ht, hless⟩ := hmoves
  exact ⟨t, ht, h.step ht, hless⟩

/-- Every entry that is committed and not applied is there. -/
def Complete (s : ApplySignals ι) : Prop :=
  ∀ i, s.replica.lastApplied < i → i ≤ s.replica.commitIndex → ∃ e ∈ s.replica.log, e.index = i

/-- **What is committed gets applied.** From every state in which the node has not been stopped and no call of
    `replicate` has still to notify, the apply loop on its own applies everything that is committed, if every entry is
    there; on a leader they are. -/
theorem committed_applied {role : NodeRole} {ops : List (ApplySignalsOp ι)}
    (h : exec ApplySignals.step (start role ι) ops = some s) (hup : s.shutdown = false)
    (hcalls : ∀ i, s.calls i ≠ .committed) (hcomplete : role = .leader ∨ s.Complete) (memory : LogEntry) :
    ∃ k ≤ 3 * (s.replica.commitIndex - s.replica.lastApplied) + 6, ∃ t,
      exec ApplySignals.step s (List.replicate k (.loop memory)) = some t ∧
      t.replica.lastApplied = s.replica.commitIndex ∧ t.replica.commitIndex = s.replica.commitIndex := by
  have hinv := inv_of_exec h
  have hrole := role_of_exec h
  have hentries : s.Complete := by
    rcases hcomplete with hleads | hcomplete
    · exact fun i hlt hi => (hinv.leader (hrole.trans hleads)).exists_mem (Nat.zero_lt_of_lt hlt) hi
    · exact hcomplete
  have hcatching : Catching s.replica.commitIndex s.replica.log s :=
    ⟨hinv, hup, fun hpc => absurd (hup.symm.trans (shutdown_of_exited h hpc)) (by simp), hcalls, rfl, rfl, hentries⟩
  have hprogress : ∀ t : ApplySignals ι, Catching s.replica.commitIndex s.replica.log t →
      ¬ t.replica.lastApplied = s.replica.commitIndex → ∃ u, t.step (.loop memory) = some u ∧
        Catching s.replica.commitIndex s.replica.log u ∧ toApply scanRank u < toApply scanRank t :=
    fun _ hi hgoal => hi.progress hgoal memory
  obtain ⟨k, hk, t, ht, hthere, hdone⟩ := exists_exec_replicate (toApply scanRank) _ hprogress hcatching
  have hrank : scanRank s.loop ≤ 6 := by
    cases s.loop <;> simp [scanRank]
  exact ⟨k, hk.trans (by unfold toApply; omega), t, ht, hdone, hthere.commit⟩

/-- A follower that has received its second entry before its first one, with both committed. -/
def outOfOrderRun : List (ApplySignalsOp Nat) :=
  let loops (k : Nat) : List (ApplySignalsOp Nat) := List.replicate k (.loop ⟨0, 0, .put, [], []⟩)
  ([.listen, .connect, .listen, .receive] : List (ApplySignalsOp Nat)) ++ loops 4 ++
    [ApplySignalsOp.handle ⟨0, 2, [⟨0, 2, .put, [], []⟩]⟩] ++ loops 5 ++
    [ApplySignalsOp.handle ⟨0, 2, [⟨0, 1, .delete, [], []⟩]⟩]

theorem committed_applied_outOfOrderRun : ∃ s, exec ApplySignals.step (start .follower Nat) outOfOrderRun = some s ∧
    s.replica.lastApplied = 0 ∧ ∃ k t,
      exec ApplySignals.step s (List.replicate k (.loop ⟨0, 0, .put, [], []⟩)) = some t ∧
      t.replica.lastApplied = 2 := by
  have hrun : (exec ApplySignals.step (start .follower Nat) outOfOrderRun).map
      (fun s => (s.replica.lastApplied, s.replica.commitIndex, s.shutdown, s.replica.log.map (·.index))) =
      some (0, 2, false, [2, 1]) := by decide
  obtain ⟨s, hs, hfields⟩ := Option.map_eq_some_iff.mp hrun
  simp only [Prod.mk.injEq] at hfields
  obtain ⟨hlast, hcommit, hup, hlog⟩ := hfields
  have hcomplete : s.Complete := by
    intro i hlt hi
    rw [hlast] at hlt
    rw [hcommit] at hi
    have hmem : i ∈ s.replica.log.map (·.index) := by
      rw [hlog]
      have : i = 1 ∨ i = 2 := by omega
      rcases this with rfl | rfl <;> simp
    simpa using hmem
  have hcalls : ∀ i, s.calls i ≠ .committed := fun i hi =>
    absurd ((inv_of_exec hs).calls (role_of_exec hs) i) (by simp [hi])
  obtain ⟨k, -, t, ht, hdone, -⟩ := committed_applied hs hup hcalls (Or.inr hcomplete) ⟨0, 0, .put, [], []⟩
  exact ⟨s, hs, hlast, k, t, ht, hdone.trans hcommit⟩

/-! ## D. Stopping

`stop` joins the listening thread of a follower, and then the apply loop. The one may wait in `recv`, the other may have
missed the notification. -/

/-- How many steps the loop is from its exit, once it has been told to. -/
def exitRank : ApplyPc → Nat
  | .exited | .blocked => 0
  | .testing | .woken => 1
  | .holding | .relocking => 2
  | .locking | .sleeping | .applying => 3
  | .scanning => 4

/-- A loop that has been told to exit, and has heard it. -/
structure Leaving (s : ApplySignals ι) : Prop where
  inv : Inv s
  down : s.shutdown = true
  joining : s.stopper = .joining
  awake : s.asleep = false
  unblocked : s.loop ≠ .blocked

/-- A loop that is leaving goes on leaving. -/
theorem Leaving.step (h : Leaving s) {memory : LogEntry} (hs : s.step (.loop memory) = some s') : Leaving s' := by
  have hinv := h.inv.step hs
  have hdown := (loop_frame h.inv hs).2.1.trans h.down
  cases Effect.of_step hs with
  | goes hgoes =>
      refine ⟨hinv, hdown, h.joining, h.awake, fun hpc => ?_⟩
      exact absurd ((hgoes.facts h.inv).2.1 hpc) (by simp [predicate, h.down])
  | sleep hpc => exact absurd hpc h.unblocked
  | begin _ _ | called _ _ | applied _ _ => exact ⟨hinv, hdown, h.joining, h.awake, by simp⟩
  | listener hlistens => cases hlistens

/-- It takes a step towards its exit. -/
theorem Leaving.progress (h : Leaving s) (hgoal : s.loop ≠ .exited) (memory : LogEntry) :
    ∃ t, s.step (.loop memory) = some t ∧ Leaving t ∧ toApply exitRank t < toApply exitRank s := by
  have hpred : s.predicate = true := by simp [predicate, h.down]
  have hmoves : ∃ t, s.step (.loop memory) = some t ∧ toApply exitRank t < toApply exitRank s := by
    cases hpc : s.loop with
    | testing => exact ⟨_, step_of_goes (.leaves hpc h.down) memory, by simp [toApply, hpc, exitRank]⟩
    | locking => exact ⟨_, step_of_goes (.locks hpc) memory, by simp [toApply, hpc, exitRank]⟩
    | holding => exact ⟨_, step_of_goes (.finds hpc hpred) memory, by simp [toApply, hpc, exitRank]⟩
    | blocked => exact absurd hpc h.unblocked
    | sleeping => exact ⟨_, step_of_goes (.relocks hpc h.awake) memory, by simp [toApply, hpc, exitRank]⟩
    | woken => exact ⟨_, step_of_goes (.breaks hpc h.down) memory, by simp [toApply, hpc, exitRank]⟩
    | scanning =>
        cases hbegin : s.replica.beginApply with
        | none => exact ⟨_, step_of_goes (.stuck hpc hbegin) memory, by simp [toApply, hpc, exitRank]⟩
        | some replica =>
            obtain ⟨-, -, e, -, rfl⟩ := Replica.beginApply_eq_some.mp hbegin
            exact ⟨_, by simp only [ApplySignals.step, loopStep, hpc, hbegin]; rfl, by simp [toApply, hpc, exitRank]⟩
    | applying => exact exists_called h.inv memory hpc (by decide)
    | relocking => exact exists_applied exitRank h.inv memory hpc (by decide)
    | exited => exact absurd hpc hgoal
  obtain ⟨t, ht, hless⟩ := hmoves
  exact ⟨t, ht, h.step ht, hless⟩

/-- Then `stop` returns. -/
theorem Leaving.exists_returned (h : Leaving s) (memory : LogEntry) :
    ∃ k ≤ toApply exitRank s, ∃ t, exec ApplySignals.step s (List.replicate k (.loop memory) ++ [.join]) = some t ∧
      t.stopper = .returned := by
  have hprogress : ∀ t : ApplySignals ι, Leaving t → ¬ t.loop = .exited →
      ∃ u, t.step (.loop memory) = some u ∧ Leaving u ∧ toApply exitRank u < toApply exitRank t :=
    fun _ hi hgoal => hi.progress hgoal memory
  obtain ⟨k, hk, t, ht, hleft, hexited⟩ := exists_exec_replicate (toApply exitRank) _ hprogress h
  refine ⟨k, hk, { t with stopper := .returned }, ?_, rfl⟩
  rw [exec_concat, ht, Option.bind_some, ApplySignals.step, hleft.joining, hexited]

/-- How many steps the listening thread is from its exit, once the node has been stopped and the socket is closed. -/
def listenRank : ListenerPc → Nat
  | .exited | .receiving => 0
  | .testing | .accepting => 1
  | .serving => 2
  | .handling => 3

/-- The listening thread of a stopped node leaves, unless it waits in `recv`. -/
theorem exists_listened (hdown : s.shutdown = true) (hclosed : s.listening = false) (hnot : s.listener ≠ .receiving) :
    ∃ k ≤ listenRank s.listener, exec ApplySignals.step s (List.replicate k .listen) =
      some { s with listener := .exited } := by
  have hleave : ∀ u : ApplySignals ι, u.shutdown = true → u.listener = .testing →
      u.step .listen = some { u with listener := .exited } := by
    intro u hdown hpc
    simp [ApplySignals.step, listenStep, hpc, hdown]
  have hbreak : ∀ u : ApplySignals ι, u.shutdown = true → u.listener = .serving →
      u.step .listen = some { u with listener := .testing } := by
    intro u hdown hpc
    simp [ApplySignals.step, listenStep, hpc, hdown]
  cases hpc : s.listener with
  | testing =>
      refine ⟨1, le_rfl, ?_⟩
      rw [List.replicate_one, exec_cons, hleave s hdown hpc]
      rfl
  | accepting =>
      refine ⟨1, le_rfl, ?_⟩
      simp [exec_cons, ApplySignals.step, listenStep, hpc, hdown, hclosed]
  | serving =>
      refine ⟨2, le_rfl, ?_⟩
      rw [List.replicate_succ, List.replicate_one, exec_cons, hbreak s hdown hpc, Option.bind_some, exec_cons,
        hleave { s with listener := .testing } hdown rfl]
      rfl
  | receiving => exact absurd hpc hnot
  | handling =>
      refine ⟨3, le_rfl, ?_⟩
      have hhandled : s.step .listen = some { s with listener := .serving } := by
        simp [ApplySignals.step, listenStep, hpc]
      rw [List.replicate_succ, List.replicate_succ, List.replicate_one, exec_cons, hhandled, Option.bind_some, exec_cons,
        hbreak { s with listener := .serving } hdown rfl, Option.bind_some, exec_cons,
        hleave { s with listener := .testing } hdown rfl]
      rfl
  | exited =>
      refine ⟨0, le_rfl, ?_⟩
      rw [List.replicate_zero, exec_nil, ← hpc]

/-- The steps that wake nobody up. -/
def Silent : ApplySignalsOp ι → Prop
  | .wake | .notify _ | .handle _ => False
  | .loop _ | .append _ _ | .commit _ | .listen | .connect | .receive | .hangUp | .stop | .stopNotify | .stopClose
  | .joinListener | .join => True

/-- `stop` waits for one of the threads, and for the apply loop it will wait for ever. -/
def Waiting (s : ApplySignals ι) : Prop :=
  s.stopper = .closing ∨ s.stopper = .joiningListener ∨ s.stopper = .joining

/-- The loop is asleep or about to be. -/
def Asleep (s : ApplySignals ι) : Prop := s.loop = .blocked ∨ s.loop = .sleeping ∧ s.asleep = true

/-- A loop that has missed the notification sleeps on. -/
theorem asleep_step (h : s.Waiting ∧ s.Asleep) {op : ApplySignalsOp ι} (hop : Silent op) (hs : s.step op = some s') :
    s'.Waiting ∧ s'.Asleep := by
  obtain ⟨hwaiting, hsleeps⟩ := h
  have hloop : ∀ pc, s.loop = pc → pc ≠ .blocked → pc ≠ .sleeping → False := by
    rintro _ rfl hblocked hsleeping
    rcases hsleeps with hpc | ⟨hpc, -⟩
    · exact hblocked hpc
    · exact hsleeping hpc
  cases Effect.of_step hs with
  | goes hgoes =>
      cases hgoes with
      | relocks hpc hwoken =>
          rcases hsleeps with hblocked | ⟨-, hasleep⟩
          · exact absurd (hpc.symm.trans hblocked) (by simp)
          · exact absurd (hasleep.symm.trans hwoken) (by simp)
      | leaves hpc _ | goesOn hpc _ | locks hpc | finds hpc _ | blocks hpc _ | breaks hpc _ | scans hpc _ | stuck hpc _ =>
          exact (hloop _ hpc (by simp) (by simp)).elim
  | sleep _ => exact ⟨hwaiting, Or.inr ⟨rfl, rfl⟩⟩
  | begin hpc _ | called hpc _ | applied hpc _ | join _ hpc => exact (hloop _ hpc (by simp) (by simp)).elim
  | append _ _ _ | commit _ _ _ | listener _ => exact ⟨hwaiting, hsleeps⟩
  | stopClose _ => exact ⟨Or.inr (Or.inl rfl), hsleeps⟩
  | joinListener _ _ => exact ⟨Or.inr (Or.inr rfl), hsleeps⟩
  | stop hpc | stopNotify hpc => exact absurd hwaiting (by simp [Waiting, hpc])
  | wake | notify _ | handle _ _ _ => exact hop.elim

/-- `stop` has still to join the listening thread, which waits in `recv`. -/
def Receiving (s : ApplySignals ι) : Prop :=
  (s.stopper = .closing ∨ s.stopper = .joiningListener) ∧ s.listener = .receiving

/-- A listener in `recv` stays there until something comes or the peer hangs up. -/
theorem receiving_step (h : s.Receiving) {op : ApplySignalsOp ι} (hop : op ≠ .receive ∧ op ≠ .hangUp)
    (hs : s.step op = some s') : s'.Receiving := by
  obtain ⟨hwaiting, hpc⟩ := h
  cases Effect.of_step hs with
  | listener hlistens =>
      cases hlistens with
      | receive _ => exact absurd rfl hop.1
      | hangUp _ => exact absurd rfl hop.2
      | leaves h _ | accepts h _ | refused h _ | breaks h _ | waits h _ | handled h | connect h _ =>
          exact absurd (hpc.symm.trans h) (by simp)
  | stopClose _ => exact ⟨Or.inr rfl, hpc⟩
  | joinListener _ hexited => exact absurd (hpc.symm.trans hexited) (by simp)
  | stop h | stopNotify h | join h _ => exact absurd hwaiting (by simp [h])
  | goes _ | sleep _ | begin _ _ | called _ _ | applied _ _ | wake | append _ _ _ | commit _ _ _ | notify _
  | handle _ _ _ => exact ⟨hwaiting, hpc⟩

/-- The steps of the apply loop, of the listening thread as long as nobody sends or hangs up, and of `stop`. -/
def Own : ApplySignalsOp ι → Prop
  | .loop _ | .listen | .stopClose | .joinListener | .join => True
  | _ => False

theorem stopper_of_stopNotify {role : NodeRole} {ops : List (ApplySignalsOp ι)}
    (h : exec ApplySignals.step (start role ι) (ops ++ [.stopNotify]) = some s) :
    s.asleep = false ∧ (role = .leader → s.stopper = .joining) ∧ (role = .follower → s.stopper = .closing) := by
  have hrole := role_of_exec h
  obtain ⟨t, ht, hs⟩ := exec_concat_eq_some h
  cases Effect.of_step hs with
  | stopNotify _ =>
      have hrole : t.role = role := hrole
      refine ⟨rfl, ?_, ?_⟩
      · rintro rfl
        simp [hrole]
      · rintro rfl
        simp [hrole]
  | listener hlistens => cases hlistens

/-- `stop` gets to the join of the apply loop. -/
theorem exists_leaving (hinv : Inv s) (hdown : s.shutdown = true) (hawake : s.asleep = false)
    (hunblocked : s.loop ≠ .blocked) (hstopper : s.stopper = .joining ∨ s.stopper = .closing ∧ s.listener ≠ .receiving) :
    ∃ first, (∀ op ∈ first, Own op) ∧ first.length ≤ 5 ∧ ∃ t, exec ApplySignals.step s first = some t ∧ Leaving t ∧
      t.replica = s.replica ∧ t.loop = s.loop := by
  rcases hstopper with hjoining | ⟨hclosing, hnot⟩
  · exact ⟨[], by simp, by simp, s, rfl, ⟨hinv, hdown, hjoining, hawake, hunblocked⟩, rfl, rfl⟩
  · obtain ⟨k, hk, hlistened⟩ := exists_listened (s := { s with listening := false, stopper := .joiningListener }) hdown
      rfl hnot
    have hrank : listenRank s.listener ≤ 3 := by
      cases s.listener <;> simp [listenRank]
    refine ⟨.stopClose :: (List.replicate k .listen ++ [.joinListener]), ?_, ?_,
      { s with listening := false, listener := .exited, stopper := .joining }, ?_,
      ⟨⟨hinv.le, hinv.idle, hinv.found, hinv.called, hinv.asleep, hinv.blocked, hinv.waits, hinv.calls, hinv.leader⟩,
        hdown, rfl, hawake, hunblocked⟩, rfl, rfl⟩
    · intro op hop
      rcases List.mem_cons.mp hop with rfl | hop
      · trivial
      · rcases List.mem_append.mp hop with hop | hop
        · rw [List.eq_of_mem_replicate hop]
          trivial
        · rw [List.mem_singleton.mp hop]
          trivial
    · have hk : k ≤ listenRank s.listener := hk
      rw [List.length_cons, List.length_append, List.length_replicate, List.length_singleton]
      omega
    · have hclose : s.step .stopClose = some { s with listening := false, stopper := .joiningListener } := by
        simp [ApplySignals.step, hclosing]
      rw [exec_cons, hclose, Option.bind_some, exec_concat, hlistened]
      rfl

/-- **The joins of `stop` return, or they hang.** When `stop` has notified, the loop is not between its test and its
    sleep, and the listening thread of a follower does not wait in `recv`, both threads exit on their own and the joins
    return, after at most three steps for each entry that is committed and ten more. If the loop is between its test and
    its sleep, they do not return in any run in which nothing else wakes the loop up; if the listening thread waits in
    `recv`, not before the leader sends or hangs up. -/
theorem stop_returns_or_hangs {role : NodeRole} {ops : List (ApplySignalsOp ι)}
    (h : exec ApplySignals.step (start role ι) (ops ++ [.stopNotify]) = some s) :
    (s.loop ≠ .blocked → (role = .follower → s.listener ≠ .receiving) →
      ∃ more, (∀ op ∈ more, Own op) ∧ more.length ≤ 3 * (s.replica.commitIndex - s.replica.lastApplied) + 10 ∧
        ∃ t, exec ApplySignals.step s more = some t ∧ t.stopper = .returned) ∧
    (s.loop = .blocked → ∀ more t, (∀ op ∈ more, Silent op) → exec ApplySignals.step s more = some t →
      t.stopper ≠ .returned) ∧
    (role = .follower → s.listener = .receiving → ∀ more t, (∀ op ∈ more, op ≠ .receive ∧ op ≠ .hangUp) →
      exec ApplySignals.step s more = some t → t.stopper ≠ .returned) := by
  obtain ⟨hawake, hleads, hfollows⟩ := stopper_of_stopNotify h
  have hwaiting : s.Waiting := by
    cases role with
    | leader => exact Or.inr (Or.inr (hleads rfl))
    | follower => exact Or.inl (hfollows rfl)
  have hnotReturned : ∀ {t : ApplySignals ι}, t.Waiting → t.stopper ≠ .returned := by
    rintro t hwaits hreturned
    simp [Waiting, hreturned] at hwaits
  refine ⟨fun hunblocked hreceives => ?_, fun hblocked more t hmore ht => ?_,
    fun hfollower hreceives more t hmore ht => ?_⟩
  · have hdown : s.shutdown = true := shutdown_of_stopper h (by
      intro hrunning
      simp [Waiting, hrunning] at hwaiting)
    obtain ⟨first, hown, hlen, u, hu, hleaving, hreplica, hloop⟩ := exists_leaving (inv_of_exec h) hdown hawake hunblocked
      (show s.stopper = .joining ∨ s.stopper = .closing ∧ s.listener ≠ .receiving by
        cases role with
        | leader => exact Or.inl (hleads rfl)
        | follower => exact Or.inr ⟨hfollows rfl, hreceives rfl⟩)
    obtain ⟨k, hk, t, ht, hreturned⟩ := hleaving.exists_returned ⟨0, 0, .put, [], []⟩
    have hrank : exitRank s.loop ≤ 4 := by
      cases s.loop <;> simp [exitRank]
    refine ⟨first ++ (List.replicate k (.loop ⟨0, 0, .put, [], []⟩) ++ [.join]), ?_, ?_, t, ?_, hreturned⟩
    · intro op hop
      rcases List.mem_append.mp hop with hop | hop
      · exact hown op hop
      · rcases List.mem_append.mp hop with hop | hop
        · rw [List.eq_of_mem_replicate hop]
          trivial
        · rw [List.mem_singleton.mp hop]
          trivial
    · rw [toApply, hreplica, hloop] at hk
      rw [List.length_append, List.length_append, List.length_replicate, List.length_singleton]
      omega
    · rw [exec_append, hu]
      exact ht
  · have hend := exec_invariant_of_meets (I := fun s : ApplySignals ι => s.Waiting ∧ s.Asleep) ⟨hwaiting, Or.inl hblocked⟩
      (fun _ _ _ hi hop hs => asleep_step hi hop hs) (meets_of_forall (fun op hop _ => hmore op hop) s) ht
    exact hnotReturned hend.1
  · have hend := exec_invariant_of_meets (I := Receiving) (C := fun _ op => op ≠ .receive ∧ op ≠ .hangUp)
      ⟨Or.inl (hfollows hfollower), hreceives⟩ (fun _ _ _ hi hop hs => receiving_step hi hop hs)
      (meets_of_forall (fun op hop _ => hmore op hop) s) ht
    rcases hend.1 with hstopper | hstopper
    · simp [hstopper]
    · simp [hstopper]

/-- `stop` stores and notifies before the loop's test, and between its test and its sleep; and while the listening thread
    waits in `recv`. -/
theorem stop_returns_or_hangs_samples :
    let loops (k : Nat) : List (ApplySignalsOp Nat) := List.replicate k (.loop ⟨0, 0, .put, [], []⟩)
    let stop : List (ApplySignalsOp Nat) := [.stop]
    let listening : List (ApplySignalsOp Nat) := [.listen, .connect, .listen, .stop]
    (∃ s, exec ApplySignals.step (start .follower Nat) (loops 2 ++ stop ++ [ApplySignalsOp.stopNotify]) = some s ∧
      ∃ more t, exec ApplySignals.step s more = some t ∧ t.stopper = .returned) ∧
    (∃ s, exec ApplySignals.step (start .leader Nat) (loops 3 ++ stop ++ [ApplySignalsOp.stopNotify]) = some s ∧
      ∀ more t, (∀ op ∈ more, Silent op) → exec ApplySignals.step s more = some t → t.stopper ≠ .returned) ∧
    ∃ s, exec ApplySignals.step (start .follower Nat) (loops 2 ++ listening ++ [ApplySignalsOp.stopNotify]) = some s ∧
      ∀ more t, (∀ op ∈ more, op ≠ .receive ∧ op ≠ .hangUp) → exec ApplySignals.step s more = some t →
        t.stopper ≠ .returned := by
  intro loops stop listening
  have hbefore : (exec ApplySignals.step (start .follower Nat) (loops 2 ++ stop ++ [ApplySignalsOp.stopNotify])).map
      (fun s => (s.loop, s.listener)) = some (.holding, .testing) := by decide
  have hbetween : (exec ApplySignals.step (start .leader Nat) (loops 3 ++ stop ++ [ApplySignalsOp.stopNotify])).map
      (·.loop) = some .blocked := by decide
  have hconnected : (exec ApplySignals.step (start .follower Nat)
      (loops 2 ++ listening ++ [ApplySignalsOp.stopNotify])).map (·.listener) = some .receiving := by decide
  obtain ⟨s, hs, hholding⟩ := Option.map_eq_some_iff.mp hbefore
  obtain ⟨u, hu, hblocked⟩ := Option.map_eq_some_iff.mp hbetween
  obtain ⟨v, hv, hreceiving⟩ := Option.map_eq_some_iff.mp hconnected
  obtain ⟨hloop, hlistener⟩ := Prod.mk.inj hholding
  obtain ⟨more, -, -, t, ht, hreturned⟩ := (stop_returns_or_hangs hs).1 (by simp [hloop]) (by simp [hlistener])
  exact ⟨⟨s, hs, more, t, ht, hreturned⟩, ⟨u, hu, (stop_returns_or_hangs hu).2.1 hblocked⟩, v, hv,
    (stop_returns_or_hangs hv).2.2 rfl hreceiving⟩

end ApplySignals

end KvStorageEngine.Distributed
