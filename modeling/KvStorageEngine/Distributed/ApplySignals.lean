import KvStorageEngine.Distributed.Replica
import Mathlib.Logic.Function.Basic

/-!
# `Distributed.ApplySignals` — how the apply loop is woken up and stopped

`applyLoop`, `stop`, and what wakes the loop up: `replicate` of a leader and `handleReplication` of a follower
(`distributed/replication/leader.cpp`, `follower.cpp`), with `log_mutex_` and `apply_cv_`. What the loop does to the log
is `Replica.beginApply`, `Replica.callApply` and `Replica.endApply`.

The loop tests its predicate under the mutex and gives it up when it goes to sleep; one that is woken up, for a reason
or for none, takes the mutex and tests again. A follower commits and notifies under the mutex; a leader commits under it
and notifies when the entry has been shipped, some time later. `stop` stores `shutdown_` without the mutex and notifies;
a follower's then closes the listening socket and joins the thread that listens before the one that applies. The other
threads hold the mutex within one step only. The callback is set, as `TcpServer` does before it starts a node.

The listening thread of a follower serves one connection after the other. It waits in `accept`, until a leader connects
or the socket is closed, and in `recv`, until the leader sends or hangs up.
-/

namespace KvStorageEngine.Distributed

/-- Where the apply loop is: it holds the mutex in `holding`, `blocked`, `woken` and `scanning`. -/
inductive ApplyPc where
  | testing
  | locking
  | holding
  | blocked
  | sleeping
  | woken
  | scanning
  | applying
  | relocking
  | exited
  deriving DecidableEq, Repr

namespace ApplyPc

/-- Whether the loop holds the mutex between two of its steps. -/
def holds : ApplyPc → Bool
  | .holding | .blocked | .woken | .scanning => true
  | .testing | .locking | .sleeping | .applying | .relocking | .exited => false

end ApplyPc

/-- Where a call of `Leader::replicate` is: it ships its entry in `committed`, and then notifies. -/
inductive CommitPc where
  | outside
  | appended
  | committed
  | returned
  deriving DecidableEq, Repr

/-- Where a follower's listening thread is: at the tests of its two loops, in `accept`, in `recv`, and at the lines that
    it has received. A leader has no such thread. -/
inductive ListenerPc where
  | testing
  | accepting
  | serving
  | receiving
  | handling
  | exited
  deriving DecidableEq, Repr

/-- Where the thread is that calls `stop`. -/
inductive StopApplyPc where
  | running
  | notifying
  | closing
  | joiningListener
  | joining
  | returned
  deriving DecidableEq, Repr

/-- A leader or a follower with its apply loop; `ι` names the calls of `replicate`. -/
structure ApplySignals (ι : Type) where
  role : NodeRole
  replica : Replica
  shutdown : Bool
  loop : ApplyPc
  /-- Whether the loop is in the wait set of `apply_cv_`. -/
  asleep : Bool
  calls : ι → CommitPc
  listener : ListenerPc
  /-- Whether the listening socket is open. -/
  listening : Bool
  stopper : StopApplyPc

/-- A step of the apply loop, of a call of `replicate`, of the listening thread or of the one that stops the node.
    `memory` is what the callback reads where its iterator dangles, `wake` a wake-up for no reason; a leader connects,
    sends and hangs up in `connect`, `receive` and `hangUp`. -/
inductive ApplySignalsOp (ι : Type) where
  | loop (memory : LogEntry)
  | wake
  | append (i : ι) (entry : LogEntry)
  | commit (i : ι)
  | notify (i : ι)
  | listen
  | connect
  | receive
  | hangUp
  | handle (msg : ReplicationMessage)
  | stop
  | stopNotify
  | stopClose
  | joinListener
  | join
  deriving DecidableEq, Repr

namespace ApplySignals

variable {ι : Type}

/-- The node has been started. -/
def start (role : NodeRole) (ι : Type) : ApplySignals ι :=
  ⟨role, Replica.new, false, .testing, false, fun _ => .outside, match role with
    | .leader => .exited
    | .follower => .testing, role = .follower, .running⟩

def setCall [DecidableEq ι] (s : ApplySignals ι) (i : ι) (pc : CommitPc) : ApplySignals ι :=
  { s with calls := Function.update s.calls i pc }

/-- `shutdown_ || commit_index_ > last_applied_`. -/
def predicate (s : ApplySignals ι) : Bool := s.shutdown || s.replica.lastApplied < s.replica.commitIndex

/-- `applyLoop`, one step of it. -/
def loopStep (s : ApplySignals ι) (memory : LogEntry) : Option (ApplySignals ι) :=
  match s.loop with
  | .testing => some { s with loop := if s.shutdown then .exited else .locking }
  | .locking => some { s with loop := .holding }
  | .holding => some { s with loop := if s.predicate then .woken else .blocked }
  | .blocked => some { s with loop := .sleeping, asleep := true }
  | .sleeping => if s.asleep then none else some { s with loop := .holding }
  | .woken => some { s with loop := if s.shutdown then .exited else .scanning }
  | .scanning =>
    match s.replica.beginApply with
    | some replica => some { s with replica, loop := .applying }
    -- nothing more is committed, or the entry is not there
    | none => some { s with loop := .testing }
  | .applying => (s.replica.callApply memory).map fun replica => { s with replica, loop := .relocking }
  | .relocking => s.replica.endApply.map fun replica => { s with replica, loop := .scanning }
  | .exited => none

/-- `listenerLoop` and `handleConnection`, one step of them that waits for nobody. -/
def listenStep (s : ApplySignals ι) : Option (ApplySignals ι) :=
  match s.listener with
  | .testing => some { s with listener := if s.shutdown then .exited else .accepting }
  -- `accept` fails once the socket is closed
  | .accepting => if s.listening then none else some { s with listener := if s.shutdown then .exited else .testing }
  | .serving => some { s with listener := if s.shutdown then .testing else .receiving }
  | .handling => some { s with listener := .serving }
  | .receiving | .exited => none

variable [DecidableEq ι]

/-- One step, `none` where the thread is not at that point or would wait. -/
def step (s : ApplySignals ι) : ApplySignalsOp ι → Option (ApplySignals ι)
  | .loop memory => s.loopStep memory
  | .wake => if s.asleep then some { s with asleep := false } else none
  | .append i entry =>
    match s.role, s.calls i with
    | .leader, .outside =>
      if s.loop.holds then none else some ({ s with replica := Leader.appendLog s.replica entry }.setCall i .appended)
    | _, _ => none
  | .commit i =>
    match s.calls i with
    | .appended =>
      if s.loop.holds then none
      else (Leader.commitLast s.replica).map fun replica => { s with replica }.setCall i .committed
    | _ => none
  | .notify i =>
    match s.calls i with
    | .committed => some ({ s with asleep := false }.setCall i .returned)
    | _ => none
  | .listen => s.listenStep
  | .connect =>
    match s.listener, s.listening with
    | .accepting, true => some { s with listener := .serving }
    | _, _ => none
  | .receive =>
    match s.listener with
    | .receiving => some { s with listener := .handling }
    | _ => none
  | .hangUp =>
    match s.listener with
    | .receiving => some { s with listener := .testing }
    | _ => none
  | .handle msg =>
    match s.role, s.listener with
    | .follower, .handling =>
      if s.loop.holds then none
      else some { s with
        replica := Follower.handleReplication s.replica msg
        asleep := s.asleep && !decide (s.replica.commitIndex < msg.leaderCommit) }
    | _, _ => none
  | .stop =>
    match s.stopper with
    | .running => some { s with shutdown := true, stopper := .notifying }
    | _ => none
  | .stopNotify =>
    match s.stopper with
    | .notifying => some { s with asleep := false, stopper := match s.role with
        | .leader => .joining
        | .follower => .closing }
    | _ => none
  | .stopClose =>
    match s.stopper with
    | .closing => some { s with listening := false, stopper := .joiningListener }
    | _ => none
  | .joinListener =>
    match s.stopper, s.listener with
    | .joiningListener, .exited => some { s with stopper := .joining }
    | _, _ => none
  | .join =>
    match s.stopper, s.loop with
    | .joining, .exited => some { s with stopper := .returned }
    | _, _ => none

/-! ## What a step does -/

omit [DecidableEq ι] in
/-- The places that a step of the loop leads to where the log is left alone. -/
inductive Goes (s : ApplySignals ι) : ApplyPc → Prop where
  | leaves (hpc : s.loop = .testing) (hdown : s.shutdown = true) : Goes s .exited
  | goesOn (hpc : s.loop = .testing) (hup : s.shutdown = false) : Goes s .locking
  | locks (hpc : s.loop = .locking) : Goes s .holding
  | relocks (hpc : s.loop = .sleeping) (hwoken : s.asleep = false) : Goes s .holding
  | finds (hpc : s.loop = .holding) (hpred : s.predicate = true) : Goes s .woken
  | blocks (hpc : s.loop = .holding) (hpred : s.predicate = false) : Goes s .blocked
  | breaks (hpc : s.loop = .woken) (hdown : s.shutdown = true) : Goes s .exited
  | scans (hpc : s.loop = .woken) (hup : s.shutdown = false) : Goes s .scanning
  | stuck (hpc : s.loop = .scanning) (hnone : s.replica.beginApply = none) : Goes s .testing

/-- The loop does go there. -/
theorem step_of_goes {s : ApplySignals ι} {pc : ApplyPc} (h : Goes s pc) (memory : LogEntry) :
    s.step (.loop memory) = some { s with loop := pc } := by
  cases h with
  | leaves hpc hdown | breaks hpc hdown => simp [step, loopStep, hpc, hdown]
  | goesOn hpc hup | scans hpc hup => simp [step, loopStep, hpc, hup]
  | locks hpc => simp [step, loopStep, hpc]
  | relocks hpc hwoken => simp [step, loopStep, hpc, hwoken]
  | finds hpc hpred | blocks hpc hpred => simp [step, loopStep, hpc, hpred]
  | stuck hpc hnone => simp [step, loopStep, hpc, hnone]

omit [DecidableEq ι] in
/-- The places that the listening thread goes to. -/
inductive Listens (s : ApplySignals ι) : ApplySignalsOp ι → ListenerPc → Prop where
  | leaves (hpc : s.listener = .testing) (hdown : s.shutdown = true) : Listens s .listen .exited
  | accepts (hpc : s.listener = .testing) (hup : s.shutdown = false) : Listens s .listen .accepting
  | refused (hpc : s.listener = .accepting) (hclosed : s.listening = false) :
      Listens s .listen (if s.shutdown then .exited else .testing)
  | breaks (hpc : s.listener = .serving) (hdown : s.shutdown = true) : Listens s .listen .testing
  | waits (hpc : s.listener = .serving) (hup : s.shutdown = false) : Listens s .listen .receiving
  | handled (hpc : s.listener = .handling) : Listens s .listen .serving
  | connect (hpc : s.listener = .accepting) (hopen : s.listening = true) : Listens s .connect .serving
  | receive (hpc : s.listener = .receiving) : Listens s .receive .handling
  | hangUp (hpc : s.listener = .receiving) : Listens s .hangUp .testing

omit [DecidableEq ι] in
omit [DecidableEq ι] in
omit [DecidableEq ι] in
theorem Listens.of_listenStep {s s' : ApplySignals ι} (h : s.listenStep = some s') :
    ∃ pc, Listens s .listen pc ∧ s' = { s with listener := pc } := by
  unfold listenStep at h
  split at h
  next hpc =>
    by_cases hdown : s.shutdown = true
    · rw [if_pos hdown] at h
      exact ⟨_, .leaves hpc hdown, (Option.some.inj h).symm⟩
    · rw [if_neg hdown] at h
      exact ⟨_, .accepts hpc (by simpa using hdown), (Option.some.inj h).symm⟩
  next hpc =>
    by_cases hopen : s.listening = true
    · rw [if_pos hopen] at h
      contradiction
    · rw [if_neg hopen] at h
      exact ⟨_, .refused hpc (by simpa using hopen), (Option.some.inj h).symm⟩
  next hpc =>
    by_cases hdown : s.shutdown = true
    · rw [if_pos hdown] at h
      exact ⟨_, .breaks hpc hdown, (Option.some.inj h).symm⟩
    · rw [if_neg hdown] at h
      exact ⟨_, .waits hpc (by simpa using hdown), (Option.some.inj h).symm⟩
  next hpc => exact ⟨_, .handled hpc, (Option.some.inj h).symm⟩
  next => contradiction
  next => contradiction

/-- The effects of the steps, one constructor for each thing that can happen. -/
inductive Effect (s : ApplySignals ι) : ApplySignalsOp ι → ApplySignals ι → Prop where
  | goes {memory : LogEntry} {pc : ApplyPc} (hgoes : Goes s pc) : Effect s (.loop memory) { s with loop := pc }
  | sleep {memory : LogEntry} (hpc : s.loop = .blocked) :
      Effect s (.loop memory) { s with loop := .sleeping, asleep := true }
  | begin {memory : LogEntry} {replica : Replica} (hpc : s.loop = .scanning)
      (hbegin : s.replica.beginApply = some replica) : Effect s (.loop memory) { s with replica, loop := .applying }
  | called {memory : LogEntry} {replica : Replica} (hpc : s.loop = .applying)
      (hcall : s.replica.callApply memory = some replica) :
      Effect s (.loop memory) { s with replica, loop := .relocking }
  | applied {memory : LogEntry} {replica : Replica} (hpc : s.loop = .relocking)
      (hend : s.replica.endApply = some replica) : Effect s (.loop memory) { s with replica, loop := .scanning }
  | wake : Effect s .wake { s with asleep := false }
  | append {i : ι} {entry : LogEntry} (hrole : s.role = .leader) (hpc : s.calls i = .outside)
      (hfree : s.loop.holds = false) :
      Effect s (.append i entry) ({ s with replica := Leader.appendLog s.replica entry }.setCall i .appended)
  | commit {i : ι} {replica : Replica} (hpc : s.calls i = .appended) (hfree : s.loop.holds = false)
      (hcommit : Leader.commitLast s.replica = some replica) :
      Effect s (.commit i) ({ s with replica }.setCall i .committed)
  | notify {i : ι} (hpc : s.calls i = .committed) :
      Effect s (.notify i) ({ s with asleep := false }.setCall i .returned)
  | listener {op : ApplySignalsOp ι} {pc : ListenerPc} (hlistens : Listens s op pc) :
      Effect s op { s with listener := pc }
  | handle {msg : ReplicationMessage} (hrole : s.role = .follower) (hpc : s.listener = .handling)
      (hfree : s.loop.holds = false) :
      Effect s (.handle msg) { s with
        replica := Follower.handleReplication s.replica msg
        asleep := s.asleep && !decide (s.replica.commitIndex < msg.leaderCommit) }
  | stop (hpc : s.stopper = .running) : Effect s .stop { s with shutdown := true, stopper := .notifying }
  | stopNotify (hpc : s.stopper = .notifying) : Effect s .stopNotify
      { s with asleep := false, stopper := match s.role with
      | .leader => .joining
      | .follower => .closing }
  | stopClose (hpc : s.stopper = .closing) :
      Effect s .stopClose { s with listening := false, stopper := .joiningListener }
  | joinListener (hpc : s.stopper = .joiningListener) (hexited : s.listener = .exited) :
      Effect s .joinListener { s with stopper := .joining }
  | join (hpc : s.stopper = .joining) (hexited : s.loop = .exited) : Effect s .join { s with stopper := .returned }

theorem Effect.of_loopStep {s s' : ApplySignals ι} {memory : LogEntry} (h : s.loopStep memory = some s') :
    Effect s (.loop memory) s' := by
  unfold loopStep at h
  split at h
  next hpc =>
    by_cases hdown : s.shutdown = true
    · rw [if_pos hdown] at h
      exact Option.some.inj h ▸ .goes (.leaves hpc hdown)
    · rw [if_neg hdown] at h
      exact Option.some.inj h ▸ .goes (.goesOn hpc (by simpa using hdown))
  next hpc => exact Option.some.inj h ▸ .goes (.locks hpc)
  next hpc =>
    by_cases hpred : s.predicate = true
    · rw [if_pos hpred] at h
      exact Option.some.inj h ▸ .goes (.finds hpc hpred)
    · rw [if_neg hpred] at h
      exact Option.some.inj h ▸ .goes (.blocks hpc (by simpa using hpred))
  next hpc => exact Option.some.inj h ▸ .sleep hpc
  next hpc =>
    split_ifs at h with hasleep
    exact Option.some.inj h ▸ .goes (.relocks hpc (by simpa using hasleep))
  next hpc =>
    by_cases hdown : s.shutdown = true
    · rw [if_pos hdown] at h
      exact Option.some.inj h ▸ .goes (.breaks hpc hdown)
    · rw [if_neg hdown] at h
      exact Option.some.inj h ▸ .goes (.scans hpc (by simpa using hdown))
  next hpc =>
    split at h
    next replica hbegin => exact Option.some.inj h ▸ .begin hpc hbegin
    next hnone => exact Option.some.inj h ▸ .goes (.stuck hpc hnone)
  next hpc =>
    obtain ⟨replica, hcall, rfl⟩ := Option.map_eq_some_iff.mp h
    exact .called hpc hcall
  next hpc =>
    obtain ⟨replica, hend, rfl⟩ := Option.map_eq_some_iff.mp h
    exact .applied hpc hend
  next => contradiction

/-- Every step has one of these effects. -/
theorem Effect.of_step {s s' : ApplySignals ι} {op : ApplySignalsOp ι} (h : s.step op = some s') : Effect s op s' := by
  cases op with
  | loop memory => exact .of_loopStep h
  | wake =>
      simp only [step] at h
      split_ifs at h
      exact Option.some.inj h ▸ .wake
  | append i entry =>
      simp only [step] at h
      split at h <;> try contradiction
      next hrole hpc =>
        split_ifs at h with hholds
        exact Option.some.inj h ▸ .append hrole hpc (by simpa using hholds)
  | commit i =>
      simp only [step] at h
      split at h <;> try contradiction
      next hpc =>
        split_ifs at h with hholds
        obtain ⟨replica, hcommit, rfl⟩ := Option.map_eq_some_iff.mp h
        exact .commit hpc (by simpa using hholds) hcommit
  | notify i =>
      simp only [step] at h
      split at h <;> try contradiction
      next hpc => exact Option.some.inj h ▸ .notify hpc
  | listen =>
      obtain ⟨pc, hlistens, rfl⟩ := Listens.of_listenStep h
      exact .listener hlistens
  | connect =>
      simp only [step] at h
      split at h <;> try contradiction
      next hpc hopen => exact Option.some.inj h ▸ .listener (.connect hpc hopen)
  | receive =>
      simp only [step] at h
      split at h <;> try contradiction
      next hpc => exact Option.some.inj h ▸ .listener (.receive hpc)
  | hangUp =>
      simp only [step] at h
      split at h <;> try contradiction
      next hpc => exact Option.some.inj h ▸ .listener (.hangUp hpc)
  | handle msg =>
      simp only [step] at h
      split at h <;> try contradiction
      next hrole hpc =>
        split_ifs at h with hholds
        exact Option.some.inj h ▸ .handle hrole hpc (by simpa using hholds)
  | stop =>
      simp only [step] at h
      split at h <;> try contradiction
      next hpc => exact Option.some.inj h ▸ .stop hpc
  | stopNotify =>
      simp only [step] at h
      split at h <;> try contradiction
      next hpc => exact Option.some.inj h ▸ .stopNotify hpc
  | stopClose =>
      simp only [step] at h
      split at h <;> try contradiction
      next hpc => exact Option.some.inj h ▸ .stopClose hpc
  | joinListener =>
      simp only [step] at h
      split at h <;> try contradiction
      next hpc hexited => exact Option.some.inj h ▸ .joinListener hpc hexited
  | join =>
      simp only [step] at h
      split at h <;> try contradiction
      next hpc hexited => exact Option.some.inj h ▸ .join hpc hexited

end ApplySignals

end KvStorageEngine.Distributed
