import KvStorageEngine.Distributed.Correctness.AppliedPrefix
import KvStorageEngine.Engine.Correctness.LiveReads
import KvStorageEngine.Server.TcpServer

/-!
# `Server.Correctness.NodeInvariant` — the nodes' engines and the leader's log

What holds in every state of the leader's node, as long as the engines' steps are sound: the cluster is in a reachable
state of a cluster, and so is every engine; what the apply loop of a node has asked of its engine are the entries it has
passed on, in log order; and what a handler has asked of the leader's engine is what its request says, which has its
entry in the log.

Layout of the file:
* **A** — entries and requests as the engine's writes.
* **B** — the cluster in a step of the node.
* **C** — the engines in a step of the node.
* **D** — the invariant.
-/

namespace KvStorageEngine.Server

open Distributed KeyedWrites Run

/-! ## A. Entries and requests

The apply loop turns an entry into a call of the engine, and so does a handler with a request. Both come to the same
write. -/

/-- What an entry asks of the engine. -/
def entryRequest (e : LogEntry) : WriteRequest :=
  match e.op with
  | .put => .put e.key e.value
  | .delete => .delete e.key

theorem request?_applyLogEntry (e : LogEntry) : (applyLogEntry e).request? = some (entryRequest e) := by
  obtain ⟨term, index, op, key, value⟩ := e
  cases op <;> rfl

/-- What a request asks of the engine when its handler gets there. -/
def Request.writeRequest? (req : Request) : Option WriteRequest := req.engineCall?.bind (·.request?)

theorem Request.writeRequest?_of_read {req : Request} (h : ¬ req.type.IsWrite) : req.writeRequest? = none := by
  obtain ⟨type, key, value⟩ := req
  cases type with
  | put => exact absurd (Or.inl rfl) h
  | delete => exact absurd (Or.inr rfl) h
  | _ => rfl

/-- What a handler has asked of the engine by now. -/
def Handler.asked (handler : Handler) : List WriteRequest :=
  match handler.pc with
  | .replicating | .executing => []
  | .calling | .answered _ => handler.request.writeRequest?.toList

/-! ## B. The cluster in a step of the node

The node adds the engines and the handlers to the cluster, and its steps are the cluster's or leave it alone. -/

section Replicas

variable {n : Nat} {c c' : Cluster n}

/-- What a step of an apply loop does to its replica. -/
def LoopStep.run (r : Replica) : LoopStep → Option Replica
  | .begin => r.beginApply
  | .call memory => r.callApply memory
  | .applied => r.endApply

/-- It does nothing else. -/
theorem replica_loop {who : Option (Fin n)} {l : LoopStep} (h : c.step (l.op who) = some c') :
    l.run (c.replica who) = some (c'.replica who) ∧ c'.leader.log = c.leader.log ∧
      ∀ other, other ≠ who → c'.replica other = c.replica other := by
  have hleader {r : Replica} (hrun : l.run c.leader = some r) (hlog : r.log = c.leader.log) :
      l.run (c.replica none) = some (({ c with leader := r } : Cluster n).replica none) ∧ r.log = c.leader.log ∧
        ∀ other, other ≠ none → ({ c with leader := r } : Cluster n).replica other = c.replica other := by
    refine ⟨hrun, hlog, fun other hne => ?_⟩
    cases other with
    | none => exact absurd rfl hne
    | some p => rfl
  have hfollower {p : Fin n} {f : Replica} (hrun : l.run (c.peers p).follower = some f) :
      l.run (c.replica (some p)) = some ((c.setFollower p f).replica (some p)) ∧
        (c.setFollower p f).leader.log = c.leader.log ∧
        ∀ other, other ≠ some p → (c.setFollower p f).replica other = c.replica other := by
    refine ⟨?_, rfl, fun other hne => ?_⟩
    · have hself : (c.setFollower p f).replica (some p) = f := by
        show ((c.setFollower p f).peers p).follower = f
        rw [Cluster.setFollower, Cluster.peers_setPeer_self]
      rw [hself]
      exact hrun
    · cases other with
      | none => rfl
      | some q =>
          show ((c.setFollower p f).peers q).follower = (c.peers q).follower
          rw [Cluster.setFollower, Cluster.peers_setPeer_ne c (by simpa using hne)]
  cases who with
  | none =>
      cases l with
      | begin =>
          cases Cluster.Effect.of_step h with
          | leaderApply hl =>
              refine hleader hl ?_
              obtain ⟨-, -, e, -, rfl⟩ := Replica.beginApply_eq_some.mp hl
              rfl
      | call memory =>
          cases Cluster.Effect.of_step h with
          | leaderCall hl =>
              refine hleader hl ?_
              obtain ⟨i, it, -, rfl⟩ := Replica.callApply_eq_some.mp hl
              rfl
      | applied =>
          cases Cluster.Effect.of_step h with
          | leaderApplied hl =>
              refine hleader hl ?_
              obtain ⟨i, e, -, rfl⟩ := Replica.endApply_eq_some.mp hl
              rfl
  | some p =>
      cases l with
      | begin =>
          cases Cluster.Effect.of_step h with
          | followerApply hf => exact hfollower hf
      | call memory =>
          cases Cluster.Effect.of_step h with
          | followerCall hf => exact hfollower hf
      | applied =>
          cases Cluster.Effect.of_step h with
          | followerApplied hf => exact hfollower hf

/-- The other steps leave what the replicas have passed on. -/
theorem replica_rest {op : ClusterOp n} (h : c.step op = some c') (hop : ∀ who (l : LoopStep), op ≠ l.op who)
    (who : Option (Fin n)) : (c'.replica who).passed = (c.replica who).passed ∧
      (c'.replica who).applying.entry? = (c.replica who).applying.entry? := by
  cases who with
  | none =>
      cases Cluster.Effect.of_step h with
      | append entry hpc =>
          have happended := c.leader.appended_pushBack (c.leader.indexed entry)
          exact ⟨happended.passed, happended.entry?⟩
      | leaderApply hl => exact absurd rfl (hop none .begin)
      | @leaderCall memory l hl => exact absurd rfl (hop none (.call memory))
      | leaderApplied hl => exact absurd rfl (hop none .applied)
      | _ => exact ⟨rfl, rfl⟩
  | some p =>
      have hfollower : (c'.peers p).follower.passed = (c.peers p).follower.passed ∧
          (c'.peers p).follower.applying.entry? = (c.peers p).follower.applying.entry? := by
        cases Cluster.followerStep_of_step h p with
        | @handle i answered msg hmsg hf =>
            have happended := (c.peers p).follower.appended_foldl msg.entries
            rw [hf]
            exact ⟨happended.passed, happended.entry?⟩
        | begin hf => exact absurd rfl (hop (some p) .begin)
        | @call memory hf => exact absurd rfl (hop (some p) (.call memory))
        | applied hf => exact absurd rfl (hop (some p) .applied)
        | rest hop hf => exact ⟨congrArg Replica.passed hf, congrArg (·.applying.entry?) hf⟩
      exact hfollower

end Replicas

namespace LeaderNode

variable [Platform] {n : Nat} {s s' : LeaderNode n}

omit [Platform] in
theorem ne_loop_of_inner {op : ClusterOp n} (hop : inner op = true) (who : Option (Fin n)) (l : LoopStep) :
    op ≠ l.op who := by
  rintro rfl
  cases who <;> cases l <;> exact absurd hop (by simp [inner, LoopStep.op])

/-- The step of the cluster that a step of the node is. -/
def clusterOp : NodeOp n → Option (ClusterOp n)
  | .request t req => if req.type.IsWrite then some (.append t req.toEntry) else none
  | .cluster op => some op
  | .applyBegin who => some (LoopStep.begin.op who)
  | .applyCall who memory => some ((LoopStep.call memory).op who)
  | .applyEnd who => some (LoopStep.applied.op who)
  | .replicated _ | .execute _ _ | .returned _ | .engine _ _ | .read _ _ _ | .applyWrite _ => none

/-- A step of the node is at most one step of its cluster. -/
theorem cluster_step {op : NodeOp n} (h : s.step op = some s') :
    clusterOp op = none ∧ s'.cluster = s.cluster ∨
      ∃ cop, clusterOp op = some cop ∧ s.cluster.step cop = some s'.cluster := by
  cases Effect.of_step h with
  | replicate _ hwrite hc => exact Or.inr ⟨_, if_pos hwrite, hc⟩
  | start _ hread => exact Or.inl ⟨if_neg hread, rfl⟩
  | cluster _ hc | applyBegin hc | applyCall hc | applyEnd _ _ hc => exact Or.inr ⟨_, rfl, hc⟩
  | _ => exact Or.inl ⟨rfl, rfl⟩

theorem cluster_inv_step {op : NodeOp n} (hinv : s.cluster.Inv) (h : s.step op = some s') :
    s'.cluster.Inv := by
  rcases cluster_step h with ⟨-, hc⟩ | ⟨cop, -, hc⟩
  · exact hc ▸ hinv
  · exact hinv.step hc

/-- The cluster in a node is in a reachable state of a cluster. -/
theorem cluster_inv_of_exec {nodeId : Nat} {stores : Option (Fin n) → Store} {ops : List (NodeOp n)}
    (h : exec LeaderNode.step (init n nodeId stores) ops = some s) : s.cluster.Inv :=
  exec_invariant (I := fun s : LeaderNode n => s.cluster.Inv) (Cluster.inv_init n)
    (fun _ _ _ hi hs => cluster_inv_step hi hs) h

/-- The leader's log only grows. -/
theorem log_prefix_step {op : NodeOp n} (h : s.step op = some s') : s.cluster.leader.log <+: s'.cluster.leader.log := by
  rcases cluster_step h with ⟨-, hc⟩ | ⟨cop, -, hc⟩
  · exact hc ▸ List.prefix_refl _
  · exact Cluster.log_prefix_step hc

/-- No append has moved a replica's log since its apply loop took the iterator that the callback reads through. -/
def InTime (who : Option (Fin n)) (s : LeaderNode n) (op : NodeOp n) : Prop :=
  ∀ cop ∈ clusterOp op, Cluster.InTime who s.cluster cop

instance (who : Option (Fin n)) (s : LeaderNode n) (op : NodeOp n) : Decidable (InTime who s op) :=
  inferInstanceAs (Decidable (∀ cop ∈ clusterOp op, Cluster.InTime who s.cluster cop))

/-- A step in time keeps the callbacks with the log. -/
theorem applies_step {who : Option (Fin n)} (hinv : s.cluster.Inv)
    (happ : (s.cluster.replica who).Applies s.cluster.leader.log) {op : NodeOp n} (hC : InTime who s op)
    (h : s.step op = some s') : (s'.cluster.replica who).Applies s'.cluster.leader.log := by
  rcases cluster_step h with ⟨-, hc⟩ | ⟨cop, hop, hc⟩
  · exact hc ▸ happ
  · exact Cluster.applies_step hinv happ (hC cop hop) hc

/-- The leader's engine. -/
def engine (s : LeaderNode n) : LiveEngine Caller := s.engines none

/-- The steps of the engines are sound. -/
def Sound (s : LeaderNode n) : NodeOp n → Prop
  | .engine who op => (s.engines who).Sound op
  | _ => True

theorem sound_call (engine : LiveEngine Caller) (caller : Caller) (call : EngineCall) :
    engine.Sound (.call caller call) := ⟨trivial, trivial⟩

theorem engines_setEngine (s : LeaderNode n) (who other : Option (Fin n)) (engine : LiveEngine Caller) :
    (s.setEngine who engine).engines other = if other = who then engine else s.engines other :=
  Function.update_apply ..

theorem engine_setEngine (s : LeaderNode n) (engine : LiveEngine Caller) : (s.setEngine none engine).engine = engine :=
  (s.engines_setEngine none none engine).trans (if_pos rfl)

theorem engine_setEngine_follower (s : LeaderNode n) (p : Fin n) (engine : LiveEngine Caller) :
    (s.setEngine (some p) engine).engine = s.engine :=
  (s.engines_setEngine (some p) none engine).trans (if_neg (by simp))

/-- A step of the node is at most one step of an engine. -/
theorem engine_step {op : NodeOp n} (hC : s.Sound op) (h : s.step op = some s') (who : Option (Fin n)) :
    s'.engines who = s.engines who ∨
      ∃ eop, (s.engines who).Sound eop ∧ (s.engines who).step eop = some (s'.engines who) := by
  have hset {other : Option (Fin n)} {engine : LiveEngine Caller} {eop : LiveOp Caller}
      (hsound : (s.engines other).Sound eop) (he : (s.engines other).step eop = some engine) :
      (s.setEngine other engine).engines who = s.engines who ∨ ∃ eop, (s.engines who).Sound eop ∧
        (s.engines who).step eop = some ((s.setEngine other engine).engines who) := by
    rw [engines_setEngine]
    split_ifs with hwho
    · subst hwho
      exact Or.inr ⟨eop, hsound, he⟩
    · exact Or.inl rfl
  cases Effect.of_step h with
  | call _ _ he | read he | applyWrite _ _ he => exact hset (sound_call _ _ _) he
  | engine _ he => exact hset hC he
  | _ => exact Or.inl rfl

/-! ## D. The invariant

Each engine accounts for what its callers have asked of it. On a follower the only caller is the apply loop; on the
leader there are the handlers as well. -/

/-- What the running callback of a node has still to ask for. -/
def pending (s : LeaderNode n) (who : Option (Fin n)) : List WriteRequest :=
  if s.calledBack who then [] else (s.cluster.replica who).applying.entry?.toList.map entryRequest

/-- What the handler of a request has asked of a node's engine: nothing of a follower's. -/
def askedOf (s : LeaderNode n) (t : Nat) : Option (Fin n) → List WriteRequest
  | none => (s.handlers t).elim [] Handler.asked
  | some _ => []

structure Inv (stores : Option (Fin n) → Store) (s : LeaderNode n) : Prop where
  cluster : s.cluster.Inv
  engines : ∀ who, ∃ virt, LiveEngine.Inv (stores who).engine virt (s.engines who)
  applied : ∀ who, (s.engines who).account .applyLoop ++ s.pending who =
    (s.cluster.replica who).passed.map entryRequest
  accounts : ∀ who t, (s.engines who).account (.handler t) = s.askedOf t who
  logged : ∀ t handler, s.handlers t = some handler → handler.request.type.IsWrite →
    ∃ e ∈ s.cluster.leader.log, entryRequest e = entryRequest handler.request.toEntry
  called : ∀ t c, (s.engines none).calls (.handler t) = some c → ∃ handler, s.handlers t = some handler ∧
    handler.request.engineCall? = some c.call ∧
      (handler.pc = .calling ∨ c.Returned ∧ ∃ response, handler.pc = .answered response)
  callback : ∀ who, s.calledBack who = true → (s.cluster.replica who).applying.entry? ≠ none
  applying : ∀ who c, (s.engines who).calls .applyLoop = some c → s.calledBack who = true ∨ c.Returned

theorem inv_init (n nodeId : Nat) {stores : Option (Fin n) → Store} (hstores : ∀ who, (stores who).Started) :
    (init n nodeId stores).Inv stores where
  cluster := Cluster.inv_init n
  engines who := ⟨_, LiveEngine.inv_start (hstores who)⟩
  applied who := by cases who <;> rfl
  accounts who t := by cases who <;> rfl
  logged t handler ht := absurd ht (by simp [init])
  called t c hc := absurd hc (by simp [init, LiveEngine.start])
  callback who hcalled := absurd hcalled (by simp [init])
  applying who c hc := absurd hc (by simp [init, LiveEngine.start])

section Step

variable {stores : Option (Fin n) → Store}

theorem handlers_setHandler_self (s : LeaderNode n) (t : Nat) (req : Request) (pc : HandlerPc) :
    (s.setHandler t req pc).handlers t = some ⟨req, pc⟩ := Function.update_self ..

theorem handlers_setHandler_ne (s : LeaderNode n) {t u : Nat} (h : u ≠ t) (req : Request) (pc : HandlerPc) :
    (s.setHandler t req pc).handlers u = s.handlers u := Function.update_of_ne h ..

/-- What holds of every handler holds after one has moved, if it holds of that one at its new place. -/
theorem forall_handlers_setHandler {P : Nat → Handler → Prop} {t : Nat} {req : Request} {pc : HandlerPc}
    (h : ∀ u handler, s.handlers u = some handler → P u handler) (ht : P t ⟨req, pc⟩) :
    ∀ u handler, (s.setHandler t req pc).handlers u = some handler → P u handler := by
  intro u handler hu
  by_cases hut : u = t
  · subst hut
    rw [handlers_setHandler_self] at hu
    exact Option.some.inj hu ▸ ht
  · rw [handlers_setHandler_ne s hut] at hu
    exact h u handler hu

theorem Inv.pipeline (h : s.Inv stores) (who : Option (Fin n)) : LiveEngine.Pipeline (s.engines who) := by
  obtain ⟨virt, hinv⟩ := h.engines who
  exact hinv.pipeline

/-- An engine's accounts after one of its steps. -/
theorem Inv.account_setEngine (h : s.Inv stores) {who : Option (Fin n)} {eop : LiveOp Caller}
    {engine : LiveEngine Caller} (hsound : (s.engines who).Sound eop) (he : (s.engines who).step eop = some engine)
    (other : Option (Fin n)) (caller : Caller) : ((s.setEngine who engine).engines other).account caller =
      (s.engines other).account caller ++ if other = who then LiveEngine.asked caller eop else [] := by
  rw [engines_setEngine]
  split_ifs with hother
  · subst hother
    exact LiveEngine.account_step (h.pipeline other) hsound.1 he caller
  · exact (List.append_nil _).symm

/-- The handler moves on, its request stays. -/
theorem Inv.setHandler (h : s.Inv stores) {t : Nat} {req : Request} {pc : HandlerPc}
    (hlogged : req.type.IsWrite → ∃ e ∈ s.cluster.leader.log, entryRequest e = entryRequest req.toEntry)
    (hasked : Handler.asked ⟨req, pc⟩ = s.askedOf t none)
    (hcalled : ∀ c, (s.engines none).calls (.handler t) = some c → req.engineCall? = some c.call ∧
      (pc = .calling ∨ c.Returned ∧ ∃ response, pc = .answered response)) : (s.setHandler t req pc).Inv stores where
  cluster := h.cluster
  engines := h.engines
  applied := h.applied
  accounts who u := by
    refine (h.accounts who u).trans ?_
    cases who with
    | some p => rfl
    | none =>
        unfold askedOf
        by_cases hut : u = t
        · subst hut
          rw [handlers_setHandler_self]
          exact hasked.symm
        · rw [handlers_setHandler_ne s hut]
  logged := forall_handlers_setHandler h.logged hlogged
  called u c hc := by
    by_cases hut : u = t
    · subst hut
      exact ⟨_, handlers_setHandler_self s u req pc, hcalled c hc⟩
    · rw [handlers_setHandler_ne s hut]
      exact h.called u c hc
  callback := h.callback
  applying := h.applying

/-- Of the responses nothing is required. -/
theorem Inv.setAnswers (h : s.Inv stores) (answers : List Answer) : { s with answers := answers }.Inv stores :=
  ⟨h.cluster, h.engines, h.applied, h.accounts, h.logged, h.called, h.callback, h.applying⟩

/-- A handler that has not called the engine has no call there. -/
theorem Inv.not_called (h : s.Inv stores) {t : Nat} (hnot : ∀ handler, s.handlers t = some handler →
    handler.pc ≠ .calling ∧ ∀ response, handler.pc ≠ .answered response) {c : LiveCall} :
    (s.engines none).calls (.handler t) ≠ some c := by
  intro hc
  obtain ⟨handler, ht, -, hpc | ⟨-, response, hpc⟩⟩ := h.called t c hc
  · exact (hnot handler ht).1 hpc
  · exact (hnot handler ht).2 response hpc

/-- The leader's log may grow; what the callbacks have read stays. -/
theorem Inv.setCluster (h : s.Inv stores) {c : Cluster n} (hc : c.Inv) (hlog : s.cluster.leader.log ⊆ c.leader.log)
    (hreplica : ∀ who, (c.replica who).passed = (s.cluster.replica who).passed ∧
      (c.replica who).applying.entry? = (s.cluster.replica who).applying.entry?) :
    { s with cluster := c }.Inv stores where
  cluster := hc
  engines := h.engines
  applied who := by
    show (s.engines who).account .applyLoop ++
      (if s.calledBack who then [] else (c.replica who).applying.entry?.toList.map entryRequest) = _
    rw [(hreplica who).1, (hreplica who).2]
    exact h.applied who
  accounts who t := by
    refine (h.accounts who t).trans ?_
    cases who <;> rfl
  logged t handler ht hw := by
    obtain ⟨e, he, heq⟩ := h.logged t handler ht hw
    exact ⟨e, hlog he, heq⟩
  called := h.called
  callback who hcalled := by
    rw [(hreplica who).2]
    exact h.callback who hcalled
  applying := h.applying

omit [Platform] in
theorem ne_call {op : LiveOp Caller} (hop : op.isCall = false) {caller : Caller} (call : EngineCall) :
    op ≠ .call caller call := by
  rintro rfl
  exact absurd hop (by simp [LiveOp.isCall])

/-- An engine moves on, with nobody calling it. -/
theorem Inv.setEngine (h : s.Inv stores) {who : Option (Fin n)} {eop : LiveOp Caller} {engine : LiveEngine Caller}
    (hop : eop.isCall = false) (hsound : (s.engines who).Sound eop) (he : (s.engines who).step eop = some engine)
    (hengines : ∀ other, ∃ virt, LiveEngine.Inv (stores other).engine virt ((s.setEngine who engine).engines other)) :
    (s.setEngine who engine).Inv stores := by
  have haccount (other : Option (Fin n)) (caller : Caller) :
      ((s.setEngine who engine).engines other).account caller = (s.engines other).account caller := by
    rw [h.account_setEngine hsound he, LiveEngine.asked_of_not_call hop, ite_self, List.append_nil]
  have hcalls {other : Option (Fin n)} {caller : Caller} {c' : LiveCall}
      (hc' : ((s.setEngine who engine).engines other).calls caller = some c') :
      ∃ c, (s.engines other).calls caller = some c ∧ c'.call = c.call ∧ (c.Returned → c'.Returned) := by
    rw [engines_setEngine] at hc'
    split_ifs at hc' with hother
    · subst hother
      obtain ⟨c, hc, hcall, -, hreturned, -⟩ := LiveEngine.calls_step he (ne_call hop) hc'
      exact ⟨c, hc, hcall, hreturned⟩
    · exact ⟨c', hc', rfl, id⟩
  refine ⟨h.cluster, hengines, fun other => ?_, fun other t => ?_, h.logged, fun t c' hc' => ?_, h.callback,
    fun other c' hc' => ?_⟩
  · rw [haccount]
    exact h.applied other
  · rw [haccount]
    refine (h.accounts other t).trans ?_
    cases other <;> rfl
  · obtain ⟨c, hc, hcall, hreturned⟩ := hcalls hc'
    obtain ⟨handler, ht, hreq, hpc⟩ := h.called t c hc
    refine ⟨handler, ht, hcall ▸ hreq, hpc.imp_right ?_⟩
    rintro ⟨hc, hanswered⟩
    exact ⟨hreturned hc, hanswered⟩
  · obtain ⟨c, hc, -, hreturned⟩ := hcalls hc'
    exact (h.applying other c hc).imp_right hreturned

/-- The calls after one has begun. -/
theorem calls_setEngine_call {who : Option (Fin n)} {caller : Caller} {call : EngineCall} {engine : LiveEngine Caller}
    (he : (s.engines who).step (.call caller call) = some engine) (other : Option (Fin n)) (caller' : Caller) :
    ((s.setEngine who engine).engines other).calls caller' =
      if other = who ∧ caller' = caller then some ⟨call, (s.engines who).acked, LivePc.begin call⟩
      else (s.engines other).calls caller' := by
  obtain ⟨rfl, -⟩ := LiveEngine.calls_call he
  rw [engines_setEngine]
  by_cases hother : other = who
  · subst hother
    rw [if_pos rfl, LiveEngine.calls_setCall]
    simp
  · rw [if_neg hother, if_neg fun h => hother h.1]

/-- A handler calls the engine. -/
theorem Inv.call (h : s.Inv stores) {t : Nat} {req : Request} {call : EngineCall} {engine : LiveEngine Caller}
    (hpc : s.handlers t = some ⟨req, .executing⟩) (hcall : req.engineCall? = some call)
    (he : (s.engines none).step (.call (.handler t) call) = some engine)
    (hengines : ∀ other, ∃ virt, LiveEngine.Inv (stores other).engine virt ((s.setEngine none engine).engines other)) :
    ((s.setEngine none engine).setHandler t req .calling).Inv stores := by
  have haccount := h.account_setEngine (sound_call _ _ _) he
  have hwrite : req.writeRequest? = call.request? := by
    unfold Request.writeRequest?
    rw [hcall]
    rfl
  refine ⟨h.cluster, hengines, fun who => ?_, fun who u => ?_, ?_, fun u c hc => ?_, h.callback, fun who c hc => ?_⟩
  · show ((s.setEngine none engine).engines who).account .applyLoop ++ _ = _
    rw [haccount, LiveEngine.asked_call_ne (by simp), ite_self, List.append_nil]
    exact h.applied who
  · show ((s.setEngine none engine).engines who).account (.handler u) = _
    rw [haccount, h.accounts who u]
    cases who with
    | some p => rfl
    | none =>
        unfold askedOf
        by_cases hut : u = t
        · subst hut
          rw [handlers_setHandler_self, hpc]
          show [] ++ (if Caller.handler u = Caller.handler u then call.request?.toList else []) = req.writeRequest?.toList
          rw [if_pos rfl, hwrite, List.nil_append]
        · rw [handlers_setHandler_ne _ hut]
          rw [LiveEngine.asked_call_ne (by simpa using Ne.symm hut), ite_self, List.append_nil]
          rfl
  · exact forall_handlers_setHandler h.logged (h.logged t ⟨req, .executing⟩ hpc)
  · have hc : ((s.setEngine none engine).engines none).calls (.handler u) = some c := hc
    rw [calls_setEngine_call he] at hc
    by_cases hut : u = t
    · subst hut
      rw [if_pos ⟨rfl, rfl⟩] at hc
      exact ⟨_, handlers_setHandler_self _ u req .calling, Option.some.inj hc ▸ hcall, Or.inl rfl⟩
    · rw [if_neg (by simpa using hut)] at hc
      rw [handlers_setHandler_ne _ hut]
      exact h.called u c hc
  · have hc : ((s.setEngine none engine).engines who).calls .applyLoop = some c := hc
    rw [calls_setEngine_call he, if_neg (by simp)] at hc
    exact h.applying who c hc

/-- A follower answers a GET. -/
theorem Inv.read (h : s.Inv stores) {p : Fin n} {t : Nat} {key : Bytes} {engine : LiveEngine Caller}
    (he : (s.engines (some p)).step (.call (.handler t) (.get key)) = some engine)
    (hengines : ∀ other, ∃ virt,
      LiveEngine.Inv (stores other).engine virt ((s.setEngine (some p) engine).engines other)) :
    (s.setEngine (some p) engine).Inv stores := by
  have haccount (other : Option (Fin n)) (caller : Caller) :
      ((s.setEngine (some p) engine).engines other).account caller = (s.engines other).account caller := by
    have hasked : LiveEngine.asked caller (.call (.handler t) (.get key)) = [] := ite_self _
    rw [h.account_setEngine (sound_call _ _ _) he, hasked, ite_self, List.append_nil]
  refine ⟨h.cluster, hengines, fun who => ?_, fun who u => ?_, h.logged, fun u c hc => ?_, h.callback,
    fun who c hc => ?_⟩
  · rw [haccount]
    exact h.applied who
  · rw [haccount]
    refine (h.accounts who u).trans ?_
    cases who <;> rfl
  · rw [calls_setEngine_call he, if_neg (by simp)] at hc
    exact h.called u c hc
  · rw [calls_setEngine_call he, if_neg (by simp)] at hc
    exact h.applying who c hc

theorem calledBack_setCalledBack (s : LeaderNode n) (who other : Option (Fin n)) (called : Bool) :
    (s.setCalledBack who called).calledBack other = if other = who then called else s.calledBack other :=
  Function.update_apply ..

/-- A callback calls the engine. -/
theorem Inv.applyWrite (h : s.Inv stores) {who : Option (Fin n)} {e : LogEntry} {engine : LiveEngine Caller}
    (hentry : (s.cluster.replica who).applying.entry? = some e) (hcalled : s.calledBack who = false)
    (he : (s.engines who).step (.call .applyLoop (applyLogEntry e)) = some engine)
    (hengines : ∀ other, ∃ virt, LiveEngine.Inv (stores other).engine virt ((s.setEngine who engine).engines other)) :
    ((s.setEngine who engine).setCalledBack who true).Inv stores := by
  have haccount := h.account_setEngine (sound_call _ _ _) he
  refine ⟨h.cluster, hengines, fun other => ?_, fun other t => ?_, h.logged, fun t c hc => ?_, fun other hback => ?_,
    fun other c hc => ?_⟩
  · have happlied := h.applied other
    unfold pending at happlied ⊢
    rw [calledBack_setCalledBack]
    show ((s.setEngine who engine).engines other).account .applyLoop ++ _ = _
    rw [haccount]
    by_cases hother : other = who
    · subst hother
      -- the entry in the callback is no longer pending
      rw [if_neg (by simp [hcalled]), hentry] at happlied
      rw [if_pos rfl, if_pos rfl, if_pos rfl, List.append_nil]
      show _ ++ (if Caller.applyLoop = Caller.applyLoop then (applyLogEntry e).request?.toList else []) = _
      rw [if_pos rfl, request?_applyLogEntry]
      exact happlied
    · rw [if_neg hother, if_neg hother, List.append_nil]
      exact happlied
  · show ((s.setEngine who engine).engines other).account (.handler t) = _
    rw [haccount, LiveEngine.asked_call_ne (by simp), ite_self, List.append_nil, h.accounts]
    cases other <;> rfl
  · have hc : ((s.setEngine who engine).engines none).calls (.handler t) = some c := hc
    rw [calls_setEngine_call he, if_neg (by simp)] at hc
    exact h.called t c hc
  · rw [calledBack_setCalledBack] at hback
    split_ifs at hback with hother
    · subst hother
      rw [show ((s.setEngine other engine).setCalledBack other true).cluster = s.cluster from rfl, hentry]
      simp
    · exact h.callback other hback
  · have hc : ((s.setEngine who engine).engines other).calls .applyLoop = some c := hc
    rw [calls_setEngine_call he] at hc
    rw [calledBack_setCalledBack]
    by_cases hother : other = who
    · exact Or.inl (if_pos hother)
    · rw [if_neg fun hand => hother hand.1] at hc
      rw [if_neg hother]
      exact h.applying other c hc

/-- A callback reads its entry. -/
theorem Inv.applyCall (h : s.Inv stores) {who : Option (Fin n)} {memory : LogEntry} {c : Cluster n} (hc : c.Inv)
    (hs : s.cluster.step ((LoopStep.call memory).op who) = some c) : { s with cluster := c }.Inv stores := by
  obtain ⟨hrun, hlog, hother⟩ := replica_loop hs
  obtain ⟨i, it, hfound, hreplica⟩ := Replica.callApply_eq_some.mp hrun
  have hnone : (s.cluster.replica who).applying.entry? = none := by rw [hfound]; rfl
  refine ⟨hc, h.engines, fun other => ?_, fun other t => ?_, ?_, h.called, fun other hback => ?_, h.applying⟩
  · have happlied := h.applied other
    unfold pending at happlied ⊢
    by_cases hwho : other = who
    · subst hwho
      have hback : s.calledBack other = false := by
        by_contra hback
        exact h.callback other (by simpa using hback) hnone
      rw [hback, hnone] at happlied
      show _ ++ (if s.calledBack other then [] else (c.replica other).applying.entry?.toList.map entryRequest) =
        (c.replica other).passed.map entryRequest
      rw [hback, hreplica, List.map_append, ← happlied]
      simp [CallbackPc.entry?]
    · show _ ++ (if s.calledBack other then [] else (c.replica other).applying.entry?.toList.map entryRequest) =
        (c.replica other).passed.map entryRequest
      rw [hother other hwho]
      exact happlied
  · refine (h.accounts other t).trans ?_
    cases other <;> rfl
  · show ∀ t handler, s.handlers t = some handler → handler.request.type.IsWrite →
      ∃ e ∈ c.leader.log, entryRequest e = entryRequest handler.request.toEntry
    rw [hlog]
    exact h.logged
  · by_cases hwho : other = who
    · subst hwho
      exact absurd hnone (h.callback other hback)
    · show (c.replica other).applying.entry? ≠ none
      rw [hother other hwho]
      exact h.callback other hback

/-- A callback has returned. -/
theorem Inv.applyEnd (h : s.Inv stores) {who : Option (Fin n)} {since : Nat} {call : EngineCall} {result : CallResult}
    {c : Cluster n} (hc : c.Inv) (hcalled : s.calledBack who = true)
    (hreturned : (s.engines who).calls .applyLoop = some ⟨call, since, .returned result⟩)
    (hs : s.cluster.step (LoopStep.applied.op who) = some c) :
    ({ s with cluster := c }.setCalledBack who false).Inv stores := by
  obtain ⟨hrun, hlog, hother⟩ := replica_loop hs
  obtain ⟨i, e, -, hreplica⟩ := Replica.endApply_eq_some.mp hrun
  refine ⟨hc, h.engines, fun other => ?_, fun other t => ?_, ?_, h.called, fun other hback => ?_,
    fun other c' hc' => ?_⟩
  · have happlied := h.applied other
    unfold pending at happlied ⊢
    rw [calledBack_setCalledBack]
    show (s.engines other).account .applyLoop ++ (if (if other = who then false else s.calledBack other) then [] else
      (c.replica other).applying.entry?.toList.map entryRequest) = (c.replica other).passed.map entryRequest
    by_cases hwho : other = who
    · subst hwho
      rw [hcalled] at happlied
      rw [if_pos rfl, hreplica]
      exact happlied
    · rw [if_neg hwho, hother other hwho]
      exact happlied
  · refine (h.accounts other t).trans ?_
    cases other <;> rfl
  · show ∀ t handler, s.handlers t = some handler → handler.request.type.IsWrite →
      ∃ e ∈ c.leader.log, entryRequest e = entryRequest handler.request.toEntry
    rw [hlog]
    exact h.logged
  · rw [calledBack_setCalledBack] at hback
    split_ifs at hback with hwho
    show (c.replica other).applying.entry? ≠ none
    rw [hother other hwho]
    exact h.callback other hback
  · rw [calledBack_setCalledBack]
    by_cases hwho : other = who
    · subst hwho
      obtain rfl := Option.some.inj (hreturned.symm.trans hc')
      exact Or.inr ⟨result, rfl⟩
    · rw [if_neg hwho]
      exact h.applying other c' hc'

/-- **One step.** -/
theorem Inv.step (h : s.Inv stores) {op : NodeOp n} (hC : s.Sound op) (hs : s.step op = some s') : s'.Inv stores := by
  have hcluster := cluster_inv_step h.cluster hs
  have hengines : ∀ who, ∃ virt, LiveEngine.Inv (stores who).engine virt (s'.engines who) := by
    intro who
    obtain ⟨virt, hinv⟩ := h.engines who
    rcases engine_step hC hs who with heq | ⟨eop, hsound, he⟩
    · exact ⟨virt, heq ▸ hinv⟩
    · exact hinv.step hsound he
  cases Effect.of_step hs with
  | @replicate t req c hnew hwrite hc =>
      have hlog := Cluster.log_step hc
      have hmoved := h.setCluster hcluster (Cluster.log_prefix_step hc).subset
        (replica_rest hc fun who l => by cases who <;> cases l <;> simp [LoopStep.op])
      refine hmoved.setHandler (fun _ => ?_) ?_ fun c' hc' => ?_
      · -- the entry that `appendLog` has just numbered
        rcases hlog with ⟨t', entry, heq, hlog⟩ | ⟨hne, -⟩
        · obtain ⟨-, rfl⟩ := ClusterOp.append.inj heq
          refine ⟨s.cluster.leader.indexed req.toEntry, ?_, rfl⟩
          show _ ∈ c.leader.log
          rw [hlog]
          exact List.mem_append_right _ List.mem_cons_self
        · exact absurd rfl (hne t req.toEntry)
      · unfold askedOf
        rw [show ({ s with cluster := c } : LeaderNode n).handlers t = none from hnew]
        rfl
      · exact absurd hc' (h.not_called fun handler ht => absurd (hnew.symm.trans ht) (by simp))
  | @start t req hnew hread =>
      refine h.setHandler (absurd · hread) ?_ fun c' hc' => ?_
      · unfold askedOf
        rw [hnew]
        rfl
      · exact absurd hc' (h.not_called fun handler ht => absurd (hnew.symm.trans ht) (by simp))
  | cluster hinner hc =>
      exact h.setCluster hcluster (Cluster.log_prefix_step hc).subset (replica_rest hc (ne_loop_of_inner hinner))
  | @replicated t req own ok hpc hcall =>
      refine h.setHandler (h.logged _ _ hpc) ?_ fun c' hc' => ?_
      · unfold askedOf
        rw [hpc]
        rfl
      · refine absurd hc' (h.not_called fun handler ht => ?_)
        obtain rfl := Option.some.inj (hpc.symm.trans ht)
        exact ⟨by simp, by simp⟩
  | call hpc hcall he => exact h.call hpc hcall he hengines
  | @direct t active req response hpc hcall hne =>
      refine (h.setHandler (h.logged _ _ hpc) ?_ fun c' hc' => ?_).setAnswers _
      · unfold askedOf
        rw [hpc]
        show req.writeRequest?.toList = []
        unfold Request.writeRequest?
        rw [hcall]
        rfl
      · refine absurd hc' (h.not_called fun handler ht => ?_)
        obtain rfl := Option.some.inj (hpc.symm.trans ht)
        exact ⟨by simp, by simp⟩
  | @returned t since req call result hpc hc =>
      refine (h.setHandler (h.logged _ _ hpc) ?_ fun c' hc' => ?_).setAnswers _
      · unfold askedOf
        rw [hpc]
        rfl
      · obtain rfl := Option.some.inj (hc.symm.trans hc')
        obtain ⟨handler, ht, hreq, -⟩ := h.called t _ hc
        obtain rfl := Option.some.inj (hpc.symm.trans ht)
        exact ⟨hreq, Or.inr ⟨⟨result, rfl⟩, _, rfl⟩⟩
  | engine hop he => exact h.setEngine hop hC he hengines
  | read he => exact h.read he hengines
  | @applyBegin who c hc =>
      obtain ⟨hrun, hlog, hother⟩ := replica_loop hc
      obtain ⟨hidle, -, e, -, hreplica⟩ := Replica.beginApply_eq_some.mp hrun
      refine h.setCluster hcluster (hlog ▸ List.Subset.refl _) fun other => ?_
      by_cases hwho : other = who
      · subst hwho
        rw [hreplica, hidle]
        exact ⟨rfl, rfl⟩
      · rw [hother other hwho]
        exact ⟨rfl, rfl⟩
  | applyCall hc => exact h.applyCall hcluster hc
  | applyWrite hentry hcalled he => exact h.applyWrite hentry hcalled he hengines
  | applyEnd hcalled hreturned hc => exact h.applyEnd hcluster hcalled hreturned hc

/-- The invariant holds in every state of a run whose engines lose nothing. -/
theorem inv_of_exec {nodeId : Nat} {ops : List (NodeOp n)} (hstores : ∀ who, (stores who).Started)
    (h : exec LeaderNode.step (init n nodeId stores) ops = some s)
    (hC : Meets LeaderNode.step Sound (init n nodeId stores) ops) : s.Inv stores :=
  exec_invariant_of_meets (inv_init n nodeId hstores) (fun _ _ _ hi hC hs => hi.step hC hs) hC h

end Step

/-- The step is sound whatever the engines hold. -/
def Plain (s : LeaderNode n) : NodeOp n → Bool
  | .engine who op => (s.engines who).Plain op
  | _ => true

/-- A run of plain steps is sound. -/
theorem sound_of_plain {ops : List (NodeOp n)} (h : Meets LeaderNode.step (fun s op => s.Plain op = true) s ops) :
    Meets LeaderNode.step Sound s ops := by
  refine h.imp (I := fun _ => True) trivial (fun _ _ _ _ _ _ => trivial) fun s op _ hplain => ?_
  cases op with
  | engine who op => exact LiveEngine.sound_of_plain hplain
  | _ => trivial

/-- Every node with a new store. -/
def freshStores (n : Nat) : Option (Fin n) → Store := fun _ => Store.fresh (Bytes.ascii "kv") 0 true

theorem started_freshStores (n : Nat) (who : Option (Fin n)) : (freshStores n who).Started :=
  Store.started_fresh _ _ _

omit [Platform] in
/-- The steps of an engine that carries out one request. -/
def writeSteps (who : Option (Fin n)) (caller : Caller) : List (NodeOp n) :=
  [.push caller, .popBatch, .update, .invalidate, .endBatch, .checkFlush, .complete, .complete].map (.engine who)

/-- A handler that is not there does not appear by the steps of others. -/
theorem handlers_none_step {t : Nat} (hnone : s.handlers t = none) {op : NodeOp n}
    (hop : ∀ req, op ≠ .request t req) (hs : s.step op = some s') : s'.handlers t = none := by
  have hne {u : Nat} {handler : Handler} (hu : s.handlers u = some handler) : t ≠ u := by
    rintro rfl
    exact absurd (hnone.symm.trans hu) (by simp)
  have hnew {u : Nat} {req : Request} (hu : op = .request u req) : t ≠ u := by
    rintro rfl
    exact hop req hu
  cases Effect.of_step hs with
  | replicate _ _ _ | start _ _ => exact (handlers_setHandler_ne _ (hnew rfl) _ _).trans hnone
  | replicated hpc _ | call hpc _ _ | direct hpc _ _ | returned hpc _ =>
      exact (handlers_setHandler_ne _ (hne hpc) _ _).trans hnone
  | _ => exact hnone

end LeaderNode

end KvStorageEngine.Server
