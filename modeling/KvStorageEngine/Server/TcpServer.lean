import KvStorageEngine.Distributed.Cluster
import KvStorageEngine.Engine.Correctness.MapRefinement
import KvStorageEngine.Engine.LiveEngine

/-!
# `Server.TcpServer` — request handlers and the apply loops on the engines

`TcpServer::executeCommand` (`server/src/tcp_server.cpp`) on the leader: a write is replicated first and then
executed on the local engine, whatever `replicate` returned. The leader's apply loop calls `applyLogEntry`,
which executes every committed entry on the same engine. So each write reaches the leader's engine twice, once
from each side, and nothing orders the two. A follower's engine has its writes from `applyLogEntry` only.

Every node has an engine of `Engine.LiveEngine`. A handler or an apply loop calls it and goes on when the call has
returned; in between the engine takes its steps, and so does everybody else.
-/

namespace KvStorageEngine.Server

open Distributed KeyedWrites

/-! ## Requests and responses -/

inductive CommandType where
  | put
  | get
  | delete
  | ping
  | quit
  | status
  | unknown
  deriving DecidableEq, Repr

structure Request where
  type : CommandType
  key : Bytes
  value : Bytes
  deriving DecidableEq, Repr

structure Response where
  success : Bool
  message : String
  value : Option Bytes
  deriving DecidableEq, Repr

namespace Response

def ok (msg : String) : Response := ⟨true, msg, none⟩

def okWithValue (value : Bytes) : Response := ⟨true, "OK", some value⟩

def notFound : Response := ⟨false, "NOT_FOUND", none⟩

def error (msg : String) : Response := ⟨false, msg, none⟩

end Response

/-- Whether the request is replicated. -/
def CommandType.IsWrite (type : CommandType) : Prop := type = .put ∨ type = .delete

instance (type : CommandType) : Decidable type.IsWrite := inferInstanceAs (Decidable (_ ∨ _))

/-- How `executeCommand` goes on after it has looked at the role of the node. -/
inductive CommandStart where
  | rejected (response : Response)
  | replicate
  | execute
  deriving DecidableEq

/-- The first part of `executeCommand`; a standalone node has no role. -/
def commandStart (role : Option NodeRole) (type : CommandType) : CommandStart :=
  if role = some .follower ∧ type.IsWrite then
    .rejected (Response.error "NOT_LEADER - Write to leader at port 9000")
  else if role = some .leader ∧ type.IsWrite then .replicate
  else .execute

/-- The entry a write is replicated as; the leader sets its term and index. -/
def Request.toEntry (req : Request) : LogEntry :=
  ⟨0, 0, if req.type = .put then .put else .delete, req.key, req.value⟩

/-- `engine_->put(key, value)` and `engine_->del(key)`, as writes. -/
def putWrite (key value : Bytes) : Write Bytes Bytes := ⟨key, some value⟩

def delWrite (key : Bytes) : Write Bytes Bytes := ⟨key, none⟩

/-- The answer to a GET. -/
def getResponse : Option Bytes → Response
  | some value => Response.okWithValue value
  | none => Response.notFound

/-- The answer to a PUT. -/
def putResponse (success : Bool) : Response :=
  if success then Response.ok "STORED" else Response.error "STORE_FAILED"

/-- The answer to a DELETE. -/
def delResponse (existed : Bool) : Response :=
  if existed then Response.ok "DELETED" else Response.error "DELETE_FAILED"

/-- The answer to STATUS on a leader. -/
def statusResponse (nodeId : Nat) (leader : Leader) (activeConnections : Nat) : Response :=
  Response.okWithValue (Bytes.ascii "Node ID: " ++ Bytes.toDecimal nodeId ++
    Bytes.ascii "\nRole: LEADER\nTerm: " ++ Bytes.toDecimal leader.currentTerm ++
    Bytes.ascii "\nCommit Index: " ++ Bytes.toDecimal leader.commitIndex ++
    Bytes.ascii "\nActive Connections: " ++ Bytes.toDecimal activeConnections)

/-! ## Calls of the engine -/

/-- The call that `executeCommand` makes for a request, if any. -/
def Request.engineCall? (req : Request) : Option EngineCall :=
  match req.type with
  | .put => some (.put req.key req.value)
  | .get => some (.get req.key)
  | .delete => some (.del req.key)
  | .ping | .quit | .status | .unknown => none

/-- The response that it makes of what the call comes back with. -/
def engineResponse (type : CommandType) : CallResult → Response
  | .found out => getResponse ((answer out).map (·.value))
  | .done success => if type = .delete then delResponse success else putResponse success
  | .threw => Response.error "INTERNAL_ERROR"

/-- `TcpServer::applyLogEntry`: the call that it makes. It looks neither at the result nor at an exception. -/
def applyLogEntry (entry : LogEntry) : EngineCall :=
  match entry.op with
  | .put => .put entry.key entry.value
  | .delete => .del entry.key

/-- Who calls an engine: the apply loop of the node, or the handler of a request. -/
inductive Caller where
  | applyLoop
  | handler (t : Nat)
  deriving DecidableEq

/-! ## The leader's node -/

/-- Where the handler of a request is. -/
inductive HandlerPc where
  | replicating
  | executing
  | calling
  | answered (response : Response)
  deriving DecidableEq

structure Handler where
  request : Request
  pc : HandlerPc
  deriving DecidableEq

/-- A response that was sent, with its request and the number of its handler. -/
structure Answer where
  caller : Nat
  request : Request
  response : Response
  deriving DecidableEq

section Node

variable [Platform]

/-- The server of a leader, with the cluster it leads. The node `none` is the leader's, `some p` that of the follower
    `p`. -/
structure LeaderNode (n : Nat) where
  nodeId : Nat
  cluster : Cluster n
  handlers : Nat → Option Handler
  engines : Option (Fin n) → LiveEngine Caller
  /-- Whether the running callback of a node has called the engine. -/
  calledBack : Option (Fin n) → Bool
  /-- History: the responses. -/
  answers : List Answer

end Node

/-- The steps of an apply loop. -/
inductive LoopStep where
  | begin
  | call (memory : LogEntry)
  | applied

/-- A step of a request handler, of an engine, of an apply loop or of the rest of the cluster. -/
inductive NodeOp (n : Nat) where
  | request (t : Nat) (req : Request)
  | cluster (op : ClusterOp n)
  | replicated (t : Nat)
  | execute (t : Nat) (activeConnections : Nat)
  | returned (t : Nat)
  | engine (who : Option (Fin n)) (op : LiveOp Caller)
  | read (p : Fin n) (t : Nat) (key : Bytes)
  | applyBegin (who : Option (Fin n))
  | applyCall (who : Option (Fin n)) (memory : LogEntry)
  | applyWrite (who : Option (Fin n))
  | applyEnd (who : Option (Fin n))
  deriving DecidableEq

section Steps

variable {n : Nat}

/-- The step of the cluster that a step of an apply loop is. -/
def LoopStep.op : Option (Fin n) → LoopStep → ClusterOp n
  | none, .begin => .leaderApply
  | none, .call memory => .leaderCall memory
  | none, .applied => .leaderApplied
  | some p, .begin => .followerApply p
  | some p, .call memory => .followerCall p memory
  | some p, .applied => .followerApplied p

end Steps

namespace LeaderNode

variable [Platform] {n : Nat}

/-- The nodes on their stores. -/
def init (n nodeId : Nat) (stores : Option (Fin n) → Store) : LeaderNode n :=
  ⟨nodeId, Cluster.init n, fun _ => none, fun who => LiveEngine.start Caller (stores who), fun _ => false, []⟩

def setHandler (s : LeaderNode n) (t : Nat) (request : Request) (pc : HandlerPc) : LeaderNode n :=
  { s with handlers := Function.update s.handlers t (some ⟨request, pc⟩) }

def setEngine (s : LeaderNode n) (who : Option (Fin n)) (engine : LiveEngine Caller) : LeaderNode n :=
  { s with engines := Function.update s.engines who engine }

def setCalledBack (s : LeaderNode n) (who : Option (Fin n)) (called : Bool) : LeaderNode n :=
  { s with calledBack := Function.update s.calledBack who called }

/-- Send the response. -/
def answer (s : LeaderNode n) (t : Nat) (request : Request) (response : Response) : LeaderNode n :=
  { s.setHandler t request (.answered response) with answers := s.answers ++ [⟨t, request, response⟩] }

/-- The response to a request for which the engine is not called. -/
def directResponse (s : LeaderNode n) (req : Request) (activeConnections : Nat) : Response :=
  match req.type with
  | .ping => Response.ok "PONG"
  | .quit => Response.ok "BYE"
  | .status => statusResponse s.nodeId s.cluster.leader activeConnections
  | .put | .get | .delete | .unknown => Response.error "UNKNOWN_COMMAND"

/-- The steps of the cluster that are not part of a step of the node. -/
def inner : ClusterOp n → Bool
  | .append _ _ | .leaderApply | .leaderCall _ | .leaderApplied | .followerApply _ | .followerCall _ _
  | .followerApplied _ => false
  | _ => true

/-- The effect of a step, `none` where it is not enabled. -/
def step (s : LeaderNode n) : NodeOp n → Option (LeaderNode n)
  | .request t req =>
    match s.handlers t with
    | some _ => none
    | none =>
      match commandStart (some .leader) req.type with
      | .rejected response => some (s.answer t req response)
      -- the handler's number is its call's number, too
      | .replicate =>
        (s.cluster.step (.append t req.toEntry)).map fun cluster =>
          { s with cluster := cluster }.setHandler t req .replicating
      | .execute => some (s.setHandler t req .executing)
  | .cluster op =>
    if inner op then (s.cluster.step op).map fun cluster => { s with cluster := cluster } else none
  | .replicated t =>
    -- a `replicate` that returns false is only warned about
    match s.handlers t, s.cluster.calls t with
    | some ⟨req, .replicating⟩, some ⟨_, .returned _⟩ => some (s.setHandler t req .executing)
    | _, _ => none
  | .execute t activeConnections =>
    match s.handlers t with
    | some ⟨req, .executing⟩ =>
      match req.engineCall? with
      | some call => ((s.engines none).step (.call (.handler t) call)).map fun engine =>
          (s.setEngine none engine).setHandler t req .calling
      | none => some (s.answer t req (s.directResponse req activeConnections))
    | _ => none
  | .returned t =>
    match s.handlers t, (s.engines none).calls (.handler t) with
    | some ⟨req, .calling⟩, some ⟨_, _, .returned result⟩ => some (s.answer t req (engineResponse req.type result))
    | _, _ => none
  | .engine who op =>
    -- calls are made by the handlers and the apply loops
    if op.isCall then none else ((s.engines who).step op).map (s.setEngine who)
  -- a follower rejects writes, and answers a GET from its own engine
  | .read p t key => ((s.engines (some p)).step (.call (.handler t) (.get key))).map (s.setEngine (some p))
  | .applyBegin who => (s.cluster.step (LoopStep.begin.op who)).map fun cluster => { s with cluster := cluster }
  | .applyCall who memory => (s.cluster.step ((LoopStep.call memory).op who)).map fun cluster =>
      { s with cluster := cluster }
  | .applyWrite who =>
    match (s.cluster.replica who).applying.entry? with
    | none => none
    | some e =>
      -- the callback is `applyLogEntry`, once for each entry
      if s.calledBack who then none
      else ((s.engines who).step (.call .applyLoop (applyLogEntry e))).map fun engine =>
        (s.setEngine who engine).setCalledBack who true
  | .applyEnd who =>
    match s.calledBack who, (s.engines who).calls .applyLoop with
    | true, some ⟨_, _, .returned _⟩ => (s.cluster.step (LoopStep.applied.op who)).map fun cluster =>
        { s with cluster := cluster }.setCalledBack who false
    | _, _ => none

/-! ## What a step does -/

/-- The effects of the steps, one constructor for each thing that can happen. -/
inductive Effect (s : LeaderNode n) : NodeOp n → LeaderNode n → Prop where
  | replicate {t : Nat} {req : Request} {c : Cluster n} (hnew : s.handlers t = none)
      (hwrite : req.type.IsWrite) (hc : s.cluster.step (.append t req.toEntry) = some c) :
      Effect s (.request t req) ({ s with cluster := c }.setHandler t req .replicating)
  | start {t : Nat} {req : Request} (hnew : s.handlers t = none) (hread : ¬ req.type.IsWrite) :
      Effect s (.request t req) (s.setHandler t req .executing)
  | cluster {op : ClusterOp n} {c : Cluster n} (hinner : inner op = true) (hc : s.cluster.step op = some c) :
      Effect s (.cluster op) { s with cluster := c }
  | replicated {t : Nat} {req : Request} {own : LogEntry} {ok : Bool}
      (hpc : s.handlers t = some ⟨req, .replicating⟩) (hcall : s.cluster.calls t = some ⟨own, .returned ok⟩) :
      Effect s (.replicated t) (s.setHandler t req .executing)
  | call {t active : Nat} {req : Request} {call : EngineCall} {engine : LiveEngine Caller}
      (hpc : s.handlers t = some ⟨req, .executing⟩) (hcall : req.engineCall? = some call)
      (he : (s.engines none).step (.call (.handler t) call) = some engine) :
      Effect s (.execute t active) ((s.setEngine none engine).setHandler t req .calling)
  | direct {t active : Nat} {req : Request} {response : Response} (hpc : s.handlers t = some ⟨req, .executing⟩)
      (hcall : req.engineCall? = none) (hne : response ≠ Response.ok "STORED") :
      Effect s (.execute t active) (s.answer t req response)
  | returned {t since : Nat} {req : Request} {call : EngineCall} {result : CallResult}
      (hpc : s.handlers t = some ⟨req, .calling⟩)
      (hc : (s.engines none).calls (.handler t) = some ⟨call, since, .returned result⟩) :
      Effect s (.returned t) (s.answer t req (engineResponse req.type result))
  | engine {who : Option (Fin n)} {op : LiveOp Caller} {engine : LiveEngine Caller} (hop : op.isCall = false)
      (he : (s.engines who).step op = some engine) : Effect s (.engine who op) (s.setEngine who engine)
  | read {p : Fin n} {t : Nat} {key : Bytes} {engine : LiveEngine Caller}
      (he : (s.engines (some p)).step (.call (.handler t) (.get key)) = some engine) :
      Effect s (.read p t key) (s.setEngine (some p) engine)
  | applyBegin {who : Option (Fin n)} {c : Cluster n} (hc : s.cluster.step (LoopStep.begin.op who) = some c) :
      Effect s (.applyBegin who) { s with cluster := c }
  | applyCall {who : Option (Fin n)} {memory : LogEntry} {c : Cluster n}
      (hc : s.cluster.step ((LoopStep.call memory).op who) = some c) :
      Effect s (.applyCall who memory) { s with cluster := c }
  | applyWrite {who : Option (Fin n)} {e : LogEntry} {engine : LiveEngine Caller}
      (hentry : (s.cluster.replica who).applying.entry? = some e) (hcalled : s.calledBack who = false)
      (he : (s.engines who).step (.call .applyLoop (applyLogEntry e)) = some engine) :
      Effect s (.applyWrite who) ((s.setEngine who engine).setCalledBack who true)
  | applyEnd {who : Option (Fin n)} {since : Nat} {call : EngineCall} {result : CallResult} {c : Cluster n}
      (hcalled : s.calledBack who = true)
      (hreturned : (s.engines who).calls .applyLoop = some ⟨call, since, .returned result⟩)
      (hc : s.cluster.step (LoopStep.applied.op who) = some c) :
      Effect s (.applyEnd who) ({ s with cluster := c }.setCalledBack who false)

/-- Every step has one of these effects. -/
theorem Effect.of_step {s s' : LeaderNode n} {op : NodeOp n} (h : s.step op = some s') : Effect s op s' := by
  cases op with
  | request t req =>
      unfold step at h; dsimp only at h
      cases hnew : s.handlers t with
      | some handler => simp [hnew] at h
      | none =>
          by_cases hwrite : req.type.IsWrite
          · simp only [hnew, commandStart, hwrite] at h
            obtain ⟨c, hc, rfl⟩ := Option.map_eq_some_iff.mp h
            exact .replicate hnew hwrite hc
          · simp only [hnew, commandStart, hwrite] at h
            exact Option.some.inj h ▸ .start hnew hwrite
  | cluster op =>
      unfold step at h; dsimp only at h
      split_ifs at h with hinner
      obtain ⟨c, hc, rfl⟩ := Option.map_eq_some_iff.mp h
      exact .cluster hinner hc
  | replicated t =>
      unfold step at h; dsimp only at h; split at h <;> try contradiction
      next req own ok hpc hcall => exact Option.some.inj h ▸ .replicated hpc hcall
  | execute t active =>
      unfold step at h; dsimp only at h; split at h <;> try contradiction
      next req hpc =>
        cases hcall : req.engineCall? with
        | some call =>
            simp only [hcall] at h
            obtain ⟨engine, he, rfl⟩ := Option.map_eq_some_iff.mp h
            exact .call hpc hcall he
        | none =>
            simp only [hcall] at h
            refine Option.some.inj h ▸ .direct hpc hcall ?_
            unfold directResponse
            split <;> simp [Response.ok, Response.error, statusResponse, Response.okWithValue]
  | returned t =>
      unfold step at h; dsimp only at h; split at h <;> try contradiction
      next req call since result hpc hc => exact Option.some.inj h ▸ .returned hpc hc
  | engine who op =>
      unfold step at h; dsimp only at h
      split_ifs at h with hop
      obtain ⟨engine, he, rfl⟩ := Option.map_eq_some_iff.mp h
      exact .engine (by simpa using hop) he
  | read p t key =>
      obtain ⟨engine, he, rfl⟩ := Option.map_eq_some_iff.mp h
      exact .read he
  | applyBegin who =>
      obtain ⟨c, hc, rfl⟩ := Option.map_eq_some_iff.mp h
      exact .applyBegin hc
  | applyCall who memory =>
      obtain ⟨c, hc, rfl⟩ := Option.map_eq_some_iff.mp h
      exact .applyCall hc
  | applyWrite who =>
      unfold step at h; dsimp only at h; split at h <;> try contradiction
      next e hentry =>
        split_ifs at h with hcalled
        obtain ⟨engine, he, rfl⟩ := Option.map_eq_some_iff.mp h
        exact .applyWrite hentry (by simpa using hcalled) he
  | applyEnd who =>
      unfold step at h; dsimp only at h; split at h <;> try contradiction
      next call since result hcalled hreturned =>
        obtain ⟨c, hc, rfl⟩ := Option.map_eq_some_iff.mp h
        exact .applyEnd hcalled hreturned hc

end LeaderNode

end KvStorageEngine.Server
