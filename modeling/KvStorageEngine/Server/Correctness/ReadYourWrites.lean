import KvStorageEngine.Server.Correctness.NodeInvariant

/-!
# `Server.Correctness.ReadYourWrites` — what one client sees on the leader

One client sends its requests one after another, and nobody else writes. The client knows what the store
should hold: what its own requests have left there. The leader's apply loop executes the same requests once
more, later and at its own pace, so between a write and a read of the client it can put an older value back,
and it can carry out a DELETE before the handler gets to look the key up (`stale_read`).

`readsItsWrites_of_undisturbed` says when the client sees what it should: in a run in which the engines lose
nothing (`Sound`), when from the beginning to the end of each of its lookups the apply loop has not written the
key since the client's last own write of it, or has in the end written the same.

Layout of the file:
* **A** — what a call of the engine has been told.
* **B** — what the client expects.
* **C** — the two writers.
* **D** — the client's runs.
* **E** — the invariant of a session.
* **F** — what the client is answered.
* **G** — a client that sees what it should, and one that does not.
-/

namespace KvStorageEngine

open Run

variable [Platform]

/-! ## A. What a call has been told

A lookup reads at several places, one after the other, and a `del` answers what its lookup has found. `Told` follows
what a call may answer, given what its key held when it began. -/

/-- What a call tells two values apart by: a `del` asks only whether there is one. -/
def EngineCall.Agrees (v w : Option Bytes) : EngineCall → Prop
  | .get _ | .put _ _ => v = w
  | .del _ => v.isSome = w.isSome

instance (v w : Option Bytes) : (call : EngineCall) → Decidable (call.Agrees v w)
  | .get _ | .put _ _ => inferInstanceAs (Decidable (v = w))
  | .del _ => inferInstanceAs (Decidable (v.isSome = w.isSome))

omit [Platform] in
theorem EngineCall.agrees_refl (call : EngineCall) (v : Option Bytes) : call.Agrees v v := by
  cases call <;> rfl

/-- What a call has been told by now, if anything, is that its key has the value `v`. -/
def EngineCall.Told (v : Option Bytes) : EngineCall → LivePc → Prop
  | .get _, .returned (.found out) => (answer out).map (·.value) = v
  | .del _, .pushing existed | .del _, .waiting existed | .del _, .returned (.done existed) => existed = v.isSome
  | _, _ => True

section Told

variable {ι : Type} {e₀ : StorageEngine} {ws : List (LiveWrite ι)} {places : Relay Entry} {since : Nat} {v : Option Bytes}

theorem EngineCall.told_begin (call : EngineCall) : call.Told v (LivePc.begin call) := by
  cases call <;> trivial

theorem EngineCall.told_searching (call : EngineCall) (pc : SearchPc) : call.Told v (.searching pc) := by
  cases call <;> trivial

theorem EngineCall.told_threw (call : EngineCall) : call.Told v (.returned .threw) := by
  cases call <;> trivial

/-- A call that goes on to its request, or has it carried out, knows what it knew. -/
theorem EngineCall.Told.waiting {call : EngineCall} {existed : Bool} (h : call.Told v (.pushing existed)) :
    call.Told v (.waiting existed) := by
  cases call <;> exact h

theorem LiveCall.told_finish {c : LiveCall} (h : c.call.Told v c.pc) :
    (c.finish true).call.Told v (c.finish true).pc := by
  obtain ⟨call, since, pc⟩ := c
  cases pc with
  | waiting existed => cases call <;> trivial
  | searching pc | pushing existed | returned result => exact h

/-- A call that is right has been told what some of the writes leave. -/
theorem told_of_right {call : EngineCall} {pc : LivePc} (h : pc.Right e₀ ws places since call)
    (hall : ∀ m, since ≤ m → m ≤ ws.length → call.Agrees (valueAfter e₀ ws m call.key) v) : call.Told v pc := by
  have hfound {key : Bytes} {out : Option Entry} (hcall : call = .get key)
      (h : Looked e₀ ws since key (· = (answer out).map (·.value))) : (answer out).map (·.value) = v := by
    obtain ⟨m, hge, hle, hvalue⟩ := h
    subst hcall
    exact hvalue.symm.trans (hall m hge hle)
  have hexisted {key : Bytes} {existed : Bool} (hcall : call = .del key)
      (h : Looked e₀ ws since key fun v => existed = v.isSome) : existed = v.isSome := by
    obtain ⟨m, hge, hle, hvalue⟩ := h
    subst hcall
    exact hvalue.trans (hall m hge hle)
  cases call with
  | put key value => trivial
  | get key =>
      cases pc with
      | searching pc | pushing existed | waiting existed => trivial
      | returned result =>
          cases result with
          | found out => exact hfound rfl h
          | done success | threw => trivial
  | del key =>
      cases pc with
      | searching pc => trivial
      | pushing existed | waiting existed => exact hexisted rfl h
      | returned result =>
          cases result with
          | done success => exact hexisted rfl h
          | found out | threw => trivial

namespace LiveEngine

variable [DecidableEq ι] {s s' : LiveEngine ι}

/-- A step that does not go on with its search leaves a call what it has been told. -/
theorem told_step {op : LiveOp ι} (hpipeline : Pipeline s) (hC : s.Unthrown op) (hs : s.step op = some s') {i : ι}
    (hop : op.searcher? ≠ some i) (h : ∀ c, s.calls i = some c → c.call.Told v c.pc) {c' : LiveCall}
    (hc' : s'.calls i = some c') : c'.call.Told v c'.pc := by
  have hset {j : ι} {c : LiveCall} (hc : i = j → c.call.Told v c.pc) (hc' : (s.setCall j c).calls i = some c') :
      c'.call.Told v c'.pc := by
    rw [calls_setCall] at hc'
    split_ifs at hc' with hi
    · exact Option.some.inj hc' ▸ hc hi
    · exact h c' hc'
  cases Effect.of_step hs with
  | @call j call _ => exact hset (fun _ => call.told_begin) hc'
  | uncached | hit | miss | readActive | readImmutable | takeVersion | found | searched | threw | looked | fill =>
      refine hset (fun hi => ?_) hc'
      exact absurd (congrArg some hi.symm) hop
  | @push j call since existed request hpc _ =>
      refine hset (fun hi => ?_) hc'
      exact EngineCall.Told.waiting (h _ (hi ▸ hpc))
  | popBatch _ _ | update _ | invalidate _ | endBatch _ | rotate _ _ | checkFlush _ | rotateClear _ | rotatePublish _
  | background _ _ => exact h c' hc'
  | throwsApplying _ => exact hC.elim
  | throwsChecking _ => exact hC.elim
  | @complete j success results dropped hpc =>
      have hoccupied := hpipeline.occupied
      rw [hpc] at hoccupied
      obtain ⟨rfl, rfl⟩ : success = true ∧ dropped = [] := hoccupied
      have hc' : (s.fulfil j true).calls i = some c' := hc'
      rw [calls_fulfil] at hc'
      split_ifs at hc' with hi
      · obtain ⟨c, hc, rfl⟩ := Option.map_eq_some_iff.mp hc'
        exact LiveCall.told_finish (h c (hi ▸ hc))
      · exact h c' hc'
  | @completed success dropped hpc =>
      have hoccupied := hpipeline.occupied
      rw [hpc] at hoccupied
      obtain ⟨rfl, rfl⟩ : success = true ∧ dropped = [] := hoccupied
      exact h c' (by simpa [breakPromises] using hc')

/-- The search of a call moves nothing but that call. -/
theorem step_searcher {op : LiveOp ι} {i : ι} (hop : op.searcher? = some i) (hs : s.step op = some s') :
    s'.writes = s.writes ∧ ∃ c, s.calls i = some c ∧ c.Searches := by
  cases Effect.of_step hs with
  | uncached hpc | hit hpc | miss hpc | readActive hpc | readImmutable hpc | takeVersion hpc | found hpc | searched hpc
  | threw hpc | looked hpc | fill hpc =>
      obtain rfl := Option.some.inj hop
      exact ⟨rfl, _, hpc, _, rfl⟩
  | _ => exact absurd hop (by simp [LiveOp.searcher?])

end LiveEngine

end Told

end KvStorageEngine

namespace KvStorageEngine.Server

open Distributed KeyedWrites Run

/-! ## B. What the client expects

The client goes by its own answers: what was answered `STORED` or `DELETED` has left its key so. -/

/-- What a request writes. -/
def Request.write? (req : Request) : Option (Write Bytes Bytes) := req.writeRequest?.map WriteRequest.write

/-- What the client's requests leave in the store. -/
def expected (contents : MapState) (answers : List Answer) : MapState :=
  applyWrites contents (answers.filterMap (·.request.write?))

/-- A GET answers what the store should hold, a DELETE whether the key should have been there, and a PUT is
    acknowledged. -/
def Answer.Right (a : Answer) (m : MapState) : Prop :=
  match a.request.type with
  | .put => a.response = Response.ok "STORED"
  | .get => a.response = getResponse (m a.request.key)
  | .delete => a.response = Response.ok "DELETED" ↔ (m a.request.key).isSome
  | _ => True

/-- Every answer is right after the requests before it. -/
def ReadsItsWrites (contents : MapState) (answers : List Answer) : Prop :=
  ∀ before a, before ++ [a] <+: answers → a.Right (expected contents before)

/-- A client that has not asked has seen nothing wrong. -/
theorem readsItsWrites_nil (contents : MapState) : ReadsItsWrites contents [] :=
  fun before a h => absurd (List.prefix_nil.mp h) (by simp)

/-- One answer more, and it is right. -/
theorem ReadsItsWrites.concat {contents : MapState} {answers : List Answer} {a : Answer}
    (h : ReadsItsWrites contents answers) (hlast : a.Right (expected contents answers)) :
    ReadsItsWrites contents (answers ++ [a]) := by
  intro before b hb
  rcases List.prefix_concat_iff.mp hb with heq | hb
  · obtain ⟨rfl, hab⟩ := List.append_inj' heq rfl
    obtain rfl := List.singleton_inj.mp hab
    exact hlast
  · exact h before b hb

theorem delResponse_eq_deleted {existed : Bool} : delResponse existed = Response.ok "DELETED" ↔ existed = true := by
  cases existed <;> simp [delResponse, Response.ok, Response.error]

/-! ## C. The two writers

The handlers and the apply loop write the leader's engine. The handlers' writes are the client's, and the apply loop's
are the log's. -/

/-- The writes that the apply loop has not made. -/
def ownWrites (ws : List (LiveWrite Caller)) : List (Write Bytes Bytes) :=
  (ws.filter (·.caller ≠ .applyLoop)).map (·.request.write)

/-- What they have left under `k`. -/
def ownValue (contents : MapState) (ws : List (LiveWrite Caller)) (k : Bytes) : Option Bytes :=
  applyWrites contents (ownWrites ws) k

/-- The last write under `k`, if the apply loop made it. -/
def reexecuted (ws : List (LiveWrite Caller)) (k : Bytes) : Option (Write Bytes Bytes) :=
  ((lastOn (fun w : LiveWrite Caller => w.request.key) k ws).filter (·.caller = .applyLoop)).map (·.request.write)

/-- What all of the writes leave under `k` is what the client's own leave, unless the apply loop has written over it. -/
theorem agrees_ownValue {contents : MapState} {ws : List (LiveWrite Caller)} {k : Bytes} {call : EngineCall}
    (h : ∀ w, reexecuted ws k = some w → call.Agrees w.value (ownValue contents ws k)) :
    call.Agrees (applyWrites contents (ws.map (·.request.write)) k) (ownValue contents ws k) := by
  cases hlast : lastOn (fun w : LiveWrite Caller => w.request.key) k ws with
  | none =>
      have hne (v : Write Bytes Bytes) (p : LiveWrite Caller → Bool) (hv : v ∈ (ws.filter p).map (·.request.write)) :
          v.key ≠ k := by
        obtain ⟨w, hw, rfl⟩ := List.mem_map.mp hv
        rw [WriteRequest.key_write]
        exact lastOn_eq_none.mp hlast w (List.mem_of_mem_filter hw)
      have hall : applyWrites contents (ws.map (·.request.write)) k = contents k := by
        refine applyWrites_of_lastOn_none (lastOn_eq_none.mpr fun v hv => hne v (fun _ => true) ?_)
        rwa [List.filter_true]
      have hown : ownValue contents ws k = contents k :=
        applyWrites_of_lastOn_none (lastOn_eq_none.mpr fun v hv => hne v _ hv)
      rw [hall, hown]
      exact call.agrees_refl _
  | some w =>
      have hall : applyWrites contents (ws.map (·.request.write)) k = w.request.write.value := by
        apply applyWrites_of_lastOn
        rw [lastOn_map]
        simp only [WriteRequest.key_write]
        exact congrArg (Option.map _) hlast
      rw [hall]
      by_cases hcaller : w.caller = .applyLoop
      · refine h w.request.write ?_
        unfold reexecuted
        rw [hlast, Option.filter_some_pos (by simpa using hcaller), Option.map_some]
      · have hown : ownValue contents ws k = w.request.write.value := by
          apply applyWrites_of_lastOn
          unfold ownWrites
          rw [lastOn_map]
          simp only [WriteRequest.key_write]
          exact congrArg (Option.map _) (lastOn_filter hlast (by simpa using hcaller))
        rw [hown]
        exact call.agrees_refl _

theorem ownWrites_concat (ws : List (LiveWrite Caller)) (w : LiveWrite Caller) : ownWrites (ws ++ [w]) =
    ownWrites ws ++ if w.caller = .applyLoop then [] else [w.request.write] := by
  unfold ownWrites
  rw [List.filter_append, List.map_append]
  split_ifs with hcaller
  · simp [hcaller]
  · simp [hcaller]

/-- What only the apply loop has written since does not count. -/
theorem ownWrites_take {ws : List (LiveWrite Caller)} {m : Nat}
    (h : ∀ k w, ws[k]? = some w → m ≤ k → w.caller = .applyLoop) : ownWrites (ws.take m) = ownWrites ws := by
  have hdrop : ownWrites (ws.drop m) = [] := by
    refine List.map_eq_nil_iff.mpr (List.filter_eq_nil_iff.mpr fun w hw => ?_)
    obtain ⟨k, hk⟩ := List.getElem?_of_mem hw
    rw [List.getElem?_drop] at hk
    simpa using h (m + k) w hk (Nat.le_add_right m k)
  have hsplit : ownWrites (ws.take m ++ ws.drop m) = ownWrites (ws.take m) ++ ownWrites (ws.drop m) := by
    unfold ownWrites
    rw [List.filter_append, List.map_append]
  rw [List.take_append_drop, hdrop, List.append_nil] at hsplit
  exact hsplit.symm

/-! ## D. The client's runs -/

/-- The handler has sent its response. -/
def Handler.Answered (handler : Handler) : Prop := ∃ response, handler.pc = .answered response

instance : DecidablePred Handler.Answered
  | ⟨_, .answered response⟩ => isTrue ⟨response, rfl⟩
  | ⟨_, .replicating⟩ | ⟨_, .executing⟩ | ⟨_, .calling⟩ => isFalse fun ⟨_, h⟩ => nomatch h

theorem not_answered {req : Request} {pc : HandlerPc} (h : ∀ response, pc ≠ .answered response) :
    ¬ (Handler.mk req pc).Answered := by
  rintro ⟨response, hpc⟩
  exact h response hpc

namespace LeaderNode

variable [Platform] {n : Nat} {mine : Nat → Bool} {stores : Option (Fin n) → Store} {s s' : LeaderNode n}

/-- The client's answers, in order. -/
def answersOf (mine : Nat → Bool) (s : LeaderNode n) : List Answer := s.answers.filter (mine ·.caller)

/-- Nobody but the client writes, and the client waits for each answer before it sends the next request. -/
def OneAtATime (mine : Nat → Bool) (s : LeaderNode n) : NodeOp n → Prop
  | .request t req =>
    if mine t then ∀ u handler, mine u = true → s.handlers u = some handler → handler.Answered
    else ¬ req.type.IsWrite
  | _ => True

/-- At every step of a lookup of the client's the apply loop has at no moment since the lookup began, so far, had the
    last word on the key, or it has left there what the client had (for a DELETE: something as live). -/
def Undisturbed (mine : Nat → Bool) (contents : MapState) (s : LeaderNode n) : NodeOp n → Prop
  | .engine none op => ∀ t, mine t = true → op.searcher? = some (.handler t) →
    ∀ c, s.engine.calls (.handler t) = some c → ∀ m, c.since ≤ m → m ≤ s.engine.writes.length →
      ∀ w, reexecuted (s.engine.writes.take m) c.call.key = some w →
        c.call.Agrees w.value (ownValue contents (s.engine.writes.take m) c.call.key)
  | _ => True

/-! ## E. The invariant of a session

What the client expects is what its own writes have left, and its one request under way has its place in the account
of the engine. -/

/-- What the client's answered requests have written. -/
def answered (mine : Nat → Bool) (s : LeaderNode n) : List (Write Bytes Bytes) :=
  (s.answersOf mine).filterMap (·.request.write?)

/-- What the request of a handler has written by now. -/
def writtenBy (s : LeaderNode n) (t : Nat) : List (Write Bytes Bytes) :=
  (s.engine.writesOf (.handler t)).map WriteRequest.write

structure Session (mine : Nat → Bool) (stores : Option (Fin n) → Store) (s : LeaderNode n) : Prop where
  node : s.Inv stores
  /-- The others only read. -/
  others : ∀ t handler, mine t = false → s.handlers t = some handler → ¬ handler.request.type.IsWrite
  /-- The client has at most one request under way. -/
  single : ∀ t u h h', mine t = true → mine u = true → s.handlers t = some h → s.handlers u = some h' →
    ¬ h.Answered → ¬ h'.Answered → t = u
  /-- The client's answered requests and the handlers' writes tell the same story. -/
  quiet : (∀ t handler, mine t = true → s.handlers t = some handler → handler.Answered) →
    ownWrites s.engine.writes = s.answered mine
  /-- The request under way may have been carried out. -/
  own : ∀ t handler, mine t = true → s.handlers t = some handler → ¬ handler.Answered →
    ownWrites s.engine.writes = s.answered mine ++ s.writtenBy t
  /-- Since a lookup of the client's began only the apply loop has written. -/
  lately : ∀ t c, mine t = true → s.engine.calls (.handler t) = some c → c.Searches →
    ∀ k w, s.engine.writes[k]? = some w → c.since ≤ k → w.caller = .applyLoop
  /-- What a call of the client's has been told is what the client expects. -/
  told : ∀ t handler c, mine t = true → s.handlers t = some handler → handler.pc = .calling →
    s.engine.calls (.handler t) = some c →
      c.call.Told (expected (stores none).engine.contents (s.answersOf mine) c.call.key) c.pc

/-- A client that has not asked anything yet. -/
theorem session_init (nodeId : Nat) (mine : Nat → Bool) (hstores : ∀ who, (stores who).Started) :
    (init n nodeId stores).Session mine stores where
  node := inv_init n nodeId hstores
  others t handler _ ht := absurd ht (by simp [init])
  single t u h h' _ _ ht := absurd ht (by simp [init])
  quiet _ := rfl
  own t handler _ ht := absurd ht (by simp [init])
  lately t c _ hc := absurd hc (by simp [init, engine, LiveEngine.start])
  told t handler c _ ht := absurd ht (by simp [init])

/-- A handler that writes belongs to the client. -/
theorem Session.mine_of_write (h : s.Session mine stores) {t : Nat} {handler : Handler}
    (ht : s.handlers t = some handler) (hwrite : handler.request.type.IsWrite) : mine t = true := by
  by_contra hmine
  exact h.others t handler (by simpa using hmine) ht hwrite

/-- A handler of which the engine has, or had, a request. -/
theorem Session.handler_of_account (h : s.Session mine stores) {t : Nat} (haccount : s.engine.account (.handler t) ≠ []) :
    mine t = true ∧ ∃ handler, s.handlers t = some handler := by
  have heq : s.engine.account (.handler t) = s.askedOf t none := h.node.accounts none t
  rw [heq] at haccount
  unfold askedOf at haccount
  cases ht : s.handlers t with
  | none => exact absurd (by rw [ht]; rfl) haccount
  | some handler =>
      refine ⟨h.mine_of_write ht ?_, handler, rfl⟩
      by_contra hread
      refine haccount ?_
      rw [ht]
      obtain ⟨req, pc⟩ := handler
      cases pc with
      | replicating | executing => rfl
      | calling | answered response =>
          show req.writeRequest?.toList = []
          rw [Request.writeRequest?_of_read hread]
          rfl

/-- Whoever waits is the client's one handler that is not done. -/
theorem Session.handler_of_waits (h : s.Session mine stores) {t : Nat} {c : LiveCall}
    (hc : s.engine.calls (.handler t) = some c) (hwaits : c.Waits) :
    mine t = true ∧ ∃ handler, s.handlers t = some handler ∧ ¬ handler.Answered := by
  have haccount : s.engine.account (.handler t) ≠ [] := fun hnil =>
    (h.node.pipeline none).not_waits_of_account hnil hc hwaits
  obtain ⟨hmine, -⟩ := h.handler_of_account haccount
  obtain ⟨handler, ht, -, hpc | ⟨hreturned, -⟩⟩ := h.node.called t c hc
  · refine ⟨hmine, handler, ht, ?_⟩
    rintro ⟨response, hanswered⟩
    exact absurd (hpc.symm.trans hanswered) (by simp)
  · exact absurd hwaits (LiveCall.not_waits_of_returned hreturned)

/-- A call that searches is that of a handler that is not done. -/
theorem Session.handler_of_searches (h : s.Session mine stores) {t : Nat} {c : LiveCall}
    (hc : s.engine.calls (.handler t) = some c) (hsearches : c.Searches) :
    ∃ handler, s.handlers t = some handler ∧ handler.pc = .calling := by
  obtain ⟨handler, ht, -, hpc | ⟨⟨result, hreturned⟩, -⟩⟩ := h.node.called t c hc
  · exact ⟨handler, ht, hpc⟩
  · obtain ⟨pc, hpc⟩ := hsearches
    exact absurd (hpc.symm.trans hreturned) (by simp)

omit [Platform] in
theorem not_answered_of_calling {handler : Handler} (hpc : handler.pc = .calling) : ¬ handler.Answered := by
  rintro ⟨response, hanswered⟩
  exact absurd (hpc.symm.trans hanswered) (by simp)

/-- Nothing has been written for a handler that has not been to the engine, -/
theorem Session.writtenBy_of_account (h : s.Session mine stores) {t : Nat} (hasked : s.askedOf t none = []) :
    s.writtenBy t = [] := by
  have heq : s.engine.account (.handler t) = s.askedOf t none := h.node.accounts none t
  rw [hasked] at heq
  unfold writtenBy
  rw [(List.append_eq_nil_iff.mp heq).1]
  rfl

/-- nor for one whose call is at its search, -/
theorem Session.writtenBy_of_searches (h : s.Session mine stores) {t : Nat} {c : LiveCall}
    (hc : s.engine.calls (.handler t) = some c) (hsearches : c.Searches) : s.writtenBy t = [] := by
  obtain ⟨handler, ht, hpc⟩ := h.handler_of_searches hc hsearches
  obtain ⟨handler', ht', hcall, -⟩ := h.node.called t c hc
  obtain rfl := Option.some.inj (ht.symm.trans ht')
  have heq : s.engine.writesOf (.handler t) ++ s.engine.owed (.handler t) = s.askedOf t none := h.node.accounts none t
  obtain ⟨pc, hsearch⟩ := hsearches
  have howed : s.engine.owed (.handler t) = c.call.request?.toList := by
    unfold LiveEngine.owed LiveCall.owed
    rw [hc, Option.elim_some, hsearch]
  have hasked : s.askedOf t none = c.call.request?.toList := by
    unfold askedOf Handler.asked Request.writeRequest?
    rw [ht, Option.elim_some, hpc, hcall]
    rfl
  rw [howed, hasked] at heq
  unfold writtenBy
  rw [List.append_left_eq_self.mp heq]
  rfl

/-- and what is written for one whose call has returned is what its request says. -/
theorem Session.writtenBy_of_returned (h : s.Session mine stores) {t : Nat} {req : Request} {c : LiveCall}
    (ht : s.handlers t = some ⟨req, .calling⟩) (hc : s.engine.calls (.handler t) = some c) (hreturned : c.Returned) :
    s.writtenBy t = req.write?.toList := by
  have heq : s.engine.writesOf (.handler t) ++ s.engine.owed (.handler t) = s.askedOf t none := h.node.accounts none t
  have howed : s.engine.owed (.handler t) = [] := LiveEngine.owed_of_returned fun c' hc' => by
    obtain rfl := Option.some.inj (hc.symm.trans hc')
    exact hreturned
  have hasked : s.askedOf t none = req.writeRequest?.toList := by
    unfold askedOf
    rw [ht]
    rfl
  rw [howed, hasked, List.append_nil] at heq
  unfold writtenBy Request.write?
  rw [heq]
  cases req.writeRequest? <;> rfl

/-- A handler moves on, to a place where it is not done and has no call. -/
theorem Session.setHandler (h : s.Session mine stores) {t : Nat} {req : Request} {pc : HandlerPc}
    (hnode : (s.setHandler t req pc).Inv stores) (hcalling : pc ≠ .calling) (hbusy : ¬ (Handler.mk req pc).Answered)
    (hothers : mine t = false → ¬ req.type.IsWrite)
    (hsingle : mine t = true → ∀ u h', mine u = true → s.handlers u = some h' → ¬ h'.Answered → u = t)
    (hown : mine t = true → ownWrites s.engine.writes = s.answered mine ++ s.writtenBy t) :
    (s.setHandler t req pc).Session mine stores := by
  have hself := handlers_setHandler_self s t req pc
  have hne {u : Nat} (hut : u ≠ t) := handlers_setHandler_ne s hut req pc
  refine ⟨hnode, fun u handler hmine hu => ?_, fun u v hu' hv' hmu hmv hu hv hbu hbv => ?_, fun hall => ?_,
    fun u handler hmine hu hb => ?_, h.lately, fun u handler c hmine hu hpc hc => ?_⟩
  · exact forall_handlers_setHandler (P := fun u handler => mine u = false → ¬ handler.request.type.IsWrite)
      (fun u handler hu hmine => h.others u handler hmine hu) hothers u handler hu hmine
  · -- two busy handlers of the client, one of which may be the one that moves
    by_cases hut : u = t <;> by_cases hvt : v = t
    · exact hut.trans hvt.symm
    · subst hut
      exact (hsingle hmu v hv' hmv ((hne hvt).symm.trans hv) hbv).symm
    · subst hvt
      exact hsingle hmv u hu' hmu ((hne hut).symm.trans hu) hbu
    · exact h.single u v hu' hv' hmu hmv ((hne hut).symm.trans hu) ((hne hvt).symm.trans hv) hbu hbv
  · refine h.quiet fun u handler hmine hu => ?_
    by_cases hut : u = t
    · subst hut
      exact absurd (hall u _ hmine hself) hbusy
    · exact hall u handler hmine ((hne hut).trans hu)
  · by_cases hut : u = t
    · subst hut
      exact hown hmine
    · exact h.own u handler hmine ((hne hut).symm.trans hu) hb
  · by_cases hut : u = t
    · subst hut
      obtain rfl := Option.some.inj (hself.symm.trans hu)
      exact absurd hpc hcalling
    · exact h.told u handler c hmine ((hne hut).symm.trans hu) hpc hc

theorem answersOf_answer (s : LeaderNode n) (t : Nat) (req : Request) (response : Response) :
    (s.answer t req response).answersOf mine =
      s.answersOf mine ++ if mine t then [⟨t, req, response⟩] else [] := by
  show (s.answers ++ [Answer.mk t req response]).filter (mine ·.caller) = _
  by_cases hmine : mine t = true
  · simp [answersOf, hmine]
  · simp [answersOf, hmine]

/-- A handler sends its response, when its request has written what it says. -/
theorem Session.answer (h : s.Session mine stores) {t : Nat} {req : Request} {pc : HandlerPc} {response : Response}
    (hpc : s.handlers t = some ⟨req, pc⟩) (hbusy : ¬ (Handler.mk req pc).Answered)
    (hnode : (s.answer t req response).Inv stores) (hwritten : s.writtenBy t = req.write?.toList) :
    (s.answer t req response).Session mine stores := by
  have hself : (s.answer t req response).handlers t = some ⟨req, .answered response⟩ := handlers_setHandler_self ..
  have hne {u : Nat} (hut : u ≠ t) : (s.answer t req response).handlers u = s.handlers u :=
    handlers_setHandler_ne s hut req _
  -- a busy handler of the client is another one, and then this one is not the client's
  have hbefore {u : Nat} {handler : Handler} (hu : (s.answer t req response).handlers u = some handler)
      (hb : ¬ handler.Answered) : s.handlers u = some handler ∧ (mine u = true → mine t = false) := by
    have hut : u ≠ t := by
      rintro rfl
      obtain rfl := Option.some.inj (hself.symm.trans hu)
      exact hb ⟨response, rfl⟩
    have hu' := (hne hut).symm.trans hu
    refine ⟨hu', fun hmine => ?_⟩
    by_contra hmt
    exact hut (h.single u t _ _ hmine (by simpa using hmt) hu' hpc hb hbusy)
  have hkeep (hmine : mine t = false) : (s.answer t req response).answersOf mine = s.answersOf mine := by
    rw [answersOf_answer, if_neg (by simp [hmine]), List.append_nil]
  refine ⟨hnode, fun u handler hmine hu => ?_, fun u v hu' hv' hmu hmv hu hv hbu hbv => ?_, fun hall => ?_,
    fun u handler hmine hu hb => ?_, h.lately, fun u handler c hmine hu hcalling hc => ?_⟩
  · have hothers : mine t = false → ¬ req.type.IsWrite := fun hmine => h.others t _ hmine hpc
    exact forall_handlers_setHandler (P := fun u handler => mine u = false → ¬ handler.request.type.IsWrite)
      (fun u handler hu hmine => h.others u handler hmine hu) hothers u handler hu hmine
  · exact h.single u v hu' hv' hmu hmv (hbefore hu hbu).1 (hbefore hv hbv).1 hbu hbv
  · show ownWrites s.engine.writes = ((s.answer t req response).answersOf mine).filterMap _
    by_cases hmine : mine t = true
    · rw [answersOf_answer, if_pos hmine, h.own t _ hmine hpc hbusy, hwritten, List.filterMap_append]
      congr 1
    · rw [hkeep (by simpa using hmine)]
      refine h.quiet fun u handler hmu hu => ?_
      have hut : u ≠ t := by
        rintro rfl
        exact hmine hmu
      exact hall u handler hmu ((hne hut).trans hu)
  · obtain ⟨hu', hmt⟩ := hbefore hu hb
    show ownWrites s.engine.writes = ((s.answer t req response).answersOf mine).filterMap _ ++ s.writtenBy u
    rw [hkeep (hmt hmine)]
    exact h.own u handler hmine hu' hb
  · obtain ⟨hu', hmt⟩ := hbefore hu (not_answered_of_calling hcalling)
    rw [hkeep (hmt hmine)]
    exact h.told u handler c hmine hu' hcalling hc

/-- What goes on elsewhere. -/
theorem Session.congr (h : s.Session mine stores) (hnode : s'.Inv stores) (hhandlers : s'.handlers = s.handlers)
    (hanswers : s'.answers = s.answers) (hengine : s'.engine = s.engine) : s'.Session mine stores := by
  have hof : s'.answersOf mine = s.answersOf mine := congrArg (List.filter _) hanswers
  have hanswered : s'.answered mine = s.answered mine := congrArg (List.filterMap _) hof
  have hwritten : s'.writtenBy = s.writtenBy := by
    funext t
    unfold writtenBy
    rw [hengine]
  refine ⟨hnode, ?_, ?_, ?_, ?_, ?_, ?_⟩
  · rw [hhandlers]
    exact h.others
  · rw [hhandlers]
    exact h.single
  · rw [hhandlers, hengine, hanswered]
    exact h.quiet
  · rw [hhandlers, hengine, hanswered, hwritten]
    exact h.own
  · rw [hengine]
    exact h.lately
  · rw [hhandlers, hengine, hof]
    exact h.told

/-- The leader's engine takes a step. -/
theorem Session.engine_step (h : s.Session mine stores) (hnode : s'.Inv stores) (hhandlers : s'.handlers = s.handlers)
    (hanswers : s'.answers = s.answers) {eop : LiveOp Caller} (hsound : s.engine.Sound eop)
    (he : s.engine.step eop = some s'.engine) (hop : ∀ t call, eop ≠ .call (.handler t) call)
    (hund : Undisturbed mine (stores none).engine.contents s (.engine none eop)) : s'.Session mine stores := by
  have hpipeline : LiveEngine.Pipeline s.engine := h.node.pipeline none
  have hof : s'.answersOf mine = s.answersOf mine := congrArg (List.filter _) hanswers
  have hanswered : s'.answered mine = s.answered mine := congrArg (List.filterMap _) hof
  -- a new write is the apply loop's, or that of the one request under way
  have hwrites : ownWrites s'.engine.writes = ownWrites s.engine.writes ∧ s'.writtenBy = s.writtenBy ∧
        (∃ more, s'.engine.writes = s.engine.writes ++ more ∧ ∀ w ∈ more, w.caller = .applyLoop) ∨
      ∃ t w c, s'.engine.writes = s.engine.writes ++ [w] ∧ w.caller = .handler t ∧
        s.engine.calls (.handler t) = some c ∧ c.Waits := by
    have hwrittenBy (u : Nat) : s'.writtenBy u =
        ((s'.engine.writes.filter (·.caller = .handler u)).map (·.request)).map WriteRequest.write := rfl
    rcases hpipeline.new_write he with heq | ⟨w, c, heq, hc, hwaits⟩
    · refine Or.inl ⟨congrArg ownWrites heq, ?_, [], heq.trans (List.append_nil _).symm, by simp⟩
      funext u
      rw [hwrittenBy, heq]
      rfl
    · cases hcaller : w.caller with
      | applyLoop =>
          refine Or.inl ⟨?_, ?_, [w], heq, by simpa using hcaller⟩
          · rw [heq, ownWrites_concat, if_pos hcaller, List.append_nil]
          · funext u
            rw [hwrittenBy, heq, List.filter_append]
            simp [hcaller, writtenBy, LiveEngine.writesOf]
      | handler t => exact Or.inr ⟨t, w, c, heq, hcaller, hcaller ▸ hc, hwaits⟩
  have hcalls {t : Nat} {c' : LiveCall} (hc' : s'.engine.calls (.handler t) = some c') :=
    LiveEngine.calls_step he (hop t) hc'
  refine ⟨hnode, ?_, ?_, fun hall => ?_, fun t handler hmine ht hbusy => ?_, fun t c' hmine hc' hsearches => ?_,
    fun t handler c' hmine ht hpc hc' => ?_⟩
  · rw [hhandlers]
    exact h.others
  · rw [hhandlers]
    exact h.single
  · rw [hhandlers] at hall
    rcases hwrites with ⟨hown, -, -⟩ | ⟨t, w, c, -, -, hc, hwaits⟩
    · rw [hown, hanswered]
      exact h.quiet hall
    · obtain ⟨hmine, handler, ht, hbusy⟩ := h.handler_of_waits hc hwaits
      exact absurd (hall t handler hmine ht) hbusy
  · rw [hhandlers] at ht
    rcases hwrites with ⟨hown, hwritten, -⟩ | ⟨u, w, c, heq, hcaller, hc, hwaits⟩
    · rw [hown, hanswered, hwritten]
      exact h.own t handler hmine ht hbusy
    · obtain ⟨hmu, handler', hu, hbusy'⟩ := h.handler_of_waits hc hwaits
      obtain rfl := h.single t u _ _ hmine hmu ht hu hbusy hbusy'
      have hwritten : s'.writtenBy t = s.writtenBy t ++ [w.request.write] := by
        show ((s'.engine.writes.filter (·.caller = .handler t)).map (·.request)).map WriteRequest.write = _
        rw [heq, List.filter_append, List.map_append, List.map_append]
        simp [hcaller, writtenBy, LiveEngine.writesOf]
      rw [heq, ownWrites_concat, if_neg (by simp [hcaller]), hanswered, hwritten, h.own t handler hmine ht hbusy,
        List.append_assoc]
  · obtain ⟨c, hc, -, hsince, -, hsearches'⟩ := hcalls hc'
    intro k w hk hle
    rcases hwrites with ⟨-, -, more, heq, hmore⟩ | ⟨u, v, d, heq, hcaller, hd, hwaits⟩
    · rw [heq] at hk
      by_cases hlt : k < s.engine.writes.length
      · rw [List.getElem?_append_left hlt] at hk
        exact h.lately t c hmine hc (hsearches' hsearches) k w hk (hsince ▸ hle)
      · rw [List.getElem?_append_right (by omega)] at hk
        exact hmore w (List.mem_of_getElem? hk)
    · -- the client's one call cannot wait and search
      obtain ⟨hmu, handler', hu, hbusy'⟩ := h.handler_of_waits hd hwaits
      obtain ⟨handler, ht, hpc⟩ := h.handler_of_searches hc (hsearches' hsearches)
      obtain rfl := h.single t u _ _ hmine hmu ht hu (not_answered_of_calling hpc) hbusy'
      obtain rfl := Option.some.inj (hc.symm.trans hd)
      obtain ⟨pc, hsearching⟩ := hsearches' hsearches
      obtain ⟨existed, hwaiting⟩ := hwaits
      exact absurd (hsearching.symm.trans hwaiting) (by simp)
  · rw [hhandlers] at ht
    rw [hof]
    by_cases hsearcher : eop.searcher? = some (.handler t)
    · obtain ⟨hwrites, c, hc, hsearches⟩ := LiveEngine.step_searcher hsearcher he
      obtain ⟨d, hd, hcall, hsince, -, -⟩ := hcalls hc'
      obtain rfl := Option.some.inj (hc.symm.trans hd)
      obtain ⟨virt, hinv⟩ := hnode.engines none
      refine told_of_right (hinv.calls _ c' hc').right fun m hge hle => ?_
      have hle : m ≤ s'.engine.writes.length := hle
      rw [hwrites] at hle
      rw [hsince] at hge
      -- what the writes leave at that moment is what the client has left there
      have hagrees := agrees_ownValue (hund t hmine hsearcher c hc m hge hle)
      have hown : ownWrites (s.engine.writes.take m) = s.answered mine := by
        rw [ownWrites_take fun k w hk hm => h.lately t c hmine hc hsearches k w hk (hge.trans hm),
          h.own t handler hmine ht (not_answered_of_calling hpc), h.writtenBy_of_searches hc hsearches, List.append_nil]
      unfold ownValue at hagrees
      rw [hown] at hagrees
      show c'.call.Agrees (applyWrites _ ((s'.engine.writes.take m).map _) c'.call.key) _
      rw [hwrites, hcall]
      exact hagrees
    · refine LiveEngine.told_step hpipeline hsound.1 he hsearcher (fun d hd => ?_) hc'
      obtain ⟨d', hd', hcall, -⟩ := hcalls hc'
      obtain rfl := Option.some.inj (hd.symm.trans hd')
      rw [hcall]
      exact h.told t handler d hmine ht hpc hd

/-- A handler calls the engine. -/
theorem Session.call (h : s.Session mine stores) {t : Nat} {req : Request} {call : EngineCall}
    {engine' : LiveEngine Caller} (hpc : s.handlers t = some ⟨req, .executing⟩)
    (he : s.engine.step (.call (.handler t) call) = some engine')
    (hnode : ((s.setEngine none engine').setHandler t req .calling).Inv stores) :
    ((s.setEngine none engine').setHandler t req .calling).Session mine stores := by
  have hbusy : ¬ (Handler.mk req .executing).Answered := not_answered (by simp)
  have hengine : ((s.setEngine none engine').setHandler t req .calling).engine = engine' := s.engine_setEngine engine'
  obtain ⟨heq, -⟩ := LiveEngine.calls_call he
  have hwrites : engine'.writes = s.engine.writes := by
    rw [heq]
    rfl
  have hcalls (u : Nat) : engine'.calls (.handler u) =
      if u = t then some ⟨call, s.engine.acked, LivePc.begin call⟩ else s.engine.calls (.handler u) := by
    rw [heq, LiveEngine.calls_setCall]
    simp
  have hself : ((s.setEngine none engine').setHandler t req .calling).handlers t = some ⟨req, .calling⟩ :=
    handlers_setHandler_self ..
  have hne {u : Nat} (hut : u ≠ t) : ((s.setEngine none engine').setHandler t req .calling).handlers u =
      s.handlers u := handlers_setHandler_ne _ hut req _
  have hbefore {u : Nat} {handler : Handler} (hb : ¬ handler.Answered)
      (hu : ((s.setEngine none engine').setHandler t req .calling).handlers u = some handler) :
      ∃ handler', s.handlers u = some handler' ∧ ¬ handler'.Answered := by
    by_cases hut : u = t
    · subst hut
      exact ⟨_, hpc, hbusy⟩
    · exact ⟨handler, (hne hut).symm.trans hu, hb⟩
  have hwritten (u : Nat) : ((s.setEngine none engine').setHandler t req .calling).writtenBy u = s.writtenBy u := by
    unfold writtenBy LiveEngine.writesOf
    rw [hengine, hwrites]
  refine ⟨hnode, fun u handler hmine hu => ?_, fun u v hu' hv' hmu hmv hu hv hbu hbv => ?_, fun hall => ?_,
    fun u handler hmine hu hb => ?_, fun u c hmine hc hsearches => ?_, fun u handler c hmine hu hcalling hc => ?_⟩
  · have hothers : mine t = false → ¬ req.type.IsWrite := fun hmine => h.others t _ hmine hpc
    exact forall_handlers_setHandler (P := fun u handler => mine u = false → ¬ handler.request.type.IsWrite)
      (fun u handler hu hmine => h.others u handler hmine hu) hothers u handler hu hmine
  · obtain ⟨x, hx, hbx⟩ := hbefore hbu hu
    obtain ⟨y, hy, hby⟩ := hbefore hbv hv
    exact h.single u v x y hmu hmv hx hy hbx hby
  · rw [hengine, hwrites]
    refine h.quiet fun u handler hmine hu => ?_
    by_cases hut : u = t
    · subst hut
      exact absurd (hall u _ hmine hself) (not_answered_of_calling rfl)
    · exact hall u handler hmine ((hne hut).trans hu)
  · obtain ⟨handler', hu', hb'⟩ := hbefore hb hu
    rw [hengine, hwrites, hwritten]
    exact h.own u handler' hmine hu' hb'
  · rw [hengine] at hc
    rw [hengine, hwrites]
    rw [hcalls] at hc
    split_ifs at hc with hut
    · -- all that the handlers have written is acknowledged
      subst hut
      obtain rfl := Option.some.inj hc
      intro k w hk hle
      cases hcaller : w.caller with
      | applyLoop => rfl
      | handler v =>
          exfalso
          have hreturned : ∀ d, s.engine.calls (.handler v) = some d → d.Returned := by
            intro d hd
            obtain ⟨handler, hv, -, hcalling | ⟨hreturned, -⟩⟩ := h.node.called v d hd
            · have hmem : w.request ∈ s.engine.account (.handler v) :=
                List.mem_append_left _ (List.mem_map_of_mem
                  (List.mem_filter.mpr ⟨List.mem_of_getElem? hk, by simpa using hcaller⟩))
              obtain ⟨hmv, -⟩ := h.handler_of_account (List.ne_nil_of_mem hmem)
              obtain rfl := h.single u v _ _ hmine hmv hpc hv hbusy (not_answered_of_calling hcalling)
              obtain rfl := Option.some.inj (hpc.symm.trans hv)
              exact absurd hcalling (by simp)
            · exact hreturned
          have hlt : k < s.engine.acked := (h.node.pipeline none).acked_of_returned hreturned hk hcaller
          have hle : s.engine.acked ≤ k := hle
          omega
    · exact h.lately u c hmine hc hsearches
  · rw [hengine, hcalls] at hc
    split_ifs at hc with hut
    · obtain rfl := Option.some.inj hc
      exact call.told_begin
    · exact h.told u handler c hmine ((hne hut).symm.trans hu) hcalling hc

/-- **One step.** -/
theorem Session.step (h : s.Session mine stores) {op : NodeOp n} (hsound : s.Sound op) (hone : OneAtATime mine s op)
    (hund : Undisturbed mine (stores none).engine.contents s op) (hs : s.step op = some s') :
    s'.Session mine stores := by
  have hnode := h.node.step hsound hs
  -- a handler that starts, while the client waits for nothing
  have hfresh {t : Nat} {req : Request} (hone : OneAtATime mine s (.request t req)) (hmine : mine t = true)
      (u : Nat) (handler : Handler) (hmu : mine u = true) (hu : s.handlers u = some handler)
      (hbusy : ¬ handler.Answered) : u = t := by
    rw [OneAtATime, if_pos hmine] at hone
    exact absurd (hone u handler hmu hu) hbusy
  have hreads {t : Nat} {req : Request} (hone : OneAtATime mine s (.request t req)) (hmine : mine t = false) :
      ¬ req.type.IsWrite := by
    rw [OneAtATime, if_neg (by simp [hmine])] at hone
    exact hone
  have hnew {t : Nat} {req : Request} (hone : OneAtATime mine s (.request t req)) (hnone : s.handlers t = none)
      (hmine : mine t = true) : ownWrites s.engine.writes = s.answered mine ++ s.writtenBy t := by
    rw [OneAtATime, if_pos hmine] at hone
    have hasked : s.askedOf t none = [] := by
      unfold askedOf
      rw [hnone]
      rfl
    rw [h.writtenBy_of_account hasked, List.append_nil]
    exact h.quiet hone
  have hgoes {t : Nat} {req : Request} {pc : HandlerPc} (hpc : s.handlers t = some ⟨req, pc⟩)
      (hbusy : ¬ (Handler.mk req pc).Answered) (hmine : mine t = true) (u : Nat) (handler : Handler)
      (hmu : mine u = true) (hu : s.handlers u = some handler) (hb : ¬ handler.Answered) : u = t :=
    h.single u t _ _ hmu hmine hu hpc hb hbusy
  cases Effect.of_step hs with
  | @replicate t req c hnone hwrite hc =>
      have hmoved : ({ s with cluster := c } : LeaderNode n).Session mine stores := by
        refine h.congr ?_ rfl rfl rfl
        exact h.node.setCluster hnode.cluster (Cluster.log_prefix_step hc).subset
          (replica_rest hc fun who l => by cases who <;> cases l <;> simp [LoopStep.op])
      exact hmoved.setHandler hnode (by simp) (not_answered (by simp)) (hreads hone) (hfresh hone) (hnew hone hnone)
  | start hnone hread =>
      exact h.setHandler hnode (by simp) (not_answered (by simp)) (fun _ => hread) (hfresh hone) (hnew hone hnone)
  | @replicated t req own ok hpc hcall =>
      have hbusy : ¬ (Handler.mk req .replicating).Answered := not_answered (by simp)
      exact h.setHandler hnode (by simp) (not_answered (by simp)) (fun hmine => h.others t _ hmine hpc)
        (hgoes hpc hbusy) (fun hmine => h.own t _ hmine hpc hbusy)
  | call hpc hcall he => exact h.call hpc he hnode
  | @direct t active req response hpc hcall hne =>
      refine h.answer hpc (not_answered (by simp)) hnode ?_
      have hasked : s.askedOf t none = [] := by
        unfold askedOf
        rw [hpc]
        rfl
      have hwrite : req.write? = none := by
        unfold Request.write? Request.writeRequest?
        rw [hcall]
        rfl
      rw [h.writtenBy_of_account hasked, hwrite]
      rfl
  | returned hpc hc =>
      exact h.answer hpc (not_answered (by simp)) hnode (h.writtenBy_of_returned hpc hc ⟨_, rfl⟩)
  | @engine who eop engine' hop he =>
      cases who with
      | none =>
          refine h.engine_step hnode rfl rfl hsound ?_ (fun t call => ne_call hop call) hund
          rw [engine_setEngine]
          exact he
      | some p => exact h.congr hnode rfl rfl (s.engine_setEngine_follower p engine')
  | read he => exact h.congr hnode rfl rfl (s.engine_setEngine_follower _ _)
  | @applyWrite who e engine' hentry hcalled he =>
      cases who with
      | none =>
          refine h.engine_step hnode rfl rfl (sound_call s.engine .applyLoop (applyLogEntry e)) ?_
            (fun t call => by simp) fun t _ hsearcher => ?_
          · rw [show ((s.setEngine none engine').setCalledBack none true).engine = engine' from
              s.engine_setEngine engine']
            exact he
          · exact absurd hsearcher (by simp [LiveOp.searcher?])
      | some p => exact h.congr hnode rfl rfl (s.engine_setEngine_follower p engine')
  | cluster | applyBegin | applyCall | applyEnd => exact h.congr hnode rfl rfl rfl

/-! ## F. What the client is answered

An answer is given when a lookup has ended, and it is right if what the lookup was told is still what the client
expects. -/

/-- The client's answers are right as long as its lookups are undisturbed. -/
theorem Session.readsItsWrites_step (h : s.Session mine stores)
    (hr : ReadsItsWrites (stores none).engine.contents (s.answersOf mine)) {op : NodeOp n} (hs : s.step op = some s') :
    ReadsItsWrites (stores none).engine.contents (s'.answersOf mine) := by
  have hanswer {t : Nat} {req : Request} {response : Response} (hright : mine t = true →
      Answer.Right ⟨t, req, response⟩ (expected (stores none).engine.contents (s.answersOf mine))) :
      ReadsItsWrites (stores none).engine.contents ((s.answer t req response).answersOf mine) := by
    rw [answersOf_answer]
    by_cases hmine : mine t = true
    · rw [if_pos hmine]
      exact hr.concat (hright hmine)
    · rw [if_neg hmine, List.append_nil]
      exact hr
  cases Effect.of_step hs with
  | @direct t active req response hpc hcall hne =>
      refine hanswer fun _ => ?_
      unfold Request.engineCall? at hcall
      unfold Answer.Right
      cases htype : req.type with
      | get | delete | put =>
          rw [htype] at hcall
          exact absurd hcall (by simp)
      | ping | quit | status | unknown => trivial
  | @returned t since req call result hpc hc =>
      refine hanswer fun hmine => ?_
      obtain ⟨handler, ht, hcall, -⟩ := h.node.called t _ hc
      obtain rfl := Option.some.inj (hpc.symm.trans ht)
      have htold := h.told t _ _ hmine hpc rfl hc
      obtain ⟨virt, hinv⟩ := h.node.engines none
      have hright : CallResult.Right _ _ _ call result := (hinv.calls _ _ hc).right
      obtain ⟨type, key, value⟩ := req
      cases type with
      | ping | quit | status | unknown => trivial
      | put =>
          obtain rfl := Option.some.inj hcall
          cases result with
          | done success =>
              have hsuccess : success = true := hright
              exact congrArg putResponse hsuccess
          | found out | threw => exact hright.elim
      | get =>
          obtain rfl := Option.some.inj hcall
          cases result with
          | found out => exact congrArg getResponse htold
          | done success | threw => exact hright.elim
      | delete =>
          obtain rfl := Option.some.inj hcall
          cases result with
          | done success =>
              have htold : success = (expected _ _ key).isSome := htold
              show delResponse success = Response.ok "DELETED" ↔ _
              rw [delResponse_eq_deleted, htold]
          | found out | threw => exact hright.elim
  | _ => exact hr

/-- **When a client reads its own writes.** In a run in which one client sends its requests one after another
    and nobody else writes, all its answers are right if the engines' steps are sound and each lookup of the
    client finds its key undisturbed by the apply loop. -/
theorem readsItsWrites_of_undisturbed {nodeId : Nat} {ops : List (NodeOp n)} (hstores : ∀ who, (stores who).Started)
    (h : exec LeaderNode.step (init n nodeId stores) ops = some s)
    (hone : Meets LeaderNode.step (OneAtATime mine) (init n nodeId stores) ops)
    (hsound : Meets LeaderNode.step Sound (init n nodeId stores) ops)
    (hund : Meets LeaderNode.step (Undisturbed mine (stores none).engine.contents) (init n nodeId stores) ops) :
    ReadsItsWrites (stores none).engine.contents (s.answersOf mine) := by
  have hall := (hone.and hsound).and hund
  have hboth := exec_invariant_of_meets
    (I := fun s : LeaderNode n => s.Session mine stores ∧
      ReadsItsWrites (stores none).engine.contents (s.answersOf mine))
    ⟨session_init nodeId mine hstores, readsItsWrites_nil _⟩
    (fun _ _ _ hi hC hs => ⟨hi.1.step hC.1.2 hC.1.1 hC.2 hs, hi.1.readsItsWrites_step hi.2 hs⟩) hall h
  exact hboth.2

/-! ## G. A client that sees what it should, and one that does not

On a leader without peers. -/

/-- The steps of the client's write number `t` through `replicate`. -/
def replicateSteps (t : Nat) (req : Request) : List (NodeOp 0) :=
  [.request t req, .cluster (.commit t), .cluster (.stamp t), .cluster (.build t), .cluster (.ship t),
    .cluster (.finish t), .replicated t]

/-- The steps of a lookup that comes past the memtables and finds no table. -/
def lookupSteps (caller : Caller) : List (NodeOp 0) :=
  [.cacheLookup caller, .readActive caller, .readImmutable caller, .takeVersion caller, .look caller].map (.engine none)

/-- The apply loop executes one entry, a PUT or a DELETE. -/
def applySteps (op : ReplicationOp) : List (NodeOp 0) :=
  [NodeOp.applyBegin none, NodeOp.applyCall none ⟨0, 0, .put, [], []⟩, NodeOp.applyWrite none] ++
    (if op = .put then [] else lookupSteps .applyLoop) ++ writeSteps none .applyLoop ++ [NodeOp.applyEnd none]

def putSteps (t : Nat) (key value : String) : List (NodeOp 0) :=
  replicateSteps t ⟨.put, Bytes.ascii key, Bytes.ascii value⟩ ++ [.execute t 1] ++ writeSteps none (.handler t) ++
    [.returned t]

def getSteps (t : Nat) (key : String) : List (NodeOp 0) :=
  [.request t ⟨.get, Bytes.ascii key, []⟩, .execute t 1] ++ lookupSteps (.handler t) ++ [.returned t]

/-- The handler of a DELETE, from its call of the engine on. -/
def delSteps (t : Nat) : List (NodeOp 0) :=
  [NodeOp.execute t 1] ++ lookupSteps (.handler t) ++ writeSteps none (.handler t) ++ [NodeOp.returned t]

/-- PUT a=1, which the apply loop executes once more, PUT b=2, GET b, DELETE b. -/
def calmRun : List (NodeOp 0) :=
  putSteps 0 "a" "1" ++ applySteps .put ++ putSteps 1 "b" "2" ++ getSteps 2 "b" ++
    replicateSteps 3 ⟨.delete, Bytes.ascii "b", []⟩ ++ delSteps 3

/-- PUT a=1, PUT a=2, GET a; the apply loop executes the first entry between the second PUT and the GET. Then
    DELETE a, which the apply loop has executed before the handler looks the key up. -/
def laggingRun : List (NodeOp 0) :=
  putSteps 0 "a" "1" ++ putSteps 1 "a" "2" ++ applySteps .put ++ getSteps 2 "a" ++
    replicateSteps 3 ⟨.delete, Bytes.ascii "a", []⟩ ++ applySteps .put ++ applySteps .delete ++ delSteps 3

/-- `OneAtATime`, where the requests have numbers below `m`. -/
def OneAtATimeBelow (m : Nat) (s : LeaderNode n) : NodeOp n → Prop
  | .request t _ => t < m ∧ ∀ u < m, ∀ handler ∈ s.handlers u, handler.Answered
  | _ => True

instance (m : Nat) (s : LeaderNode n) : (op : NodeOp n) → Decidable (OneAtATimeBelow m s op)
  | .request t _ => inferInstanceAs (Decidable (t < m ∧ ∀ u < m, ∀ handler ∈ s.handlers u, handler.Answered))
  | .cluster _ | .replicated _ | .execute .. | .returned _ | .engine .. | .read .. | .applyBegin _
  | .applyCall .. | .applyWrite _ | .applyEnd _ => isTrue trivial

theorem oneAtATime_of_below {nodeId m : Nat} {ops : List (NodeOp n)}
    (h : Meets LeaderNode.step (OneAtATimeBelow m) (init n nodeId stores) ops) :
    Meets LeaderNode.step (OneAtATime fun _ => true) (init n nodeId stores) ops := by
  refine h.imp (I := fun s => ∀ u, m ≤ u → s.handlers u = none) (fun _ _ => rfl) ?_ ?_
  · intro s op s' hnone hop hs u hu
    refine handlers_none_step (hnone u hu) (?_) hs
    intro req heq
    subst heq
    have := hop.1
    omega
  · intro s op hnone hop
    cases op with
    | request t req =>
        intro u handler _ hu
        rcases Nat.lt_or_ge u m with hlt | hge
        · exact hop.2 u hlt handler hu
        · exact absurd (hu.symm.trans (hnone u hge)) (by simp)
    | _ => trivial

/-- The apply loop has not written the key that a step of a lookup is about. -/
def Untouched (s : LeaderNode n) : NodeOp n → Bool
  | .engine none op =>
    match op.searcher?.bind s.engine.calls with
    | some c => s.engine.writes.all fun w => w.caller ≠ .applyLoop ∨ w.request.key ≠ c.call.key
    | none => true
  | _ => true

/-- A run in which the apply loop has not written the keys that are looked up is undisturbed. -/
theorem undisturbed_of_untouched {contents : MapState} {ops : List (NodeOp n)}
    (h : Meets LeaderNode.step (fun s op => s.Untouched op = true) s ops) :
    Meets LeaderNode.step (Undisturbed mine contents) s ops := by
  refine h.imp (I := fun _ => True) trivial (fun _ _ _ _ _ _ => trivial) fun s op _ huntouched => ?_
  unfold Undisturbed
  split
  next op =>
    intro t _ hsearcher c hc m _ _ w hw
    unfold Untouched at huntouched
    simp only [hsearcher, Option.bind_some, hc, List.all_eq_true, decide_eq_true_eq] at huntouched
    unfold reexecuted at hw
    obtain ⟨w', hw', rfl⟩ := Option.map_eq_some_iff.mp hw
    obtain ⟨hlast, hcaller⟩ := Option.filter_eq_some_iff.mp hw'
    obtain ⟨hmem, hkey⟩ := mem_of_lastOn hlast
    rcases huntouched w' (List.mem_of_mem_take hmem) with hne | hne
    · exact absurd (by simpa using hcaller) hne
    · exact absurd hkey hne
  next => trivial

omit [Platform] in
theorem below_calmRun : letI := Platform.sample
    Meets LeaderNode.step (OneAtATimeBelow 4) (init 0 1 (freshStores 0)) calmRun := by decide +kernel

omit [Platform] in
theorem below_laggingRun : letI := Platform.sample
    Meets LeaderNode.step (OneAtATimeBelow 4) (init 0 1 (freshStores 0)) laggingRun := by decide +kernel

omit [Platform] in
theorem readsItsWrites_calmRun : letI := Platform.sample
    ∃ s, exec LeaderNode.step (init 0 1 (freshStores 0)) calmRun = some s ∧
      s.answers.map (·.response) = [Response.ok "STORED", Response.ok "STORED",
        Response.okWithValue (Bytes.ascii "2"), Response.ok "DELETED"] ∧
      ReadsItsWrites (freshStores 0 none).engine.contents (s.answersOf fun _ => true) := by
  let := Platform.sample
  have hrun : (exec LeaderNode.step (init 0 1 (freshStores 0)) calmRun).map (fun s => s.answers.map (·.response)) =
      some [Response.ok "STORED", Response.ok "STORED", Response.okWithValue (Bytes.ascii "2"),
        Response.ok "DELETED"] := by decide +kernel
  have hplain : Meets LeaderNode.step (fun s op => s.Plain op = true) (init 0 1 (freshStores 0)) calmRun := by
    decide +kernel
  have huntouched : Meets LeaderNode.step (fun s op => s.Untouched op = true) (init 0 1 (freshStores 0)) calmRun := by
    decide +kernel
  obtain ⟨s, hs, hanswers⟩ := Option.map_eq_some_iff.mp hrun
  exact ⟨s, hs, hanswers, readsItsWrites_of_undisturbed (started_freshStores 0) hs (oneAtATime_of_below below_calmRun)
    (sound_of_plain hplain) (undisturbed_of_untouched huntouched)⟩

omit [Platform] in
/-- The engine loses nothing, and yet the GET answers the first value although the second was stored, and the DELETE
    answers that there was nothing to delete. -/
theorem stale_read : letI := Platform.sample
    Meets LeaderNode.step (OneAtATime fun _ => true) (init 0 1 (freshStores 0)) laggingRun ∧
    Meets LeaderNode.step Sound (init 0 1 (freshStores 0)) laggingRun ∧
    ∃ s, exec LeaderNode.step (init 0 1 (freshStores 0)) laggingRun = some s ∧
    s.answers.map (·.response) = [Response.ok "STORED", Response.ok "STORED",
      Response.okWithValue (Bytes.ascii "1"), Response.error "DELETE_FAILED"] ∧
    ¬ ReadsItsWrites (freshStores 0 none).engine.contents (s.answersOf fun _ => true) := by
  let := Platform.sample
  have hplain : Meets LeaderNode.step (fun s op => s.Plain op = true) (init 0 1 (freshStores 0)) laggingRun := by
    decide +kernel
  have hrun : (exec LeaderNode.step (init 0 1 (freshStores 0)) laggingRun).map (fun s => s.answers) =
      some [⟨0, ⟨.put, Bytes.ascii "a", Bytes.ascii "1"⟩, Response.ok "STORED"⟩,
        ⟨1, ⟨.put, Bytes.ascii "a", Bytes.ascii "2"⟩, Response.ok "STORED"⟩,
        ⟨2, ⟨.get, Bytes.ascii "a", []⟩, Response.okWithValue (Bytes.ascii "1")⟩,
        ⟨3, ⟨.delete, Bytes.ascii "a", []⟩, Response.error "DELETE_FAILED"⟩] := by
    decide +kernel
  obtain ⟨s, hs, hanswers⟩ := Option.map_eq_some_iff.mp hrun
  refine ⟨oneAtATime_of_below below_laggingRun, sound_of_plain hplain, s, hs, by rw [hanswers]; rfl, ?_⟩
  intro hr
  rw [answersOf, hanswers] at hr
  have hget : Response.okWithValue (Bytes.ascii "1") = getResponse (some (Bytes.ascii "2")) :=
    hr [⟨0, ⟨.put, Bytes.ascii "a", Bytes.ascii "1"⟩, Response.ok "STORED"⟩,
      ⟨1, ⟨.put, Bytes.ascii "a", Bytes.ascii "2"⟩, Response.ok "STORED"⟩] _ ⟨_, rfl⟩
  exact absurd hget (by decide)

end LeaderNode

end KvStorageEngine.Server
