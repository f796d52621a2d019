import KvStorageEngine.Engine.LiveEngine

/-!
# `Engine.Correctness.LiveRequests` — a request reaches the memtable once

From `push` to the fulfilment of its promise a request is in the queue, in the writer thread's batch, or among those
that are through and wait for the batch to end (`Pipeline`). So a caller's writes, together with the one it is still
owed, are the requests of its calls in order (`account_step`), and when a call has returned its write is among those
that are acknowledged (`Pipeline.acked_of_returned`).

This holds as long as no call of the writer's batch throws: an exception drops what is left of a batch.
-/

namespace KvStorageEngine

open Run

variable [Platform] {ι : Type}

/-! ## A. What the writer thread holds

The requests in the writer thread's hands and in the queue are those of the calls that wait, one for each. The writes
whose promises are still to be fulfilled are the last ones. -/

namespace LiveWriterPc

/-- The callers whose requests are through and not acknowledged. -/
def through : LiveWriterPc ι → List ι
  | .idle => []
  | .applying _ results | .checking results | .copied _ results | .cleared _ results | .completing _ results _ => results
  | .updated call _ results => results ++ [call.1]

/-- What is left of the batch. -/
def batch : LiveWriterPc ι → List (ι × WriteRequest)
  | .applying batch _ | .updated _ batch _ => batch
  | .idle | .checking _ | .copied _ _ | .cleared _ _ | .completing _ _ _ => []

/-- The thread is between two batches, or its batch is not empty. -/
def Occupied (pc : LiveWriterPc ι) : Prop :=
  match pc with
  | .idle => True
  | .completing success _ dropped => success = true ∧ dropped = []
  | .applying _ _ | .updated _ _ _ | .checking _ | .copied _ _ | .cleared _ _ => pc.through ++ pc.batch.map Prod.fst ≠ []

end LiveWriterPc

/-- The call waits for its promise. -/
def LiveCall.Waits (c : LiveCall) : Prop := ∃ existed, c.pc = .waiting existed

/-- The request that a call is going to make, or the one that is on its way. -/
def LiveCall.owed (c : LiveCall) (onTheWay : List WriteRequest) : List WriteRequest :=
  match c.pc with
  | .searching _ | .pushing _ => c.call.request?.toList
  | .waiting _ => onTheWay
  | .returned _ => []

/-- The call is at its search. -/
def LiveCall.Searches (c : LiveCall) : Prop := ∃ pc, c.pc = .searching pc

/-- The call whose search the step goes on with. -/
def LiveOp.searcher? : LiveOp ι → Option ι
  | .cacheLookup i | .readActive i | .readImmutable i | .takeVersion i | .look i | .fill i => some i
  | _ => none

/-- The call has returned. -/
def LiveCall.Returned (c : LiveCall) : Prop := ∃ result, c.pc = .returned result

theorem LiveCall.not_waits_of_returned {c : LiveCall} (h : c.Returned) : ¬ c.Waits := by
  rintro ⟨existed, hwaits⟩
  obtain ⟨result, hreturned⟩ := h
  exact absurd (hwaits.symm.trans hreturned) (by simp)

theorem LiveCall.not_waits_of_pc {c : LiveCall} (h : ∀ existed, c.pc ≠ .waiting existed) : ¬ c.Waits :=
  fun ⟨existed, hpc⟩ => h existed hpc

theorem LiveCall.not_waits_finish (c : LiveCall) (success : Bool) : ¬ (c.finish success).Waits := by
  unfold LiveCall.finish
  cases hpc : c.pc with
  | waiting existed => exact not_waits_of_pc (by simp)
  | searching pc | pushing existed | returned result =>
      exact not_waits_of_pc (by simp [hpc])

namespace LiveEngine

variable [DecidableEq ι] {s s' : LiveEngine ι}

/-- The step throws nothing: none of the calls for a batch, and no `getFile` for want of the file. -/
def Unthrown (s : LiveEngine ι) : LiveOp ι → Prop
  | .throws _ => False
  | .look i => ∀ call since t next, s.calls i = some ⟨call, since, .searching (.searching (.look t next))⟩ →
      t.readsFile call.key = true → s.getFile t ≠ none
  | _ => True

/-- The requests that wait to be carried out, the next one first. -/
def unwritten (s : LiveEngine ι) : List (ι × WriteRequest) := s.writer.batch ++ s.queue

/-- The callers that wait, in the order in which they will be told. -/
def inFlight (s : LiveEngine ι) : List ι := s.writer.through ++ s.unwritten.map Prod.fst

/-- Whoever waits has one request on its way. -/
structure Pipeline (s : LiveEngine ι) : Prop where
  unacked : (s.writes.drop s.acked).map (·.caller) = s.writer.through
  acked_le : s.acked ≤ s.writes.length
  nodup : s.inFlight.Nodup
  waits : ∀ i, i ∈ s.inFlight ↔ ∃ c, s.calls i = some c ∧ c.Waits
  requested : ∀ p ∈ s.unwritten, ∃ c, s.calls p.1 = some c ∧ c.call.request? = some p.2
  occupied : s.writer.Occupied

omit [DecidableEq ι] in
/-- Nobody waits in a new engine. -/
theorem pipeline_start (store : Store) : Pipeline (start ι store) where
  unacked := rfl
  acked_le := Nat.le_refl 0
  nodup := List.nodup_nil
  waits i := by simp [start, inFlight, unwritten, LiveWriterPc.through, LiveWriterPc.batch]
  requested p hp := absurd hp (by simp [start, unwritten, LiveWriterPc.batch])
  occupied := trivial

/-! ## B. One step

A call is added, moved on or returned; the writer thread takes a batch, writes, and completes. -/

/-- The calls after one of them has moved. -/
theorem calls_setCall (s : LiveEngine ι) (i j : ι) (c : LiveCall) :
    (s.setCall i c).calls j = if j = i then some c else s.calls j := by
  unfold setCall
  exact Function.update_apply ..

/-- A call moves on that did not wait and does not. -/
theorem Pipeline.setCall (h : Pipeline s) {i : ι} {c : LiveCall} (hbefore : ∀ c', s.calls i = some c' → ¬ c'.Waits)
    (hafter : ¬ c.Waits) : Pipeline (s.setCall i c) where
  unacked := h.unacked
  acked_le := h.acked_le
  nodup := h.nodup
  waits j := by
    rw [calls_setCall]
    refine (h.waits j).trans ?_
    split_ifs with hj
    · subst hj
      constructor
      · rintro ⟨c', hc', hwaits⟩
        exact absurd hwaits (hbefore c' hc')
      · rintro ⟨c', hc', hwaits⟩
        exact absurd (Option.some.inj hc' ▸ hwaits) hafter
    · exact Iff.rfl
  requested p hp := by
    obtain ⟨c', hc', hr⟩ := h.requested p hp
    have hin : p.1 ∈ s.inFlight := List.mem_append_right _ (List.mem_map_of_mem hp)
    obtain ⟨c'', hc'', hwaits⟩ := (h.waits p.1).mp hin
    refine ⟨c', ?_, hr⟩
    rw [calls_setCall, if_neg]
    · exact hc'
    · rintro rfl
      exact hbefore c'' hc'' hwaits
  occupied := h.occupied

omit [DecidableEq ι] in
/-- Nothing here depends on the store. -/
theorem Pipeline.congr (h : Pipeline s) (hcalls : s'.calls = s.calls) (hqueue : s'.queue = s.queue)
    (hwriter : s'.writer = s.writer) (hwrites : s'.writes = s.writes) (hacked : s'.acked = s.acked) : Pipeline s' where
  unacked := by rw [hwrites, hacked, hwriter]; exact h.unacked
  acked_le := by rw [hwrites, hacked]; exact h.acked_le
  nodup := by unfold inFlight unwritten; rw [hwriter, hqueue]; exact h.nodup
  waits i := by unfold inFlight unwritten; rw [hwriter, hqueue, hcalls]; exact h.waits i
  requested := by unfold unwritten; rw [hwriter, hqueue, hcalls]; exact h.requested
  occupied := hwriter ▸ h.occupied

omit [DecidableEq ι] in
/-- The writer thread moves on, with the same requests in the same order. -/
theorem Pipeline.moveWriter (h : Pipeline s) {writer : LiveWriterPc ι} {queue : List (ι × WriteRequest)}
    (hthrough : writer.through = s.writer.through) (hunwritten : writer.batch ++ queue = s.unwritten)
    (hoccupied : writer.Occupied) : Pipeline { s with writer, queue } where
  unacked := hthrough ▸ h.unacked
  acked_le := h.acked_le
  nodup := by
    show (writer.through ++ (writer.batch ++ queue).map Prod.fst).Nodup
    rw [hthrough, hunwritten]
    exact h.nodup
  waits i := by
    show i ∈ writer.through ++ (writer.batch ++ queue).map Prod.fst ↔ _
    rw [hthrough, hunwritten]
    exact h.waits i
  requested p hp := h.requested p (hunwritten ▸ hp)
  occupied := hoccupied

omit [DecidableEq ι] in
/-- The call of a step that is not a wait. -/
theorem not_waits_of_eq {i : ι} {c : LiveCall} (hpc : s.calls i = some c) (h : ∀ existed, c.pc ≠ .waiting existed) :
    ∀ c', s.calls i = some c' → ¬ c'.Waits := by
  intro c' hc'
  obtain rfl := Option.some.inj (hpc.symm.trans hc')
  exact LiveCall.not_waits_of_pc h

/-- A search that is over waits for nothing, -/
theorem not_waits_searched {call : EngineCall} {since : Nat} {out : Option Entry} :
    ¬ (LiveCall.mk call since (LivePc.searched call out)).Waits := by
  rintro ⟨existed, hpc⟩
  cases call <;> exact absurd hpc (by simp [LivePc.searched])

/-- and neither does a call that begins. -/
theorem not_waits_begin {call : EngineCall} {since : Nat} : ¬ (LiveCall.mk call since (LivePc.begin call)).Waits := by
  rintro ⟨existed, hpc⟩
  cases call <;> exact absurd hpc (by simp [LivePc.begin])

/-- A request enters the queue. -/
theorem Pipeline.push (h : Pipeline s) {i : ι} {call : EngineCall} {since : Nat} {existed : Bool}
    {request : WriteRequest} (hpc : s.calls i = some ⟨call, since, .pushing existed⟩)
    (hrequest : call.request? = some request) :
    Pipeline ({ s with queue := s.queue ++ [(i, request)] }.setCall i ⟨call, since, .waiting existed⟩) := by
  have hin : i ∉ s.inFlight := by
    intro hin
    obtain ⟨c, hc, hwaits⟩ := (h.waits i).mp hin
    exact not_waits_of_eq hpc (by simp) c hc hwaits
  have hflight : inFlight ({ s with queue := s.queue ++ [(i, request)] }.setCall i
      ⟨call, since, .waiting existed⟩) = s.inFlight ++ [i] := by
    show s.writer.through ++ (s.writer.batch ++ (s.queue ++ [(i, request)])).map Prod.fst = _
    simp [inFlight, unwritten, List.append_assoc]
  refine ⟨h.unacked, h.acked_le, ?_, fun j => ?_, fun p hp => ?_, h.occupied⟩
  · rw [hflight]
    exact List.nodup_append.mpr ⟨h.nodup, by simp, fun a ha b hb => by
      rintro rfl
      exact hin (List.mem_singleton.mp hb ▸ ha)⟩
  · rw [hflight, List.mem_append, List.mem_singleton, calls_setCall]
    split_ifs with hj
    · exact iff_of_true (Or.inr hj) ⟨_, rfl, existed, rfl⟩
    · simp only [hj, or_false]
      exact h.waits j
  · have hp : p ∈ s.unwritten ++ [(i, request)] := by
      unfold unwritten at hp ⊢
      rwa [List.append_assoc]
    rw [calls_setCall]
    rcases List.mem_append.mp hp with hp | hp
    · obtain ⟨c, hc, hr⟩ := h.requested p hp
      refine ⟨c, ?_, hr⟩
      rw [if_neg]
      · exact hc
      · intro hi
        exact hin (hi ▸ List.mem_append_right _ (List.mem_map_of_mem hp))
    · obtain rfl := List.mem_singleton.mp hp
      exact ⟨_, if_pos rfl, hrequest⟩

omit [DecidableEq ι] in
/-- The memtable takes the next request. -/
theorem Pipeline.update (h : Pipeline s) {call : ι × WriteRequest} {batch : List (ι × WriteRequest)} {results : List ι}
    (hpc : s.writer = .applying (call :: batch) results) :
    Pipeline { s.update call with writer := .updated call batch results } := by
  have hflight : inFlight { s.update call with writer := .updated call batch results } = s.inFlight := by
    unfold inFlight unwritten
    rw [hpc]
    simp [LiveWriterPc.through, LiveWriterPc.batch, LiveEngine.update]
  have hunacked := h.unacked
  rw [hpc] at hunacked
  refine ⟨?_, ?_, hflight ▸ h.nodup, fun i => ?_, fun p hp => ?_, ?_⟩
  · show ((s.writes ++ [LiveWrite.mk call.1 call.2 _]).drop s.acked).map (·.caller) = results ++ [call.1]
    rw [List.drop_append_of_le_length h.acked_le, List.map_append, hunacked]
    rfl
  · show s.acked ≤ (s.writes ++ [_]).length
    rw [List.length_append]
    exact h.acked_le.trans (Nat.le_add_right _ _)
  · rw [hflight]
    exact h.waits i
  · refine h.requested p ?_
    unfold unwritten at hp ⊢
    rw [hpc]
    exact List.mem_cons_of_mem _ hp
  · simp [LiveWriterPc.Occupied, LiveWriterPc.through, LiveWriterPc.batch]

theorem calls_fulfil (s : LiveEngine ι) (i j : ι) (success : Bool) :
    (s.fulfil i success).calls j = if j = i then (s.calls i).map (·.finish success) else s.calls j := by
  unfold fulfil
  exact Function.update_apply ..

/-- The next promise is fulfilled. -/
theorem Pipeline.complete (h : Pipeline s) {i : ι} {success : Bool} {results dropped : List ι}
    (hpc : s.writer = .completing success (i :: results) dropped) :
    Pipeline { s.fulfil i success with
      writer := .completing success results dropped
      acked := if success then s.acked + 1 else s.acked } := by
  have hoccupied := h.occupied
  rw [hpc] at hoccupied
  obtain ⟨rfl, rfl⟩ : success = true ∧ dropped = [] := hoccupied
  have hunacked := h.unacked
  rw [hpc] at hunacked
  have hflight : s.inFlight = i :: (results ++ s.queue.map Prod.fst) := by
    unfold inFlight unwritten
    rw [hpc]
    rfl
  have hnodup := h.nodup
  rw [hflight, List.nodup_cons] at hnodup
  have hlt : s.acked < s.writes.length := by
    by_contra hge
    rw [List.drop_eq_nil_of_le (by omega)] at hunacked
    exact absurd hunacked (by simp [LiveWriterPc.through])
  refine ⟨?_, hlt, hnodup.2, fun j => ?_, fun p hp => ?_, rfl, rfl⟩
  · show (s.writes.drop (s.acked + 1)).map (·.caller) = results
    rw [← List.drop_drop, List.map_drop, List.map_drop]
    rw [List.map_drop] at hunacked
    rw [hunacked]
    rfl
  · show j ∈ results ++ s.queue.map Prod.fst ↔ ∃ c, (s.fulfil i true).calls j = some c ∧ c.Waits
    rw [calls_fulfil]
    split_ifs with hj
    · subst hj
      refine iff_of_false hnodup.1 ?_
      rintro ⟨c, hc, hwaits⟩
      obtain ⟨c', -, rfl⟩ := Option.map_eq_some_iff.mp hc
      exact c'.not_waits_finish true hwaits
    · rw [← h.waits j, hflight, List.mem_cons]
      simp [hj]
  · have hp : p ∈ s.queue := hp
    have hmem : p ∈ s.unwritten := by
      unfold unwritten
      exact List.mem_append_right _ hp
    obtain ⟨c, hc, hr⟩ := h.requested p hmem
    refine ⟨c, ?_, hr⟩
    show (s.fulfil i true).calls p.1 = some c
    rw [calls_fulfil, if_neg]
    · exact hc
    · rintro rfl
      exact hnodup.1 (List.mem_append_right _ (List.mem_map_of_mem hp))

/-- A step that throws nothing keeps it. -/
theorem Pipeline.step (h : Pipeline s) {op : LiveOp ι} (hC : Unthrown s op) (hs : s.step op = some s') : Pipeline s' := by
  have hoccupied := h.occupied
  cases Effect.of_step hs with
  | call hfree => exact h.setCall (fun c hc => LiveCall.not_waits_of_returned (hfree c hc)) not_waits_begin
  | uncached hpc _ | miss hpc _ _ =>
      exact (h.setCall (not_waits_of_eq hpc (by simp)) (LiveCall.not_waits_of_pc (by simp))).congr rfl rfl rfl rfl rfl
  | hit hpc _ _ =>
      exact (h.setCall (not_waits_of_eq hpc (by simp)) not_waits_searched).congr rfl rfl rfl rfl rfl
  | threw hpc hreads hfile => exact absurd hfile (hC _ _ _ _ hpc hreads)
  | readActive hpc | readImmutable hpc | takeVersion hpc | found hpc _ =>
      exact h.setCall (not_waits_of_eq hpc (by simp)) (LiveCall.not_waits_of_pc (by simp))
  | looked hpc =>
      exact (h.setCall (not_waits_of_eq hpc (by simp)) (LiveCall.not_waits_of_pc (by simp))).congr rfl rfl rfl rfl rfl
  | searched hpc => exact h.setCall (not_waits_of_eq hpc (by simp)) not_waits_searched
  | fill hpc => exact (h.setCall (not_waits_of_eq hpc (by simp)) not_waits_searched).congr rfl rfl rfl rfl rfl
  | push hpc hrequest => exact h.push hpc hrequest
  | popBatch hpc hqueue =>
      refine h.moveWriter (by rw [hpc]; rfl) ?_ ?_
      · unfold unwritten
        rw [hpc]
        exact List.take_append_drop _ _
      · show [] ++ (s.queue.take maxBatchSize).map Prod.fst ≠ []
        obtain ⟨p, rest, hcons⟩ := List.exists_cons_of_ne_nil hqueue
        simp [hcons, maxBatchSize]
  | update hpc => exact h.update hpc
  | @invalidate call batch results hpc =>
      have hmoved : Pipeline { s with writer := .applying batch (results ++ [call.1]), queue := s.queue } := by
        refine h.moveWriter (by rw [hpc]; rfl) (by unfold unwritten; rw [hpc]; rfl) ?_
        simp [LiveWriterPc.Occupied, LiveWriterPc.through]
      exact hmoved.congr rfl rfl rfl rfl rfl
  | throwsApplying _ => exact hC.elim
  | throwsChecking _ => exact hC.elim
  | endBatch hpc =>
      rw [hpc] at hoccupied
      exact h.moveWriter (by rw [hpc]; rfl) (by unfold unwritten; rw [hpc]; rfl) hoccupied
  | rotate hpc _ =>
      rw [hpc] at hoccupied
      exact h.moveWriter (by rw [hpc]; rfl) (by unfold unwritten; rw [hpc]; rfl) hoccupied
  | checkFlush hpc =>
      exact h.moveWriter (by rw [hpc]; rfl) (by unfold unwritten; rw [hpc]; rfl) ⟨rfl, rfl⟩
  | @rotateClear imm results hpc =>
      rw [hpc] at hoccupied
      have hmoved : Pipeline { s with writer := .cleared imm results, queue := s.queue } :=
        h.moveWriter (by rw [hpc]; rfl) (by unfold unwritten; rw [hpc]; rfl) hoccupied
      exact hmoved.congr rfl rfl rfl rfl rfl
  | @rotatePublish imm results hpc =>
      have hmoved : Pipeline { s with writer := .completing true results [], queue := s.queue } :=
        h.moveWriter (by rw [hpc]; rfl) (by unfold unwritten; rw [hpc]; rfl) ⟨rfl, rfl⟩
      exact hmoved.congr rfl rfl rfl rfl rfl
  | complete hpc => exact h.complete hpc
  | @completed success dropped hpc =>
      rw [hpc] at hoccupied
      obtain ⟨rfl, rfl⟩ : success = true ∧ dropped = [] := hoccupied
      have hmoved : Pipeline { s with writer := .idle, queue := s.queue } :=
        h.moveWriter (by rw [hpc]; rfl) (by unfold unwritten; rw [hpc]; rfl) trivial
      refine hmoved.congr ?_ rfl rfl rfl rfl
      funext i
      simp [breakPromises]
  | background _ _ => exact h.congr rfl rfl rfl rfl rfl

/-- It holds in every run that throws nothing. -/
theorem pipeline_of_exec {store : Store} {ops : List (LiveOp ι)} (h : exec step (start ι store) ops = some s)
    (hC : Meets step Unthrown (start ι store) ops) : Pipeline s :=
  exec_invariant_of_meets (pipeline_start store) (fun _ _ _ hi hC hs => hi.step hC hs) hC h

/-! ## C. A caller's account

What a caller has asked of the engine is what the memtable has taken for it, then what is on its way, and then what
the call under way still owes. -/

/-- What has reached the memtable for a caller. -/
def writesOf (s : LiveEngine ι) (i : ι) : List WriteRequest :=
  (s.writes.filter (·.caller = i)).map (·.request)

/-- What of a caller's is on its way. -/
def onTheWay (s : LiveEngine ι) (i : ι) : List WriteRequest := (s.unwritten.filter (·.1 = i)).map Prod.snd

/-- What is still to reach it: the request that its call is going to make, or that is on its way. -/
def owed (s : LiveEngine ι) (i : ι) : List WriteRequest := (s.calls i).elim [] (·.owed (s.onTheWay i))

/-- What a caller has asked for. -/
def account (s : LiveEngine ι) (i : ι) : List WriteRequest := s.writesOf i ++ s.owed i

/-- What a step adds to it. -/
def asked (i : ι) : LiveOp ι → List WriteRequest
  | .call j call => if j = i then call.request?.toList else []
  | _ => []

/-- A call that has returned owes nothing, -/
theorem owed_of_returned {i : ι} (h : ∀ c, s.calls i = some c → c.Returned) : s.owed i = [] := by
  unfold owed
  cases hc : s.calls i with
  | none => rfl
  | some c =>
      obtain ⟨result, hpc⟩ := h c hc
      simp [LiveCall.owed, hpc]

theorem owed_congr (hcalls : s'.calls = s.calls) (hunwritten : s'.unwritten = s.unwritten) (i : ι) :
    s'.owed i = s.owed i := by
  unfold owed onTheWay
  rw [hcalls, hunwritten]

/-- The accounts in a step that is none of the caller's. -/
theorem account_congr (hcalls : s'.calls = s.calls) (hunwritten : s'.unwritten = s.unwritten)
    (hwrites : s'.writes = s.writes) (i : ι) : s'.account i = s.account i := by
  unfold account writesOf
  rw [owed_congr hcalls hunwritten, hwrites]

/-- A call that moves on, and is owed what it was owed. -/
theorem owed_setCall {i : ι} {c : LiveCall} (h : (s.setCall i c).owed i = s.owed i) (j : ι) :
    (s.setCall i c).owed j = s.owed j := by
  by_cases hj : j = i
  · exact hj ▸ h
  · unfold owed
    rw [calls_setCall, if_neg hj]
    rfl

theorem owed_setCall_self (s : LiveEngine ι) (i : ι) (call : EngineCall) (since : Nat) (pc : LivePc) :
    (s.setCall i ⟨call, since, pc⟩).owed i = LiveCall.owed ⟨call, since, pc⟩ (s.onTheWay i) := by
  unfold owed
  rw [calls_setCall, if_pos rfl]
  rfl

/-- and one that searches owes its whole request. -/
theorem owed_of_searching {i : ι} {call : EngineCall} {since : Nat} {pc : SearchPc}
    (hpc : s.calls i = some ⟨call, since, .searching pc⟩) : s.owed i = call.request?.toList := by
  unfold owed
  rw [hpc]
  rfl

/-- A search that goes on or ends. -/
theorem account_search {i : ι} {call : EngineCall} {since : Nat} {pc pc' : SearchPc}
    (hpc : s.calls i = some ⟨call, since, .searching pc⟩) (j : ι) :
    (s.search i call since pc').account j = s.account j := by
  have hself : (s.search i call since pc').owed i = s.owed i := by
    rw [owed_of_searching hpc]
    exact owed_setCall_self s i call since (.searching pc')
  unfold account
  congr 1
  exact owed_setCall hself j

/-- The end of a search leaves the accounts as they are. -/
theorem account_searched {i : ι} {call : EngineCall} {since : Nat} {pc : SearchPc} {out : Option Entry}
    (hpc : s.calls i = some ⟨call, since, .searching pc⟩) (j : ι) :
    (s.searched i call since out).account j = s.account j := by
  have hself : (s.searched i call since out).owed i = s.owed i := by
    rw [owed_of_searching hpc]
    refine (owed_setCall_self s i call since (LivePc.searched call out)).trans ?_
    cases call <;> rfl
  unfold account
  congr 1
  exact owed_setCall hself j

/-- Nothing is on its way for a caller that does not wait. -/
theorem Pipeline.filter_unwritten (h : Pipeline s) {i : ι} (hnot : ∀ c, s.calls i = some c → ¬ c.Waits) :
    s.unwritten.filter (·.1 = i) = [] := by
  rw [List.filter_eq_nil_iff]
  intro p hp
  rw [decide_eq_true_eq]
  rintro rfl
  obtain ⟨c, hc, hwaits⟩ := (h.waits p.1).mp (List.mem_append_right _ (List.mem_map_of_mem hp))
  exact hnot c hc hwaits

/-- **One step** adds to a caller's account what it asks for. -/
theorem account_step (h : Pipeline s) {op : LiveOp ι} (hC : Unthrown s op) (hs : s.step op = some s') (j : ι) :
    s'.account j = s.account j ++ asked j op := by
  cases Effect.of_step hs with
  | @call i call hfree =>
      show s.writesOf j ++ (s.setCall i ⟨call, s.acked, LivePc.begin call⟩).owed j =
        s.writesOf j ++ s.owed j ++ if i = j then call.request?.toList else []
      by_cases hj : i = j
      · subst hj
        have hbefore : s.owed i = [] := owed_of_returned hfree
        have hafter : (s.setCall i ⟨call, s.acked, LivePc.begin call⟩).owed i = call.request?.toList := by
          rw [owed_setCall_self]
          cases call <;> rfl
        rw [if_pos rfl, hafter, hbefore, List.append_nil]
      · rw [if_neg hj, List.append_nil]
        congr 1
        unfold owed
        rw [calls_setCall, if_neg (Ne.symm hj)]
        rfl
  | uncached hpc _ => exact (account_search hpc j).trans (List.append_nil _).symm
  | miss hpc _ _ =>
      refine Eq.trans ?_ (List.append_nil _).symm
      exact (account_search (s := s.setEngine _) hpc j).trans (account_congr rfl rfl rfl j)
  | hit hpc _ _ =>
      refine Eq.trans ?_ (List.append_nil _).symm
      exact (account_searched (s := s.setEngine _) hpc j).trans (account_congr rfl rfl rfl j)
  | readActive hpc | readImmutable hpc | takeVersion hpc | found hpc _ =>
      exact (account_search hpc j).trans (List.append_nil _).symm
  | threw hpc hreads hfile => exact absurd hfile (hC _ _ _ _ hpc hreads)
  | @looked i call since t next opened hpc =>
      refine Eq.trans ?_ (List.append_nil _).symm
      exact (account_search (s := { s with opened }) hpc j).trans (account_congr rfl rfl rfl j)
  | searched hpc => exact (account_searched hpc j).trans (List.append_nil _).symm
  | fill hpc =>
      refine Eq.trans ?_ (List.append_nil _).symm
      exact (account_searched (s := s.setEngine _) hpc j).trans (account_congr rfl rfl rfl j)
  | @push i call since existed request hpc hrequest =>
      refine Eq.trans ?_ (List.append_nil _).symm
      have hnone := h.filter_unwritten (not_waits_of_eq hpc (by simp))
      have hunwritten : unwritten { s with queue := s.queue ++ [(i, request)] } = s.unwritten ++ [(i, request)] := by
        simp [unwritten]
      unfold account
      congr 1
      by_cases hj : j = i
      · subst hj
        rw [owed_setCall_self]
        unfold onTheWay owed
        rw [hunwritten, List.filter_append, hnone, hpc]
        simp [LiveCall.owed, hrequest]
      · have hway : onTheWay { s with queue := s.queue ++ [(i, request)] } j = s.onTheWay j := by
          unfold onTheWay
          rw [hunwritten, List.filter_append]
          simp [Ne.symm hj]
        unfold owed
        rw [calls_setCall, if_neg hj]
        exact congrArg (fun way => (s.calls j).elim [] (LiveCall.owed · way)) hway
  | popBatch hpc _ =>
      refine Eq.trans ?_ (List.append_nil _).symm
      refine account_congr (by rfl) ?_ (by rfl) j
      unfold unwritten
      rw [hpc]
      exact List.take_append_drop _ _
  | @update call batch results hpc =>
      refine Eq.trans ?_ (List.append_nil _).symm
      have hbefore : s.unwritten = call :: unwritten { s.update call with writer := .updated call batch results } := by
        unfold unwritten
        rw [hpc]
        rfl
      obtain ⟨c, hc, existed, hwaits⟩ := (h.waits call.1).mp (by
        unfold inFlight
        rw [hbefore]
        exact List.mem_append_right _ List.mem_cons_self)
      unfold account writesOf owed onTheWay
      show ((s.writes ++ [LiveWrite.mk call.1 call.2 _]).filter _).map _ ++ _ = _
      rw [hbefore, List.filter_append, List.map_append]
      by_cases hj : j = call.1
      · subst hj
        simp [LiveEngine.update, LiveCall.owed, hc, hwaits]
      · have hne : ¬ call.1 = j := fun h => hj h.symm
        simp [LiveEngine.update, hne]
  | invalidate hpc | endBatch hpc | rotate hpc _ | checkFlush hpc | rotateClear hpc | rotatePublish hpc =>
      refine Eq.trans ?_ (List.append_nil _).symm
      refine account_congr (by rfl) ?_ (by rfl) j
      unfold unwritten
      rw [hpc]
      rfl
  | throwsApplying _ => exact hC.elim
  | throwsChecking _ => exact hC.elim
  | @complete i success results dropped hpc =>
      refine Eq.trans ?_ (List.append_nil _).symm
      have hnodup := h.nodup
      have hflight : s.inFlight = i :: (results ++ s.unwritten.map Prod.fst) := by
        unfold inFlight
        rw [hpc]
        rfl
      rw [hflight, List.nodup_cons] at hnodup
      have hnone : s.unwritten.filter (·.1 = i) = [] := by
        rw [List.filter_eq_nil_iff]
        intro p hp
        rw [decide_eq_true_eq]
        rintro rfl
        exact hnodup.1 (List.mem_append_right _ (List.mem_map_of_mem hp))
      have hsame : unwritten { s.fulfil i success with
          writer := .completing success results dropped
          acked := if success then s.acked + 1 else s.acked } = s.unwritten := by
        unfold unwritten
        rw [hpc]
        rfl
      obtain ⟨c, hc, existed, hwaits⟩ := (h.waits i).mp (hflight ▸ List.mem_cons_self)
      unfold account
      congr 1
      unfold owed onTheWay
      rw [hsame]
      show ((s.fulfil i success).calls j).elim [] _ = _
      rw [calls_fulfil]
      by_cases hj : j = i
      · subst hj
        rw [if_pos rfl, hc]
        simp [LiveCall.owed, LiveCall.finish, hwaits, hnone]
      · rw [if_neg hj]
  | @completed success dropped hpc =>
      refine Eq.trans ?_ (List.append_nil _).symm
      have hoccupied := h.occupied
      rw [hpc] at hoccupied
      obtain ⟨rfl, rfl⟩ : success = true ∧ dropped = [] := hoccupied
      refine account_congr ?_ ?_ (by rfl) j
      · funext i
        simp [breakPromises]
      · unfold unwritten
        rw [hpc]
        rfl
  | background _ _ => exact (account_congr rfl rfl rfl j).trans (List.append_nil _).symm

omit [DecidableEq ι] in
/-- When a call has returned its caller's writes are acknowledged. -/
theorem Pipeline.acked_of_returned (h : Pipeline s) {i : ι} (hreturned : ∀ c, s.calls i = some c → c.Returned)
    {k : Nat} {w : LiveWrite ι} (hw : s.writes[k]? = some w) (hcaller : w.caller = i) : k < s.acked := by
  by_contra hge
  have hmem : w ∈ s.writes.drop s.acked := by
    refine List.mem_of_getElem? (i := k - s.acked) ?_
    rw [List.getElem?_drop, Nat.add_sub_cancel' (by omega)]
    exact hw
  have hin : i ∈ s.inFlight := by
    refine List.mem_append_left _ ?_
    rw [← h.unacked, ← hcaller]
    exact List.mem_map_of_mem hmem
  obtain ⟨c, hc, hwaits⟩ := (h.waits i).mp hin
  exact LiveCall.not_waits_of_returned (hreturned c hc) hwaits

/-! ## D. Calls of others, and rest

A step leaves all calls alone but one, or fulfils a promise. An engine in which nobody waits has nothing on its way. -/

/-- A step that is not a call of its own leaves a call what it was for, and does not take it back. -/
theorem calls_step {op : LiveOp ι} (hs : s.step op = some s') {i : ι} (hop : ∀ call, op ≠ .call i call) {c' : LiveCall}
    (hc' : s'.calls i = some c') : ∃ c, s.calls i = some c ∧ c'.call = c.call ∧ c'.since = c.since ∧
      (c.Returned → c'.Returned) ∧ (c'.Searches → c.Searches) := by
  -- a call that has not returned moves on
  have hset {j : ι} {call : EngineCall} {since : Nat} {pc pc' : LivePc} (hpc : s.calls j = some ⟨call, since, pc⟩)
      (hnot : ∀ result, pc ≠ .returned result) (hsearch : (∃ pc, pc' = .searching pc) → ∃ before, pc = .searching before)
      (hc' : (s.setCall j ⟨call, since, pc'⟩).calls i = some c') : ∃ c, s.calls i = some c ∧ c'.call = c.call ∧
        c'.since = c.since ∧ (c.Returned → c'.Returned) ∧ (c'.Searches → c.Searches) := by
    rw [calls_setCall] at hc'
    split_ifs at hc' with hi
    · obtain rfl := Option.some.inj hc'
      refine ⟨⟨call, since, pc⟩, by rw [hi]; exact hpc, rfl, rfl, ?_, hsearch⟩
      rintro ⟨result, hresult⟩
      exact absurd hresult (hnot result)
    · exact ⟨c', hc', rfl, rfl, id, id⟩
  cases Effect.of_step hs with
  | @call j call _ =>
      have hi : i ≠ j := by
        rintro rfl
        exact hop call rfl
      rw [calls_setCall, if_neg hi] at hc'
      exact ⟨c', hc', rfl, rfl, id, id⟩
  | uncached hpc _ | hit hpc _ _ | miss hpc _ _ | readActive hpc | readImmutable hpc | takeVersion hpc | found hpc _
  | searched hpc | threw hpc _ _ | looked hpc | fill hpc => exact hset hpc (by simp) (fun _ => ⟨_, rfl⟩) hc'
  | push hpc _ => exact hset hpc (by simp) (by simp) hc'
  | popBatch _ _ | update _ | invalidate _ | throwsApplying _ | throwsChecking _ | endBatch _ | rotate _ _
  | checkFlush _ | rotateClear _ | rotatePublish _ | background _ _ => exact ⟨c', hc', rfl, rfl, id, id⟩
  | @complete j success results dropped _ =>
      have hc' : (s.fulfil j success).calls i = some c' := hc'
      rw [calls_fulfil] at hc'
      split_ifs at hc' with hi
      · obtain ⟨c, hc, rfl⟩ := Option.map_eq_some_iff.mp hc'
        refine ⟨c, by rw [hi]; exact hc, ?_⟩
        obtain ⟨call, since, pc⟩ := c
        cases pc with
        | waiting existed =>
            exact ⟨rfl, rfl, fun ⟨_, hpc⟩ => absurd hpc (by simp), fun ⟨_, hpc⟩ => absurd hpc (by simp [LiveCall.finish])⟩
        | searching pc | pushing existed | returned result => exact ⟨rfl, rfl, id, id⟩
      · exact ⟨c', hc', rfl, rfl, id, id⟩
  | @completed success dropped _ =>
      have hc' : (s.breakPromises dropped).calls i = some c' := hc'
      unfold breakPromises at hc'
      dsimp only at hc'
      split_ifs at hc'
      · obtain ⟨c, hc, rfl⟩ := Option.map_eq_some_iff.mp hc'
        exact ⟨c, hc, rfl, rfl, fun _ => ⟨_, rfl⟩, fun ⟨_, hpc⟩ => absurd hpc (by simp)⟩
      · exact ⟨c', hc', rfl, rfl, id, id⟩

/-- What is written is what somebody waits for. -/
theorem Pipeline.new_write (h : Pipeline s) {op : LiveOp ι} (hs : s.step op = some s') : s'.writes = s.writes ∨
    ∃ w c, s'.writes = s.writes ++ [w] ∧ s.calls w.caller = some c ∧ c.Waits := by
  cases Effect.of_step hs with
  | @update call batch results hpc =>
      have hin : call.1 ∈ s.inFlight := by
        refine List.mem_append_right _ (List.mem_map_of_mem (List.mem_append_left _ ?_))
        rw [hpc]
        exact List.mem_cons_self
      obtain ⟨c, hc, hwaits⟩ := (h.waits call.1).mp hin
      exact Or.inr ⟨⟨call.1, call.2, _⟩, c, rfl, hc, hwaits⟩
  | _ => exact Or.inl rfl

/-- A call begins. -/
theorem calls_call {i : ι} {call : EngineCall} (hs : s.step (.call i call) = some s') :
    s' = s.setCall i ⟨call, s.acked, LivePc.begin call⟩ ∧ ∀ c, s.calls i = some c → c.Returned := by
  cases Effect.of_step hs with
  | call hfree => exact ⟨rfl, hfree⟩

omit [Platform] in
/-- Only a call asks for anything. -/
theorem asked_of_not_call {op : LiveOp ι} (hop : op.isCall = false) (i : ι) : asked i op = [] := by
  cases op with
  | call j call => exact absurd hop (by simp [LiveOp.isCall])
  | _ => rfl

omit [Platform] in
theorem asked_call_ne {i j : ι} (hne : j ≠ i) (call : EngineCall) : asked i (.call j call) = [] := if_neg hne

/-- A caller who has asked for nothing does not wait. -/
theorem Pipeline.not_waits_of_account (h : Pipeline s) {i : ι} (haccount : s.account i = []) {c : LiveCall}
    (hc : s.calls i = some c) : ¬ c.Waits := by
  rintro ⟨existed, hwaits⟩
  obtain ⟨hwrites, howed⟩ := List.append_eq_nil_iff.mp haccount
  rcases List.mem_append.mp ((h.waits i).mpr ⟨c, hc, existed, hwaits⟩) with hin | hin
  · rw [← h.unacked] at hin
    obtain ⟨w, hw, hcaller⟩ := List.mem_map.mp hin
    have hmem : w.request ∈ s.writesOf i :=
      List.mem_map_of_mem (List.mem_filter.mpr ⟨List.mem_of_mem_drop hw, by simpa using hcaller⟩)
    rw [hwrites] at hmem
    exact absurd hmem List.not_mem_nil
  · obtain ⟨p, hp, hcaller⟩ := List.mem_map.mp hin
    have hmem : p.2 ∈ s.owed i := by
      unfold owed LiveCall.owed onTheWay
      rw [hc]
      simp only [Option.elim_some, hwaits]
      exact List.mem_map_of_mem (List.mem_filter.mpr ⟨hp, by simpa using hcaller⟩)
    rw [howed] at hmem
    exact absurd hmem List.not_mem_nil

omit [DecidableEq ι] in
/-- When nobody waits the writer thread is at rest. -/
theorem Pipeline.writer_of_rest (h : Pipeline s) (hrest : ∀ i c, s.calls i = some c → ¬ c.Waits) :
    s.writer = .idle ∨ ∃ success, s.writer = .completing success [] [] := by
  have hnil : s.inFlight = [] := by
    refine List.eq_nil_iff_forall_not_mem.mpr fun i hi => ?_
    obtain ⟨c, hc, hwaits⟩ := (h.waits i).mp hi
    exact hrest i c hc hwaits
  have hoccupied := h.occupied
  unfold inFlight unwritten at hnil
  obtain ⟨hthrough, hbatch⟩ := List.append_eq_nil_iff.mp hnil
  rw [List.map_append] at hbatch
  have hnone : s.writer.through ++ s.writer.batch.map Prod.fst = [] := by
    rw [hthrough, (List.append_eq_nil_iff.mp hbatch).1]
    rfl
  cases hpc : s.writer with
  | idle => exact Or.inl rfl
  | completing success results dropped =>
      rw [hpc] at hoccupied hthrough
      obtain ⟨rfl, rfl⟩ : success = true ∧ dropped = [] := hoccupied
      obtain rfl : results = [] := hthrough
      exact Or.inr ⟨_, rfl⟩
  | applying _ _ | updated _ _ _ | checking _ | copied _ _ | cleared _ _ =>
      rw [hpc] at hoccupied hnone
      exact absurd hnone hoccupied

end LiveEngine

end KvStorageEngine
