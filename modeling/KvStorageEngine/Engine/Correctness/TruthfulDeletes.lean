import KvStorageEngine.Engine.ConcurrentDeletes
import KvStorageEngine.Engine.Correctness.CacheCoherence
import KvStorageEngine.Engine.Correctness.MapRefinement
import Mathlib.Data.Fintype.Basic
import Mathlib.Data.List.Chain

/-!
# `Engine.Correctness.TruthfulDeletes` — what a delete reports

A `del` returns what its `get` has found, and the writer thread processes its request later. In between other requests
on the key may be processed, so of two deletes of one key both can report that they have deleted it.

What a `del` has found stays right as long as no other request makes the key live or dead before its own one is
processed (`Undisturbed`). The invariant says so of every call that knows its answer (`Inv.looked`, `Inv.pending`), and
`truthful_of_undisturbed` is about every run from every state of the engine.
-/

namespace KvStorageEngine

open Run

/-- The request leaves its key with a value. -/
def WriteRequest.isPut : WriteRequest → Bool
  | .put _ _ => true
  | .delete _ => false

/-- The key that the caller is about to look up in the cache. -/
def CallPc.calling : CallPc → Option Bytes
  | .called key => some key
  | _ => none

/-- The caller has looked the key up, and has not queued its delete. -/
def CallPc.hasLooked : CallPc → Bytes → Bool
  | .found k _, key | .looked k _, key => k = key
  | _, _ => false

variable [Platform]

/-- The update is the store's write, without the cache. -/
theorem StorageEngine.inv_updateMemtable {s : StorageEngine} (request : WriteRequest)
    (h : StorageEngine.Inv { s with cache := none }) :
    StorageEngine.Inv { s.updateMemtable request with cache := none } :=
  h.stored (s.memtable.get_apply request s.seqNumber) (request.seq_entry _)

variable {ι : Type} [DecidableEq ι]

namespace ConcurrentDeletes

/-! ## A. The property and the condition

`Truthful` compares what a `del` returned with whether the key was live when its request was processed. `Undisturbed`
is about the state before a step: which deletes wait that a request would make wrong, and what the cache says about a
key that a `del` is about to look up. -/

/-- Every `del` that has returned has said whether its key was live when its request was processed. In particular, of
    two deletes of one key with no other request on it processed between them not both have said that it was. -/
structure Truthful (s : ConcurrentDeletes ι) : Prop where
  exact : ∀ p ∈ s.returned, ∀ key, p.1.request = .delete key → p.1.result = p.2
  not_both : ∀ key, (s.returned.filter (·.1.request.key = key)).IsChain fun a b =>
    a.1.request = .delete key → b.1.request = .delete key → ¬ (a.1.result = true ∧ b.1.result = true)

/-- A `del` finds its key in the cache only if the store has it, and a request that makes its key live or dead is not
    processed while a `del` of the key that has looked waits for its own turn. -/
def Undisturbed (s : ConcurrentDeletes ι) : DeletesOp ι → Prop
  | .cacheLookup i => ∀ cache ∈ s.engine.cache, ∀ key ∈ (s.callers i).calling,
      (cache.cache.find? key).isSome = true → s.engine.live key = true
  | .update => ∀ call ∈ s.batch.head?, call.request.isPut ≠ s.engine.live call.request.key →
      (∀ other ∈ s.batch.tail ++ s.queue, other.request ≠ .delete call.request.key) ∧
        ∀ j, (s.callers j).hasLooked call.request.key = false
  | _ => True

instance decidableUndisturbed [Fintype ι] (s : ConcurrentDeletes ι) : ∀ op, Decidable (s.Undisturbed op)
  | .cacheLookup i => inferInstanceAs (Decidable (∀ cache ∈ s.engine.cache, ∀ key ∈ (s.callers i).calling,
      (cache.cache.find? key).isSome = true → s.engine.live key = true))
  | .update => inferInstanceAs (Decidable (∀ call ∈ s.batch.head?,
      call.request.isPut ≠ s.engine.live call.request.key →
        (∀ other ∈ s.batch.tail ++ s.queue, other.request ≠ .delete call.request.key) ∧
          ∀ j, (s.callers j).hasLooked call.request.key = false))
  | .put _ _ _ | .del _ _ | .lookup _ | .cacheFill _ | .push _ | .popBatch | .invalidate | .complete | .background _ =>
    isTrue trivial

/-- No compaction brings back a deleted key. -/
def KeepsDeletes (s : ConcurrentDeletes ι) : DeletesOp ι → Prop
  | .background op => s.engine.TombstoneSafe op
  | _ => True

end ConcurrentDeletes

/-! ## B. What makes a key live

A key is live if the store answers it with a put, with the cache left out. Only the writer's update and a compaction
that drops a tombstone change that. -/

namespace StorageEngine

variable {s s' : StorageEngine}

/-- A key that a lookup answers is live. -/
theorem live_of_answer {out : Entry} {key : Bytes} (h : answer (s.lookup key) = some out) : s.live key = true := by
  unfold live
  rw [h]
  rfl

/-- A request makes its key live or dead, and leaves the other keys as they are. -/
theorem live_updateMemtable (h : Inv { s with cache := none }) (hdir : ExactIds s.dataDir) (request : WriteRequest)
    (key : Bytes) : (s.updateMemtable request).live key = if key = request.key then request.isPut else s.live key := by
  have hm := s.memtable.get_apply request s.seqNumber
  by_cases hk : key = request.key
  · have hself : (s.updateMemtable request).lookup request.key = some (request.entry s.seqNumber) :=
      h.lookup_stored_self hdir hm (request.seq_entry _)
    unfold live
    rw [if_pos hk, hk, hself]
    cases request <;> rfl
  · have hother : (s.updateMemtable request).lookup key = s.lookup key :=
      lookup_stored_ne (s := { s with cache := none }) hm hk
    unfold live
    rw [if_neg hk, hother]

/-- What the engine does in the background does not depend on the cache. -/
theorem step_uncached {op : EngineOp} (hop : op.inBackground = true) (h : s.step op = some s') :
    ({ s with cache := none }).step op = some { s' with cache := none } := by
  have hcommutes : ({ s with cache := none }).step op = (s.step op).map fun s' => { s' with cache := none } := by
    cases op with
    | put | del | get => exact absurd hop (by simp [EngineOp.inBackground])
    | checkFlush debug =>
        show checkFlush _ _ = (s.checkFlush debug).map _
        unfold checkFlush rotate
        split_ifs
        · cases s.immutableMemtable <;> rfl
        · rfl
    | flushInstall =>
        show flushInstall _ = s.flushInstall.map _
        unfold flushInstall flushTable
        cases s.immutableMemtable with
        | none => rfl
        | some imm =>
            dsimp only
            split_ifs <;> rfl
    | compactL0toL1 =>
        show some (compactL0toL1 _) = (some s.compactL0toL1).map _
        unfold compactL0toL1
        cases planL0toL1 s.version <;> rfl
    | compactlevelN level =>
        show some (compactlevelN _ level) = (some (s.compactlevelN level)).map _
        unfold compactlevelN
        cases planLevelN s.version level <;> rfl
  rw [hcommutes, h]
  rfl

/-- The background leaves every key as live as it is, where it brings no key back. -/
theorem live_background (h : Inv s) (hdir : ExactIds s.dataDir) {op : EngineOp} (hop : op.inBackground = true)
    (hsafe : s.TombstoneSafe op) (hs : s.step op = some s') (key : Bytes) : s'.live key = s.live key := by
  have hquiet : (∀ k, s'.lookup k = s.lookup k) → s'.live key = s.live key := by
    intro hlookup
    unfold live
    rw [hlookup]
  cases Effect.of_step hs with
  | put | del | get => exact absurd hop (by simp [EngineOp.inBackground])
  | rotate hs => exact hquiet (h.rotate hs).2
  | flushInstall hs => exact hquiet (h.flushInstall hdir hs).2
  | @compactL0toL1 plan hp =>
      obtain ⟨d, hall⟩ := planL0toL1_drawn hp
      have hsame := (answer_afterPlan_iff h hdir d hall).mpr (hsafe (by rw [hp]; rfl)) key
      have hsome := congrArg Option.isSome hsame
      rw [Option.isSome_map, Option.isSome_map] at hsome
      exact hsome
  | compactlevelN hp => exact hquiet (lookup_afterPlan_levelN h hdir hp)
  | notDue | noneAtL0 | noneAtLevel => rfl

end StorageEngine

namespace ConcurrentDeletes

/-! ## C. The invariant

What a call has found is still so, up to the moment its request is processed. Between two requests on a key nothing
makes it live or dead, so each finds it as the one before has left it. -/

/-- The calls whose request the memtable has taken, in order. -/
def processed (s : ConcurrentDeletes ι) : List (PendingCall ι × Bool) := s.returned ++ s.results ++ s.updated.toList

/-- Those on one key. -/
def processedOn (s : ConcurrentDeletes ι) (key : Bytes) : List (PendingCall ι × Bool) :=
  s.processed.filter (·.1.request.key = key)

/-- What the calls know is still right, and what was processed last on a key has left the key as it is. -/
structure Inv (s : ConcurrentDeletes ι) : Prop where
  exact : ExactIds s.engine.dataDir
  store : StorageEngine.Inv { s.engine with cache := none }
  found : ∀ i key out, s.callers i = .found key out → s.engine.live key = true
  looked : ∀ i key existed, s.callers i = .looked key existed → existed = s.engine.live key
  pending : ∀ call ∈ s.batch ++ s.queue, ∀ key, call.request = .delete key → call.result = s.engine.live key
  through : ∀ p ∈ s.processed, ∀ key, p.1.request = .delete key → p.1.result = p.2
  last : ∀ key, ∀ p ∈ (s.processedOn key).getLast?, s.engine.live key = p.1.request.isPut
  chain : ∀ key, (s.processedOn key).IsChain fun a b => b.2 = a.1.request.isPut

section Step

variable {s s' : ConcurrentDeletes ι}

/-- A caller goes on. -/
theorem Inv.setPc (h : Inv s) {i : ι} {pc : CallPc} (hfound : ∀ key out, pc = .found key out → s.engine.live key = true)
    (hlooked : ∀ key existed, pc = .looked key existed → existed = s.engine.live key) : Inv (s.setPc i pc) := by
  refine ⟨h.exact, h.store, ?_, ?_, h.pending, h.through, h.last, h.chain⟩
  · intro j key out hj
    have hj' : Function.update s.callers i pc j = .found key out := hj
    rw [Function.update_apply] at hj'
    split_ifs at hj'
    · exact hfound key out hj'
    · exact h.found j key out hj'
  · intro j key existed hj
    have hj' : Function.update s.callers i pc j = .looked key existed := hj
    rw [Function.update_apply] at hj'
    split_ifs at hj'
    · exact hlooked key existed hj'
    · exact h.looked j key existed hj'

omit [DecidableEq ι] in
/-- The engine changes, and no key becomes live or dead. -/
theorem Inv.withEngine (h : Inv s) {engine : StorageEngine} (hdir : engine.dataDir = s.engine.dataDir)
    (hstore : StorageEngine.Inv { engine with cache := none }) (hlive : ∀ key, engine.live key = s.engine.live key) :
    Inv { s with engine } := by
  refine ⟨?_, hstore, ?_, ?_, ?_, h.through, ?_, h.chain⟩
  · show ExactIds engine.dataDir
    rw [hdir]
    exact h.exact
  · intro i key out hi
    rw [hlive]
    exact h.found i key out hi
  · intro i key existed hi
    rw [hlive]
    exact h.looked i key existed hi
  · intro call hcall key hdelete
    rw [hlive]
    exact h.pending call hcall key hdelete
  · intro key p hp
    rw [hlive]
    exact h.last key p hp

omit [DecidableEq ι] in
/-- The cache changes. -/
theorem Inv.recache (h : Inv s) (cache : Option LRUCache) : Inv { s with engine := { s.engine with cache } } :=
  h.withEngine rfl h.store fun _ => rfl

/-- A request is queued. -/
theorem Inv.enqueue (h : Inv s) {i : ι} {request : WriteRequest} {result : Bool}
    (hresult : ∀ key, request = .delete key → result = s.engine.live key) : Inv (s.enqueue i request result) := by
  have hqueued : Inv { s with queue := s.queue ++ [PendingCall.mk i request result] } := by
    refine ⟨h.exact, h.store, h.found, h.looked, ?_, h.through, h.last, h.chain⟩
    intro call hcall key hdelete
    rw [← List.append_assoc] at hcall
    rcases List.mem_append.mp hcall with hcall | hcall
    · exact h.pending call hcall key hdelete
    · obtain rfl := List.mem_singleton.mp hcall
      exact hresult key hdelete
  exact hqueued.setPc (fun _ _ hpc => absurd hpc (by simp)) fun _ _ hpc => absurd hpc (by simp)

omit [DecidableEq ι] in
/-- The writer thread goes on with the requests that are through. -/
theorem Inv.settle (h : Inv s) {updated : Option (PendingCall ι × Bool)}
    {results returned : List (PendingCall ι × Bool)} (hprocessed : returned ++ results ++ updated.toList = s.processed) :
    Inv { s with updated := updated, results := results, returned := returned } := by
  have hon : ∀ key, processedOn { s with updated := updated, results := results, returned := returned } key =
      s.processedOn key := by
    intro key
    show (returned ++ results ++ updated.toList).filter _ = s.processed.filter _
    rw [hprocessed]
  refine ⟨h.exact, h.store, h.found, h.looked, h.pending, ?_, ?_, ?_⟩
  · intro p hp
    exact h.through p (hprocessed ▸ hp)
  · intro key p hp
    rw [hon] at hp
    exact h.last key p hp
  · intro key
    rw [hon]
    exact h.chain key

/-! The memtable takes the request of a call. -/

/-- The state after that, with `batch` for the rest of the batch. -/
def afterUpdate (s : ConcurrentDeletes ι) (call : PendingCall ι) (batch : List (PendingCall ι)) : ConcurrentDeletes ι :=
  { s with
    engine := s.engine.updateMemtable call.request
    batch := batch
    updated := some (call, s.engine.live call.request.key) }

section Update

variable {call : PendingCall ι} {batch : List (PendingCall ι)}

omit [DecidableEq ι] in
/-- An update adds its request to those that were processed. -/
theorem processed_afterUpdate (hupdated : s.updated = none) :
    (s.afterUpdate call batch).processed = s.processed ++ [(call, s.engine.live call.request.key)] := by
  unfold processed
  rw [hupdated, Option.toList_none, List.append_nil]
  rfl

omit [DecidableEq ι] in
theorem processedOn_afterUpdate (hupdated : s.updated = none) (key : Bytes) :
    (s.afterUpdate call batch).processedOn key = if call.request.key = key then
      s.processedOn key ++ [(call, s.engine.live call.request.key)] else s.processedOn key := by
  unfold processedOn
  rw [processed_afterUpdate hupdated, List.filter_append, List.filter_singleton]
  by_cases hkey : call.request.key = key <;> simp [hkey]

omit [DecidableEq ι] in
/-- An update decides about its own key and leaves the others. -/
theorem Inv.live_afterUpdate (h : Inv s) (key : Bytes) : (s.afterUpdate call batch).engine.live key =
    if key = call.request.key then call.request.isPut else s.engine.live key :=
  StorageEngine.live_updateMemtable h.store h.exact call.request key

omit [DecidableEq ι] in
/-- What is said about a key is still right, unless it is the one that the condition is about. -/
theorem Inv.live_afterUpdate_eq (h : Inv s) {key : Bytes}
    (hkey : call.request.isPut ≠ s.engine.live call.request.key → key ≠ call.request.key) :
    (s.afterUpdate call batch).engine.live key = s.engine.live key := by
  rw [h.live_afterUpdate]
  split_ifs with hk
  · subst hk
    by_contra hne
    exact hkey hne rfl
  · rfl

omit [DecidableEq ι] in
/-- An update that disturbs no `del` keeps the invariant. -/
theorem Inv.afterUpdate (h : Inv s) (hbatch : s.batch = call :: batch) (hupdated : s.updated = none)
    (hC : s.Undisturbed .update) : Inv (s.afterUpdate call batch) := by
  unfold Undisturbed at hC
  rw [hbatch] at hC
  have hC := hC call rfl
  have hcall : call ∈ s.batch ++ s.queue := by
    rw [hbatch]
    exact List.mem_append_left _ List.mem_cons_self
  have hlooked : ∀ i key, (s.callers i).hasLooked key = true →
      (s.afterUpdate call batch).engine.live key = s.engine.live key := by
    intro i key hi
    apply h.live_afterUpdate_eq
    rintro hne rfl
    exact absurd ((hC hne).2 i) (by simp [hi])
  refine ⟨h.exact, StorageEngine.inv_updateMemtable call.request h.store, ?_, ?_, ?_, ?_, ?_, ?_⟩
  · intro i key out hi
    have hpc : s.callers i = .found key out := hi
    rw [hlooked i key (by simp [hpc, CallPc.hasLooked])]
    exact h.found i key out hi
  · intro i key existed hi
    have hpc : s.callers i = .looked key existed := hi
    rw [hlooked i key (by simp [hpc, CallPc.hasLooked])]
    exact h.looked i key existed hi
  · intro other hother key hdelete
    rw [h.live_afterUpdate_eq]
    · apply h.pending other _ key hdelete
      rw [hbatch]
      exact List.mem_cons_of_mem _ hother
    · rintro hne rfl
      exact (hC hne).1 other hother hdelete
  · intro p hp key hdelete
    rw [processed_afterUpdate hupdated] at hp
    rcases List.mem_append.mp hp with hp | hp
    · exact h.through p hp key hdelete
    · obtain rfl := List.mem_singleton.mp hp
      have hkey : call.request.key = key := by
        have hdelete' : call.request = .delete key := hdelete
        rw [hdelete']
        rfl
      show call.result = s.engine.live call.request.key
      rw [hkey]
      exact h.pending call hcall key hdelete
  · intro key p hp
    rw [h.live_afterUpdate]
    by_cases hkey : call.request.key = key
    · rw [processedOn_afterUpdate hupdated, if_pos hkey, List.getLast?_concat] at hp
      obtain rfl := Option.some.inj hp
      rw [if_pos hkey.symm]
    · rw [processedOn_afterUpdate hupdated, if_neg hkey] at hp
      rw [if_neg (Ne.symm hkey)]
      exact h.last key p hp
  · intro key
    rw [processedOn_afterUpdate hupdated]
    split_ifs with hkey
    · apply (h.chain key).append (List.isChain_singleton _)
      intro p hp q hq
      obtain rfl := Option.some.inj hq
      show s.engine.live call.request.key = p.1.request.isPut
      rw [hkey]
      exact h.last key p hp
    · exact h.chain key

end Update

/-- **Every step keeps the invariant.** -/
theorem Inv.step (h : Inv s) {op : DeletesOp ι} (hC : s.Undisturbed op) (hK : s.KeepsDeletes op)
    (hs : s.step op = some s') : Inv s' := by
  cases Effect.of_step hs with
  | put key value hpc => exact h.enqueue fun _ hrequest => absurd hrequest (by simp)
  | del key hpc => exact h.setPc (fun _ _ hpc => absurd hpc (by simp)) fun _ _ hpc => absurd hpc (by simp)
  | uncached hpc hc => exact h.setPc (fun _ _ hpc => absurd hpc (by simp)) fun _ _ hpc => absurd hpc (by simp)
  | @hit i key cache entry hpc hc hfind =>
      have hlive : s.engine.live key = true := by
        unfold Undisturbed at hC
        exact hC cache hc key (by rw [hpc]; rfl) (by rw [hfind]; rfl)
      refine (h.recache _).setPc (fun _ _ hpc => absurd hpc (by simp)) ?_
      intro k existed hlooked
      obtain ⟨rfl, rfl⟩ := CallPc.looked.inj hlooked
      exact hlive.symm
  | miss hpc hc hfind =>
      exact (h.recache _).setPc (fun _ _ hpc => absurd hpc (by simp)) fun _ _ hpc => absurd hpc (by simp)
  | found hpc hlive =>
      refine h.setPc ?_ fun _ _ hpc => absurd hpc (by simp)
      intro k o hfound
      obtain ⟨rfl, rfl⟩ := CallPc.found.inj hfound
      exact StorageEngine.live_of_answer hlive
  | looked hpc =>
      refine h.setPc (fun _ _ hpc => absurd hpc (by simp)) ?_
      intro k existed hlooked
      obtain ⟨rfl, rfl⟩ := CallPc.looked.inj hlooked
      rfl
  | @cacheFill i key out hpc =>
      have hlive := h.found i key out hpc
      refine (h.recache _).setPc (fun _ _ hpc => absurd hpc (by simp)) ?_
      intro k existed hlooked
      obtain ⟨rfl, rfl⟩ := CallPc.looked.inj hlooked
      exact hlive.symm
  | @push i key existed hpc =>
      apply h.enqueue
      intro k hdelete
      obtain rfl := WriteRequest.delete.inj hdelete
      exact h.looked i key existed hpc
  | popBatch hbatch =>
      refine ⟨h.exact, h.store, h.found, h.looked, ?_, h.through, h.last, h.chain⟩
      intro call hcall
      apply h.pending call
      rw [hbatch, List.nil_append, ← List.take_append_drop maxBatchSize s.queue]
      exact hcall
  | update hbatch hupdated => exact h.afterUpdate hbatch hupdated hC
  | @invalidate through hupdated =>
      have hprocessed : s.returned ++ (s.results ++ [through]) ++ [] = s.processed := by
        unfold processed
        rw [hupdated, List.append_nil, Option.toList_some, List.append_assoc]
      have hcached : Inv { s with engine := s.engine.invalidate through.1.request.key } := h.recache _
      exact hcached.settle hprocessed
  | @complete through results hupdated hresults =>
      have hprocessed : s.returned ++ [through] ++ results ++ s.updated.toList = s.processed := by
        unfold processed
        rw [hresults, List.append_assoc s.returned, List.singleton_append]
      exact (h.settle hprocessed).setPc (fun _ _ hpc => absurd hpc (by simp)) fun _ _ hpc => absurd hpc (by simp)
  | @background op engine hop hengine =>
      have hstep := StorageEngine.step_uncached hop hengine
      have hinv := h.store.step h.exact hstep
      exact h.withEngine hinv.2 hinv.1 fun key => StorageEngine.live_background h.store h.exact hop hK hstep key

end Step

/-! ## D. Whole runs -/

omit [DecidableEq ι] in
/-- What has returned was processed, and was right then. -/
theorem Inv.truthful {s : ConcurrentDeletes ι} (h : Inv s) : s.Truthful := by
  have hexact : ∀ p ∈ s.returned, ∀ key, p.1.request = .delete key → p.1.result = p.2 := fun p hp =>
    h.through p (List.mem_append_left _ (List.mem_append_left _ hp))
  refine ⟨hexact, ?_⟩
  intro key
  have hpre : s.returned.filter (·.1.request.key = key) <+: s.processedOn key :=
    ((List.prefix_append _ _).trans (List.prefix_append _ _)).filter _
  have hchain := List.IsChain.prefix (h.chain key) hpre
  refine hchain.imp_of_mem_imp ?_
  rintro a b - hb hab hadelete hbdelete ⟨-, hbtrue⟩
  rw [hexact b (List.mem_of_mem_filter hb) key hbdelete, hab, hadelete] at hbtrue
  exact absurd hbtrue (by simp [WriteRequest.isPut])

omit [DecidableEq ι] in
/-- Every state of the engine is a start. -/
theorem inv_start {dataDir : Bytes} (hdir : ExactIds dataDir) {cacheSize : Nat} {history : List EngineOp}
    {engine : StorageEngine}
    (h : exec StorageEngine.step (StorageEngine.init dataDir cacheSize) history = some engine) :
    Inv (start ι engine) := by
  obtain ⟨hinv, rfl⟩ := StorageEngine.inv_of_exec hdir h
  refine ⟨hdir, ⟨⟨hinv.wf, hinv.aged⟩, hinv.fresh, hinv.deepPuts, fun c hc => absurd hc (by simp)⟩,
    fun i key out hi => absurd hi (by simp [start]), fun i key existed hi => absurd hi (by simp [start]),
    fun call hcall => absurd hcall List.not_mem_nil, fun p hp => absurd hp List.not_mem_nil,
    fun key p hp => absurd hp (by simp [processedOn, processed, start, BatchInHand.idle]), fun key => List.isChain_nil⟩

/-- **Deletes report truthfully** in every run, from every reachable state of the engine, in which no other request
    makes the key of a `del` live or dead between its look and its turn. -/
theorem truthful_of_undisturbed {dataDir : Bytes} (hdir : ExactIds dataDir) {cacheSize : Nat}
    {history : List EngineOp} {engine : StorageEngine}
    (h₀ : exec StorageEngine.step (StorageEngine.init dataDir cacheSize) history = some engine)
    {ops : List (DeletesOp ι)} {s : ConcurrentDeletes ι} (h : exec step (start ι engine) ops = some s)
    (hC : Meets step Undisturbed (start ι engine) ops) (hK : Meets step KeepsDeletes (start ι engine) ops) :
    s.Truthful := by
  have hinv : Inv s := exec_invariant_of_meets (inv_start hdir h₀)
    (fun _ _ _ hinv hC hs => hinv.step hC.1 hC.2 hs) (hC.and hK) h
  exact hinv.truthful

/-- Two deletes of one key, both queued after both have looked. -/
def twoDeletes : List (DeletesOp Bool) :=
  [.del false (Bytes.ascii "a"), .cacheLookup false, .lookup false, .del true (Bytes.ascii "a"), .cacheLookup true,
    .lookup true, .push false, .push true, .popBatch, .update, .invalidate, .update, .invalidate, .complete, .complete]

/-- The same two, the second one called when the first one has returned. -/
def deleteTwice : List (DeletesOp Bool) :=
  [.del false (Bytes.ascii "a"), .cacheLookup false, .lookup false, .push false, .popBatch, .update, .invalidate,
    .complete, .del true (Bytes.ascii "a"), .cacheLookup true, .lookup true, .push true, .popBatch, .update,
    .invalidate, .complete]

omit [Platform] in
/-- Both say that they have deleted it. -/
theorem not_truthful_twoDeletes : letI := Platform.sample
    ∃ engine s, exec StorageEngine.step (StorageEngine.init (Bytes.ascii "data") 0)
        [.put (Bytes.ascii "a") (Bytes.ascii "1")] = some engine ∧
      exec step (start Bool engine) twoDeletes = some s ∧
      s.returned = [(⟨false, .delete (Bytes.ascii "a"), true⟩, true),
        (⟨true, .delete (Bytes.ascii "a"), true⟩, false)] ∧
      ¬ s.Truthful := by
  let := Platform.sample
  have hrun : ((exec StorageEngine.step (StorageEngine.init (Bytes.ascii "data") 0)
      [.put (Bytes.ascii "a") (Bytes.ascii "1")]).bind fun engine =>
        (exec step (start Bool engine) twoDeletes).map fun s => s.returned) =
      some [(⟨false, .delete (Bytes.ascii "a"), true⟩, true), (⟨true, .delete (Bytes.ascii "a"), true⟩, false)] := by
    decide +kernel
  obtain ⟨engine, h₀, hrun⟩ := Option.bind_eq_some_iff.mp hrun
  obtain ⟨s, h, hreturned⟩ := Option.map_eq_some_iff.mp hrun
  refine ⟨engine, s, h₀, h, hreturned, ?_⟩
  intro htruthful
  have hsecond : (⟨true, .delete (Bytes.ascii "a"), true⟩, false) ∈ s.returned := by
    rw [hreturned]
    exact List.mem_cons_of_mem _ List.mem_cons_self
  exact absurd (htruthful.exact _ hsecond (Bytes.ascii "a") rfl) (by decide)

omit [Platform] in
theorem truthful_deleteTwice : letI := Platform.sample
    ∃ engine s, exec StorageEngine.step (StorageEngine.init (Bytes.ascii "data") 0)
        [.put (Bytes.ascii "a") (Bytes.ascii "1")] = some engine ∧
      exec step (start Bool engine) deleteTwice = some s ∧ s.Truthful := by
  let := Platform.sample
  have hrun : ((exec StorageEngine.step (StorageEngine.init (Bytes.ascii "data") 0)
      [.put (Bytes.ascii "a") (Bytes.ascii "1")]).bind fun engine =>
        (exec step (start Bool engine) deleteTwice).map fun _ =>
          decide (Meets step Undisturbed (start Bool engine) deleteTwice)) = some true := by
    decide +kernel
  obtain ⟨engine, h₀, hrun⟩ := Option.bind_eq_some_iff.mp hrun
  obtain ⟨s, h, hC⟩ := Option.map_eq_some_iff.mp hrun
  have hK : Meets step KeepsDeletes (start Bool engine) deleteTwice :=
    meets_of_forall (by simp [deleteTwice, KeepsDeletes]) _
  exact ⟨engine, s, h₀, h, truthful_of_undisturbed exactIds_data h₀ h (of_decide_eq_true hC) hK⟩

end ConcurrentDeletes

end KvStorageEngine
