import KvStorageEngine.Engine.Correctness.EngineInvariant
import KvStorageEngine.Engine.Correctness.LivePlaces

/-!
# `Engine.Correctness.LiveReads` — what a running engine answers

A `get` takes no lock from beginning to end, so its answer is not that of one moment by construction. It is the answer
of one moment all the same, as long as the steps of the threads are `Sound`: every call that has looked its key up has
found what some of the writes leave, in the order in which they reached the memtable, and these are at least those that
were acknowledged when the call began, and no more than had reached the memtable when it ended (`right_of_sound`). When
no rotation is under way the engine holds what all of its writes leave (`contents_of_sound`).

Layout of the file:
* **A** — what a reader has seen, and what it has ahead of it.
* **B** — what is right at each point of a call.
* **C** — the cache.
* **D** — the invariant, and one step.
* **E** — whole runs.
-/

namespace KvStorageEngine

open KeyedWrites Run

variable [Platform]

/-! ## A. What a reader has seen

A reader has to find what some of the writes leave, and at least those that were acknowledged when its call began. It
has found that already, or it is still ahead of the record. -/

section Seen

variable {ι : Type} {e₀ : StorageEngine} {ws : List (LiveWrite ι)} {key : Bytes} {e : Entry} {since : Nat}

/-- A record that is as new as all that a call has to see. -/
def Seen (e₀ : StorageEngine) (ws : List (LiveWrite ι)) (since : Nat) (key : Bytes) (e : Entry) : Prop :=
  Recorded e₀ ws key e ∧ ∀ q, Dated e₀ (ws.take since) key q → q ≤ e.seq

/-- What a search may end with: such a record, or nothing, where there is nothing to see or it is a tombstone. -/
def Outcome (e₀ : StorageEngine) (ws : List (LiveWrite ι)) (since : Nat) (key : Bytes) : Option Entry → Prop
  | some e => Seen e₀ ws since key e
  | none => (∀ q, ¬ Dated e₀ (ws.take since) key q) ∨ ∃ e, Seen e₀ ws since key e ∧ e.type = .delete

/-- A candidate is such a record, or it is among the records that are still ahead. -/
def Ahead (e₀ : StorageEngine) (ws : List (LiveWrite ι)) (since : Nat) (key : Bytes) (records : List Entry) :
    Option Entry → Prop
  | some e => Seen e₀ ws since key e
  | none => Relay.Reaches Entry.seq (Dated e₀ (ws.take since) key) records

omit [Platform] in
theorem take_append (hsince : since ≤ ws.length) (more : List (LiveWrite ι)) : (ws ++ more).take since = ws.take since :=
  List.take_append_of_le_length hsince

/-- What a reader has seen stays right when more is written, -/
theorem Seen.append (h : Seen e₀ ws since key e) (hsince : since ≤ ws.length) (more : List (LiveWrite ι)) :
    Seen e₀ (ws ++ more) since key e := by
  refine ⟨h.1.mono (List.subset_append_left _ _), ?_⟩
  rw [take_append hsince]
  exact h.2

/-- and so does what its search has come to. -/
theorem Outcome.append {out : Option Entry} (h : Outcome e₀ ws since key out) (hsince : since ≤ ws.length)
    (more : List (LiveWrite ι)) : Outcome e₀ (ws ++ more) since key out := by
  cases out with
  | some e => exact Seen.append h hsince more
  | none =>
      rcases h with hnone | ⟨e, he, hdelete⟩
      · refine Or.inl ?_
        rw [take_append hsince]
        exact hnone
      · exact Or.inr ⟨e, he.append hsince more, hdelete⟩

/-- A newer record of the key has been seen as well. -/
theorem Seen.newer (h : Seen e₀ ws since key e) {e' : Entry} (he' : Recorded e₀ ws key e') (hle : e.seq ≤ e'.seq) :
    Seen e₀ ws since key e' := ⟨he', fun q hq => (h.2 q hq).trans hle⟩

/-- A record that was seen is the value that some of the writes leave. -/
theorem Seen.looked (h : Seen e₀ ws since key e) (hcounted : Counted e₀ ws) (hsince : since ≤ ws.length) :
    Looked e₀ ws since key (· = (answer (some e)).map (·.value)) := h.1.looked hcounted hsince h.2

/-- What a search ends with is what some of the writes leave. -/
theorem Outcome.looked {out : Option Entry} (h : Outcome e₀ ws since key out) (hcounted : Counted e₀ ws)
    (hsince : since ≤ ws.length) : Looked e₀ ws since key (· = (answer out).map (·.value)) := by
  cases out with
  | some e => exact Seen.looked h hcounted hsince
  | none =>
      rcases h with hnone | ⟨e, he, hdelete⟩
      · exact looked_of_undated hsince hnone
      · have hlooked := he.looked hcounted hsince
        rwa [answer_delete hdelete] at hlooked

end Seen

namespace LiveEngine

variable {ι : Type} [DecidableEq ι] {e₀ : StorageEngine} {virt virt' : Bytes → Option Entry} {s s' : LiveEngine ι}

section Looks

variable {key : Bytes} {since : Nat} {candidate : Option Entry}

omit [DecidableEq ι] in
/-- A look into the active memtable, -/
theorem Placed.readActive (h : Placed e₀ virt s) (since : Nat) (key : Bytes) :
    Ahead e₀ s.writes since key (s.places virt key).behindActive (s.engine.memtable.get key) := by
  have hreaches : Relay.Reaches Entry.seq (Dated e₀ (s.writes.take since) key) (s.places virt key).held :=
    (h.reaches key).mono fun q hq => hq.mono (List.take_subset _ _)
  obtain ⟨hsome, hnone⟩ := hreaches.readActive
  cases hget : s.engine.memtable.get key with
  | some e => exact ⟨h.records.memtable key e hget, hsome e hget⟩
  | none => exact hnone hget

omit [DecidableEq ι] in
/-- one into the immutable memtable, with no record on its way between the two, -/
theorem Placed.readImmutable (h : Placed e₀ virt s)
    (hahead : Ahead e₀ s.writes since key (s.places virt key).behindActive candidate)
    (hhidden : candidate = none → s.hidden key = none) :
    Ahead e₀ s.writes since key (s.places virt key).behindWaiting
      (considerRecord candidate (s.engine.immutableMemtable.bind (·.get key))) := by
  have hrecorded : ∀ e, s.engine.immutableMemtable.bind (·.get key) = some e → Recorded e₀ s.writes key e := by
    intro e he
    obtain ⟨imm, himm, hget⟩ := Option.bind_eq_some_iff.mp he
    exact h.records.immutable imm himm key e hget
  cases candidate with
  | some c =>
      obtain ⟨e, he, hle⟩ := exists_considerRecord c (s.engine.immutableMemtable.bind (·.get key))
      rw [he]
      rcases considerRecord_eq_some he with hc | hr
      · exact Option.some.inj hc ▸ hahead
      · exact Seen.newer hahead (hrecorded e hr) hle
  | none =>
      obtain ⟨hsome, hnone⟩ := Relay.Reaches.readWaiting hahead (hhidden rfl)
      cases hget : s.engine.immutableMemtable.bind (·.get key) with
      | some e => exact ⟨hrecorded e hget, hsome e hget⟩
      | none => exact hnone hget

omit [DecidableEq ι] in
/-- and the search of the version. -/
theorem Placed.readVersion (h : Placed e₀ virt s)
    (hahead : Ahead e₀ s.writes since key (s.places virt key).behindWaiting candidate) :
    Outcome e₀ s.writes since key (searchVersion s.engine.version key candidate) := by
  cases candidate with
  | some c =>
      obtain ⟨e, he, hle⟩ := exists_searchVersion s.engine.version key c
      rw [he]
      rcases searchLevels_eq_some he with hc | ⟨t, ht, hfind⟩
      · exact Option.some.inj hc ▸ hahead
      · exact Seen.newer hahead (h.records.version t ht key e hfind) hle
  | none =>
      obtain ⟨hsome, hnone⟩ := Relay.Reaches.readSettled hahead
      have hseen : ∀ e, virt key = some e → Seen e₀ s.writes since key e := fun e he =>
        ⟨h.virtual key e he, hsome e he⟩
      rcases h.shows key with heq | ⟨heq, e, he, hdelete⟩
      · show Outcome e₀ s.writes since key (s.engine.version.record key)
        rw [heq]
        cases hvirt : virt key with
        | some e => exact hseen e hvirt
        | none => exact Or.inl (hnone hvirt)
      · show Outcome e₀ s.writes since key (s.engine.version.record key)
        rw [heq]
        exact Or.inr ⟨e, hseen e he, hdelete⟩

omit [DecidableEq ι] in
/-- A lookup of one moment, with no record on its way. -/
theorem Placed.lookup (h : Placed e₀ virt s) (hhidden : s.hidden key = none) (since : Nat) :
    Outcome e₀ s.writes since key (s.engine.lookup key) :=
  h.readVersion (h.readImmutable (h.readActive since key) fun _ => hhidden)

end Looks

end LiveEngine

/-! ## B. What is right at each point of a call

What a call has in hand at each of its places, from the look into the cache to the answer; all of it stays right when
more is written and when records move on. -/

section Right

variable {ι : Type} {e₀ : StorageEngine} {ws : List (LiveWrite ι)} {key : Bytes} {since acked : Nat}
  {places places' : Relay Entry}

/-- What the search of a call has found by now. -/
def SearchPc.Right (e₀ : StorageEngine) (ws : List (LiveWrite ι)) (places : Relay Entry) (since : Nat) (key : Bytes) :
    SearchPc → Prop
  | .called | .missed => True
  | .readActive candidate => Ahead e₀ ws since key places.behindActive candidate
  | .readImmutable candidate => Ahead e₀ ws since key places.behindWaiting candidate
  | .searching rest => Outcome e₀ ws since key (rest.eval key)
  | .found out => Seen e₀ ws since key out ∧ out.type = .put

/-- What a call knows whose search is over, and that is going to make a request: a `del` whether there was anything. -/
def EngineCall.Knows (e₀ : StorageEngine) (ws : List (LiveWrite ι)) (since : Nat) (existed : Bool) : EngineCall → Prop
  | .get _ => False
  | .put _ _ => True
  | .del key => Looked e₀ ws since key fun v => existed = v.isSome

/-- What a call answers: a `get` with the value that some of the writes leave, a `del` with whether they leave one. -/
def CallResult.Right (e₀ : StorageEngine) (ws : List (LiveWrite ι)) (since : Nat) : EngineCall → CallResult → Prop
  | .get key, .found out => Looked e₀ ws since key (· = (answer out).map (·.value))
  | .put _ _, .done success => success = true
  | .del key, .done success => Looked e₀ ws since key fun v => success = v.isSome
  | _, _ => False

/-- What a call is about to answer, or has answered. -/
def LivePc.Right (e₀ : StorageEngine) (ws : List (LiveWrite ι)) (places : Relay Entry) (since : Nat)
    (call : EngineCall) : LivePc → Prop
  | .searching pc => pc.Right e₀ ws places since call.key
  | .pushing existed | .waiting existed => call.Knows e₀ ws since existed
  | .returned result => CallResult.Right e₀ ws since call result

/-- A call that began when no more was acknowledged than is by now. -/
structure LiveCall.Right (e₀ : StorageEngine) (ws : List (LiveWrite ι)) (acked : Nat) (places : Relay Entry)
    (c : LiveCall) : Prop where
  since_le : c.since ≤ acked
  right : c.pc.Right e₀ ws places c.since c.call

/-- A reader that is ahead of the record stays ahead of it. -/
theorem Ahead.append {records records' : List Entry} {candidate : Option Entry}
    (h : Ahead e₀ ws since key records candidate) (hsince : since ≤ ws.length) (more : List (LiveWrite ι))
    (hrecords : Relay.Reaches Entry.seq (Dated e₀ (ws.take since) key) records →
      Relay.Reaches Entry.seq (Dated e₀ (ws.take since) key) records') :
    Ahead e₀ (ws ++ more) since key records' candidate := by
  cases candidate with
  | some e => exact Seen.append h hsince more
  | none =>
      show Relay.Reaches Entry.seq (Dated e₀ ((ws ++ more).take since) key) records'
      rw [take_append hsince]
      exact hrecords h

/-- The records move on and more is written, and it is still right. -/
theorem SearchPc.Right.move {pc : SearchPc} (h : pc.Right e₀ ws places since key) (hsince : since ≤ ws.length)
    (hsorted : Relay.Sorted Entry.seq places) (hmove : places' = places ∨ Relay.Move Entry.seq places places')
    (more : List (LiveWrite ι)) : pc.Right e₀ (ws ++ more) places' since key := by
  cases pc with
  | called | missed => trivial
  | readActive candidate =>
      refine Ahead.append h hsince more fun hreaches => ?_
      rcases hmove with rfl | hmove
      · exact hreaches
      · exact hreaches.move hsorted hmove
  | readImmutable candidate =>
      refine Ahead.append h hsince more fun hreaches => ?_
      rcases hmove with rfl | hmove
      · exact hreaches
      · exact hreaches.moveWaiting hsorted hmove
  | searching rest => exact Outcome.append h hsince more
  | found out => exact ⟨h.1.append hsince more, h.2⟩

theorem EngineCall.Knows.append {call : EngineCall} {existed : Bool} (h : call.Knows e₀ ws since existed)
    (more : List (LiveWrite ι)) : call.Knows e₀ (ws ++ more) since existed := by
  cases call with
  | get key | put key value => exact h
  | del key =>
      have hlooked : Looked e₀ ws since key fun v => existed = v.isSome := h
      exact hlooked.append more

theorem CallResult.Right.append {call : EngineCall} {result : CallResult} (h : CallResult.Right e₀ ws since call result)
    (more : List (LiveWrite ι)) : CallResult.Right e₀ (ws ++ more) since call result := by
  cases call with
  | put key value => cases result <;> exact h
  | get key =>
      cases result with
      | found out =>
          have hlooked : Looked e₀ ws since key (· = (answer out).map (·.value)) := h
          exact hlooked.append more
      | done success | threw => exact h
  | del key =>
      cases result with
      | done success =>
          have hlooked : Looked e₀ ws since key fun v => success = v.isSome := h
          exact hlooked.append more
      | found out | threw => exact h

/-- What a call has in hand stays right when records move on and more is written. -/
theorem LivePc.Right.move {call : EngineCall} {pc : LivePc} (h : pc.Right e₀ ws places since call)
    (hsince : since ≤ ws.length) (hsorted : Relay.Sorted Entry.seq places)
    (hmove : places' = places ∨ Relay.Move Entry.seq places places') (more : List (LiveWrite ι)) :
    pc.Right e₀ (ws ++ more) places' since call := by
  cases pc with
  | searching pc => exact SearchPc.Right.move h hsince hsorted hmove more
  | pushing existed | waiting existed => exact EngineCall.Knows.append h more
  | returned result => exact CallResult.Right.append h more

omit [Platform] in
theorem answer_answer (found : Option Entry) : answer (answer found) = answer found := by
  cases hout : answer found with
  | none => rfl
  | some e => exact answer_put (answer_eq_some.mp hout).2

/-- A search is over: a `get` answers what it has found, and a `del` whether it has found anything. -/
theorem LivePc.right_searched {call : EngineCall} {out : Option Entry}
    (h : Looked e₀ ws since call.key (· = (answer out).map (·.value))) (hput : answer out = out) :
    (LivePc.searched call out).Right e₀ ws places since call := by
  cases call with
  | get key => exact h
  | put key value => trivial
  | del key =>
      obtain ⟨m, hsince, hle, hvalue⟩ := h
      refine ⟨m, hsince, hle, ?_⟩
      show out.isSome = (valueAfter e₀ ws m key).isSome
      rw [show valueAfter e₀ ws m key = (answer out).map (·.value) from hvalue, Option.isSome_map, hput]

/-- A call that begins has nothing in hand. -/
theorem LivePc.right_begin (call : EngineCall) : (LivePc.begin call).Right e₀ ws places since call := by
  cases call <;> trivial

/-- The promise is fulfilled. -/
theorem LiveCall.Right.finish {c : LiveCall} (h : c.Right e₀ ws acked places) :
    (c.finish true).Right e₀ ws acked places := by
  obtain ⟨call, since, pc⟩ := c
  cases pc with
  | waiting existed =>
      refine ⟨h.since_le, ?_⟩
      have hright := h.right
      cases call with
      | get key => exact hright
      | put key value => rfl
      | del key => exact hright
  | searching pc | pushing existed | returned result => exact h

end Right

namespace LiveEngine

variable {ι : Type} [DecidableEq ι] {e₀ : StorageEngine} {virt virt' : Bytes → Option Entry} {s s' : LiveEngine ι}

/-! ## C. The cache

A cached record is right as long as it may stay (`MayStay`): the writer thread is still to drop the key, or there is
no newer write of it that is through. -/

section Cache

variable {key : Bytes} {e : Entry}

/-- An entry of the cache: a put that may stay there. -/
structure Cached (e₀ : StorageEngine) (s : LiveEngine ι) (key : Bytes) (e : Entry) : Prop where
  recorded : Recorded e₀ s.writes key e
  put : e.type = .put
  initial : ∀ n, e₀.lookup key = some n → n.seq ≤ e.seq
  stays : s.MayStay key e

omit [DecidableEq ι] in
/-- It is as new as what a call has to see that finds it. -/
theorem Cached.seen (h : Cached e₀ s key e) {since : Nat} (hsince : since ≤ s.acked) : Seen e₀ s.writes since key e := by
  refine ⟨h.recorded, ?_⟩
  rintro q (⟨n, hn, rfl⟩ | ⟨w, hw, hkey, rfl⟩)
  · exact h.initial n hn
  · refine h.stays.1 w ?_ hkey
    rw [← Nat.min_eq_left hsince, ← List.take_take] at hw
    exact List.mem_of_mem_take hw

omit [DecidableEq ι] in
/-- With nothing left of the batch, it is as new as everything that was written. -/
theorem MayStay.settled (h : s.MayStay key e) (hupdated : s.writer.updated? = none) (hbatch : s.writer.batch = []) :
    ∀ w ∈ s.writes, w.request.key = key → w.seq ≤ e.seq := by
  rcases h.2 with (⟨call, hcall, -⟩ | ⟨call, hcall, -⟩) | hall
  · exact absurd (hupdated.symm.trans hcall) (by simp)
  · rw [hbatch] at hcall
    exact absurd hcall List.not_mem_nil
  · unfold invalidated at hall
    rwa [hupdated] at hall

omit [DecidableEq ι] in
/-- Between two requests of the writer thread, a record with no newer write may stay in the cache. -/
theorem mayStay_of_settled (hupdated : s.writer.updated? = none)
    (h : ∀ w ∈ s.writes, w.request.key = key → w.seq ≤ e.seq) : s.MayStay key e := by
  refine ⟨fun w hw => h w (List.mem_of_mem_take hw), Or.inr ?_⟩
  unfold invalidated
  rw [hupdated]
  exact h

/-- The request that the writer thread has just put into the memtable is the last of the writes. -/
def LastUpdated (s : LiveEngine ι) : Prop :=
  ∀ call, s.writer.updated? = some call → ∃ ws w, s.writes = ws ++ [w] ∧ w.request = call.2

/-- The request that the writer thread is at is its last write. -/
theorem LastUpdated.step (h : s.LastUpdated) {op : LiveOp ι} (hs : s.step op = some s') : s'.LastUpdated := by
  cases Effect.of_step hs with
  | call _ | uncached _ _ | hit _ _ _ | miss _ _ _ | readActive _ | readImmutable _ | takeVersion _ | found _ _
  | searched _ | threw _ _ _ | looked _ | fill _ | push _ _ | background _ _ => exact h
  | popBatch _ _ | invalidate _ | throwsApplying _ | throwsChecking _ | endBatch _ | rotate _ _ | checkFlush _
  | rotateClear _ | rotatePublish _ | complete _ | completed _ =>
      exact fun call hcall => absurd hcall (by simp [LiveWriterPc.updated?])
  | @update call batch results _ =>
      rintro call' hcall'
      obtain rfl := Option.some.inj hcall'
      exact ⟨s.writes, _, rfl, rfl⟩

/-- A step keeps what may stay, unless it drops it. -/
theorem MayStay.step (h : s.MayStay key e) (hacked : s.acked ≤ s.writes.length) (hlast : s.LastUpdated)
    {op : LiveOp ι} (hC : s.Unthrown op) (hs : s.step op = some s')
    (hkept : op = .invalidate → ∀ call, s.writer.updated? = some call → call.2.key ≠ key) : s'.MayStay key e := by
  cases Effect.of_step hs with
  | call _ | uncached _ _ | hit _ _ _ | miss _ _ _ | readActive _ | readImmutable _ | takeVersion _ | found _ _
  | searched _ | threw _ _ _ | looked _ | fill _ | push _ _ | background _ _ => exact h
  | throwsApplying _ => exact hC.elim
  | throwsChecking _ => exact hC.elim
  | popBatch hpc _ | endBatch hpc | rotate hpc _ | checkFlush hpc | rotateClear hpc | rotatePublish hpc | complete hpc
  | completed hpc =>
      exact mayStay_of_settled rfl (h.settled (by rw [hpc]; rfl) (by rw [hpc]; rfl))
  | @update call batch results hpc =>
      refine ⟨?_, ?_⟩
      · show ∀ w ∈ (s.writes ++ [LiveWrite.mk call.1 call.2 _]).take s.acked, w.request.key = key → w.seq ≤ e.seq
        rw [List.take_append_of_le_length hacked]
        exact h.1
      · have hupdated : s.writer.updated? = none := by rw [hpc]; rfl
        refine h.2.imp ?_ ?_
        · rintro (⟨call', hcall', -⟩ | ⟨call', hmem, hkey⟩)
          · exact absurd (hupdated.symm.trans hcall') (by simp)
          · rw [hpc] at hmem
            rcases List.mem_cons.mp hmem with rfl | hmem
            · exact Or.inl ⟨_, rfl, hkey⟩
            · exact Or.inr ⟨call', hmem, hkey⟩
        · intro hall
          show ∀ w ∈ (s.writes ++ [LiveWrite.mk call.1 call.2 _]).dropLast, w.request.key = key → w.seq ≤ e.seq
          rw [List.dropLast_concat]
          unfold invalidated at hall
          rwa [hupdated] at hall
  | @invalidate call batch results hpc =>
      have hupdated : s.writer.updated? = some call := by rw [hpc]; rfl
      have hne := hkept rfl call hupdated
      refine ⟨h.1, h.2.imp ?_ ?_⟩
      · rintro (⟨call', hcall', hkey⟩ | ⟨call', hmem, hkey⟩)
        · obtain rfl := Option.some.inj (hupdated.symm.trans hcall')
          exact absurd hkey hne
        · rw [hpc] at hmem
          exact Or.inr ⟨call', hmem, hkey⟩
      · intro hall
        obtain ⟨ws, w, hwrites, hrequest⟩ := hlast call hupdated
        unfold invalidated at hall
        rw [hupdated, hwrites] at hall
        show ∀ v ∈ s.writes, _
        rw [hwrites]
        intro v hv hkey
        rcases List.mem_append.mp hv with hv | hv
        · refine hall v ?_ hkey
          show v ∈ (ws ++ [w]).dropLast
          rwa [List.dropLast_concat]
        · obtain rfl := List.mem_singleton.mp hv
          exact absurd (hrequest ▸ hkey) hne

/-- A thread of the store puts nothing into the cache. -/
theorem cached_of_thread {s s' : Store} {op : StoreOp} (hop : op.ofThread = true) (hs : s.step op = some s')
    {cache' : LRUCache} (hcache' : s'.engine.cache = some cache') (hfind : cache'.cache.find? key = some e) :
    ∃ cache, s.engine.cache = some cache ∧ cache.cache.find? key = some e := by
  have hclear : s.engine.clearCache.cache = some cache' → False := by
    intro hclear
    obtain ⟨cache, -, rfl⟩ := Option.map_eq_some_iff.mp hclear
    exact absurd (hfind.symm.trans (cache.find?_clear key)) (by simp)
  cases Store.Effect.of_step hs with
  | write | get | fill _ | rotate _ | clearRemove _ | clearMemtable _ | clearCounters _ | clearVersion _ | clearCache _
  | restart _ _ _ => exact absurd hop (by simp [StoreOp.ofThread])
  | unlink | nothingInL0 | nothingInLevel | compactL0toL1 _ _ | compactlevelN _ _ | compactWrite _ | compactCopy _
  | compactSave _ | flushEmpty _ _ _ | flushWrite _ _ _ | flushCopy _ | flushInstall _ | flushReset _
  | compactInstall _ => exact ⟨cache', hcache', hfind⟩
  | flushSave _ | compactRemove _ => exact (hclear hcache').elim

/-- What is in the cache after a step was there before, and its key was not dropped; or a call has put it there. -/
theorem cached_step {op : LiveOp ι} (hs : s.step op = some s') {cache' : LRUCache}
    (hcache' : s'.engine.cache = some cache') (hfind : cache'.cache.find? key = some e) :
    (∃ cache, s.engine.cache = some cache ∧ cache.cache.find? key = some e ∧
        (op = .invalidate → ∀ call, s.writer.updated? = some call → call.2.key ≠ key)) ∨
      ∃ i, op = .fill i ∧ s.filling? i = some (key, e) := by
  cases Effect.of_step hs with
  | call _ | uncached _ _ | readActive _ | readImmutable _ | takeVersion _ | found _ _ | searched _ | threw _ _ _
  | looked _ | push _ _ | popBatch _ _ | throwsApplying _ | throwsChecking _ | endBatch _ | rotate _ _ | checkFlush _
  | rotateClear _ | rotatePublish _ | complete _ | completed _ | update _ =>
      exact Or.inl ⟨cache', hcache', hfind, by simp⟩
  | @hit i call since cache cached hpc hcache _ | @miss i call since cache hpc hcache _ =>
      obtain rfl := Option.some.inj hcache'
      rw [LRUCache.cache_get] at hfind
      exact Or.inl ⟨cache, hcache, hfind, by simp⟩
  | @fill i call since out hpc =>
      obtain ⟨cache, hcache, rfl⟩ := Option.map_eq_some_iff.mp hcache'
      rcases LRUCache.find?_put hfind with ⟨rfl, rfl⟩ | ⟨-, hold⟩
      · refine Or.inr ⟨i, rfl, ?_⟩
        unfold filling?
        rw [hpc]
      · exact Or.inl ⟨cache, hcache, hold, by simp⟩
  | @invalidate call batch results hpc =>
      obtain ⟨cache, hcache, rfl⟩ := Option.map_eq_some_iff.mp hcache'
      obtain ⟨hne, hold⟩ := LRUCache.find?_invalidate hfind
      refine Or.inl ⟨cache, hcache, hold, fun _ call' hcall' => ?_⟩
      rw [hpc] at hcall'
      obtain rfl := Option.some.inj hcall'
      exact fun heq => hne heq.symm
  | background hop hthread =>
      obtain ⟨cache, hcache, hold⟩ := cached_of_thread hop hthread hcache' hfind
      exact Or.inl ⟨cache, hcache, hold, by simp⟩

end Cache

/-! ## D. The invariant, and one step

The places, the calls and the cache together. -/

/-- The records are in their places, every request is on its way, what is in the cache may be there, and the calls are
    right. -/
structure Inv (e₀ : StorageEngine) (virt : Bytes → Option Entry) (s : LiveEngine ι) : Prop where
  placed : Placed e₀ virt s
  pipeline : Pipeline s
  last : LastUpdated s
  cached : ∀ cache, s.engine.cache = some cache → ∀ key e, cache.cache.find? key = some e → Cached e₀ s key e
  calls : ∀ i c, s.calls i = some c → c.Right e₀ s.writes s.acked (s.places virt c.call.key)

/-- More is written and acknowledged. -/
theorem writes_step {op : LiveOp ι} (hs : s.step op = some s') :
    (∃ more, s'.writes = s.writes ++ more) ∧ s.acked ≤ s'.acked := by
  cases Effect.of_step hs with
  | call _ | uncached _ _ | hit _ _ _ | miss _ _ _ | readActive _ | readImmutable _ | takeVersion _ | found _ _
  | searched _ | threw _ _ _ | looked _ | fill _ | push _ _ | popBatch _ _ | throwsApplying _ | throwsChecking _
  | endBatch _ | rotate _ _ | checkFlush _ | rotateClear _ | rotatePublish _ | invalidate _ | completed _
  | background _ _ => exact ⟨⟨[], (List.append_nil _).symm⟩, Nat.le_refl _⟩
  | update _ => exact ⟨⟨_, rfl⟩, Nat.le_refl _⟩
  | complete _ =>
      refine ⟨⟨[], (List.append_nil _).symm⟩, ?_⟩
      dsimp only
      split_ifs
      · exact Nat.le_succ _
      · exact Nat.le_refl _

/-- The cache after a step. -/
theorem Inv.cached_step (h : Inv e₀ virt s) {op : LiveOp ι} (hC : s.Sound op) (hs : s.step op = some s')
    {cache' : LRUCache} (hcache' : s'.engine.cache = some cache') {key : Bytes} {e : Entry}
    (hfind : cache'.cache.find? key = some e) : Cached e₀ s' key e := by
  obtain ⟨⟨more, hmore⟩, -⟩ := writes_step hs
  rcases LiveEngine.cached_step hs hcache' hfind with ⟨cache, hcache, hold, hkept⟩ | ⟨i, rfl, hfill⟩
  · have hc := h.cached cache hcache key e hold
    refine ⟨?_, hc.put, hc.initial, hc.stays.step h.pipeline.acked_le h.last hC.1 hs hkept⟩
    rw [hmore]
    exact hc.recorded.mono (List.subset_append_left _ _)
  · -- the call has seen what it stores, and the condition is about the rest
    have hstays : s'.MayStay key e :=
      (hC.2 key e hfill).step h.pipeline.acked_le h.last hC.1 hs (fun heq => absurd heq (by simp))
    unfold filling? at hfill
    split at hfill <;> try contradiction
    next call since out hpc =>
      obtain ⟨rfl, rfl⟩ := Prod.mk.inj (Option.some.inj hfill)
      obtain ⟨-, ⟨hrecorded, hseen⟩, hput⟩ := h.calls i _ hpc
      refine ⟨?_, hput, fun n hn => hseen n.seq (Or.inl ⟨n, hn, rfl⟩), hstays⟩
      rw [hmore]
      exact hrecorded.mono (List.subset_append_left _ _)

/-- A call moves on to where it is right. -/
theorem right_setCall {ws : List (LiveWrite ι)} {acked : Nat} {places : Bytes → Relay Entry} {i : ι} {c : LiveCall}
    (h : ∀ j d, s.calls j = some d → d.Right e₀ ws acked (places d.call.key))
    (hc : c.Right e₀ ws acked (places c.call.key)) :
    ∀ j d, (s.setCall i c).calls j = some d → d.Right e₀ ws acked (places d.call.key) := by
  intro j d hd
  rw [calls_setCall] at hd
  split_ifs at hd
  · exact Option.some.inj hd ▸ hc
  · exact h j d hd

/-- The calls after a step. -/
theorem Inv.calls_step (h : Inv e₀ virt s) (hplaced : Placed e₀ virt' s') {op : LiveOp ι} (hC : s.Sound op)
    (hs : s.step op = some s')
    (hcalls : ∀ i c, s.calls i = some c → c.Right e₀ s'.writes s'.acked (s'.places virt' c.call.key)) :
    ∀ i c, s'.calls i = some c → c.Right e₀ s'.writes s'.acked (s'.places virt' c.call.key) := by
  have hpipeline := h.pipeline.step hC.1 hs
  have hle : ∀ {since : Nat}, since ≤ s'.acked → since ≤ s'.writes.length := fun hsince =>
    hsince.trans hpipeline.acked_le
  cases Effect.of_step hs with
  | @call i call _ => exact right_setCall hcalls ⟨Nat.le_refl _, LivePc.right_begin call⟩
  | @uncached i call since hpc _ | @miss i call since _ hpc _ _ =>
      exact right_setCall hcalls ⟨(hcalls i _ hpc).since_le, trivial⟩
  | @hit i call since cache cached hpc hcache hfind =>
      have hsince := (hcalls i _ hpc).since_le
      have hcached := h.cached cache hcache call.key cached hfind
      refine right_setCall hcalls ⟨hsince, LivePc.right_searched ?_ (answer_put hcached.put)⟩
      exact (hcached.seen hsince).looked hplaced.counted (hle hsince)
  | @readActive i call since hpc =>
      exact right_setCall hcalls ⟨(hcalls i _ hpc).since_le, hplaced.readActive since call.key⟩
  | @readImmutable i call since candidate hpc =>
      obtain ⟨hsince, hahead⟩ := hcalls i _ hpc
      refine right_setCall hcalls ⟨hsince, hplaced.readImmutable hahead fun hnone => hC.2 call.key ?_⟩
      unfold passing?
      rw [hpc, hnone]
  | @takeVersion i call since candidate hpc =>
      obtain ⟨hsince, hahead⟩ := hcalls i _ hpc
      refine right_setCall hcalls ⟨hsince, ?_⟩
      show Outcome e₀ _ since call.key ((resumableSearch s.engine.version call.key candidate).eval call.key)
      rw [eval_resumableSearch]
      exact hplaced.readVersion hahead
  | @found i call since found out hpc hout =>
      obtain ⟨hsince, houtcome⟩ := hcalls i _ hpc
      obtain ⟨rfl, hput⟩ := answer_eq_some.mp hout
      exact right_setCall hcalls ⟨hsince, houtcome, hput⟩
  | @searched i call since found hpc =>
      obtain ⟨hsince, houtcome⟩ := hcalls i _ hpc
      refine right_setCall hcalls ⟨hsince, LivePc.right_searched ?_ (answer_answer _)⟩
      rw [answer_answer]
      exact Outcome.looked houtcome hplaced.counted (hle hsince)
  | @threw i call since t next hpc hreads hfile => exact absurd hfile (hC.1 _ _ _ _ hpc hreads)
  | @looked i call since t next opened hpc =>
      obtain ⟨hsince, houtcome⟩ := hcalls i _ hpc
      exact right_setCall hcalls ⟨hsince, houtcome⟩
  | @fill i call since out hpc =>
      obtain ⟨hsince, hseen, hput⟩ := hcalls i _ hpc
      refine right_setCall hcalls ⟨hsince, LivePc.right_searched ?_ (answer_put hput)⟩
      exact hseen.looked hplaced.counted (hle hsince)
  | @push i call since existed request hpc _ =>
      obtain ⟨hsince, hright⟩ := hcalls i _ hpc
      exact right_setCall hcalls ⟨hsince, hright⟩
  | popBatch _ _ | update _ | invalidate _ | endBatch _ | rotate _ _ | checkFlush _ | rotateClear _ | rotatePublish _
  | background _ _ => exact hcalls
  | throwsApplying _ => exact hC.1.elim
  | throwsChecking _ => exact hC.1.elim
  | @complete i success results dropped hpc =>
      have hoccupied := h.pipeline.occupied
      rw [hpc] at hoccupied
      obtain ⟨rfl, rfl⟩ : success = true ∧ dropped = [] := hoccupied
      intro j c hc
      have hc : (s.fulfil i true).calls j = some c := hc
      rw [calls_fulfil] at hc
      split_ifs at hc
      · obtain ⟨c', hc', rfl⟩ := Option.map_eq_some_iff.mp hc
        have hcall : (c'.finish true).call = c'.call := by
          unfold LiveCall.finish
          cases c'.pc <;> rfl
        rw [hcall]
        exact (hcalls i c' hc').finish
      · exact hcalls j c hc
  | @completed success dropped hpc =>
      have hoccupied := h.pipeline.occupied
      rw [hpc] at hoccupied
      obtain ⟨rfl, rfl⟩ : success = true ∧ dropped = [] := hoccupied
      intro j c hc
      exact hcalls j c (by simpa [breakPromises] using hc)

/-- **One step.** -/
theorem Inv.step (h : Inv e₀ virt s) {op : LiveOp ι} (hC : s.Sound op) (hs : s.step op = some s') :
    ∃ virt', Inv e₀ virt' s' := by
  obtain ⟨virt', hplaced, hfollows⟩ := h.placed.step hC hs
  obtain ⟨⟨more, hmore⟩, hacked⟩ := writes_step hs
  refine ⟨virt', hplaced, h.pipeline.step hC.1 hs, h.last.step hs, fun cache' hcache' key e hfind =>
    h.cached_step hC hs hcache' hfind, h.calls_step hplaced hC hs fun i c hc => ?_⟩
  obtain ⟨hsince, hright⟩ := h.calls i c hc
  refine ⟨hsince.trans hacked, ?_⟩
  rw [hmore]
  exact hright.move (hsince.trans h.pipeline.acked_le) (h.placed.sorted _) (hfollows _) more

end LiveEngine

/-! ## E. Whole runs

Of the store at the beginning it is asked that its constructor has returned: nothing is on its way, and the newest
record of a key is the one that is read. -/

/-- A record of the key that is numbered already: what the engine reads of the key, or something older. -/
def StorageEngine.Behind (s : StorageEngine) (key : Bytes) (e : Entry) : Prop :=
  e.seq < s.seqNumber ∧ ∃ n, s.lookup key = some n ∧ (e.seq < n.seq ∨ e = n)

/-- A store to begin with. -/
structure Store.Started (s : Store) : Prop where
  immutable : s.engine.immutableMemtable = none
  flusher : s.flusher = .idle
  compactor : s.compactor = .idle
  uncached : ∀ cache, s.engine.cache = some cache → ∀ key, cache.cache.find? key = none
  memtable : s.engine.memtable.Only s.engine.Behind
  version : ∀ t ∈ s.engine.version.sstables, t.Only s.engine.Behind
  newest : ∀ key e, s.engine.memtable.get key = some e → s.engine.lookup key = some e

/-- A record from the beginning is one that may be there. -/
theorem StorageEngine.Behind.recorded {ι : Type} {s : StorageEngine} {key : Bytes} {e : Entry} (h : s.Behind key e)
    (ws : List (LiveWrite ι)) : Recorded s ws key e where
  old _ := h.2
  new hle := absurd h.1 (by omega)

/-- A new store, -/
theorem Store.started_fresh (dataDir : Bytes) (cacheSize : Nat) (insideData : Bool) :
    (Store.fresh dataDir cacheSize insideData).Started where
  immutable := rfl
  flusher := rfl
  compactor := rfl
  uncached cache hcache key := by
    unfold Store.fresh StorageEngine.init at hcache
    dsimp only at hcache
    split_ifs at hcache
    exact Option.some.inj hcache ▸ rfl
  memtable := MemTable.only_empty
  version t ht := absurd ht List.not_mem_nil
  newest key e he := absurd ((MemTable.get_empty key).symm.trans he) (by simp)

/-- and one with the records of an earlier life. -/
theorem Store.started_of_inv {s : Store} (h : StorageEngine.Inv s.engine) (hdir : ExactIds s.engine.dataDir)
    (himm : s.engine.immutableMemtable = none) (hflusher : s.flusher = .idle) (hcompactor : s.compactor = .idle)
    (huncached : ∀ cache, s.engine.cache = some cache → ∀ key, cache.cache.find? key = none) : s.Started := by
  have hbehind : ∀ key e, s.engine.HasRecord key e → s.engine.Behind key e := by
    intro key e he
    refine ⟨h.fresh key e he, ?_⟩
    cases hlookup : s.engine.lookup key with
    | none => exact absurd he ((h.toOrdered.lookup_eq_none hdir).mp hlookup e)
    | some n =>
        obtain ⟨i, hi⟩ := he
        obtain ⟨⟨j, hj⟩, hmax⟩ := (h.toOrdered.lookup_eq_some hdir).mp hlookup
        refine ⟨n, rfl, (Nat.lt_or_eq_of_le (hmax i e hi)).imp_right fun heq => ?_⟩
        exact h.aged.eq_of_seq_eq hi hj heq
  refine ⟨himm, hflusher, hcompactor, huncached, fun key e he => ?_, fun t ht key e he => ?_, fun key e he => ?_⟩
  · exact hbehind key e ⟨0, he⟩
  · obtain ⟨m, hm, hpath⟩ := h.wf.exists_id ht
    obtain ⟨l, hl⟩ := TableVersion.mem_metas.mp hm
    refine hbehind key e ⟨l + 2, m, hl, t, ?_, he⟩
    exact (h.wf.findSSTableById_eq_some hdir).mpr ⟨ht, hpath⟩
  · refine (h.toOrdered.lookup_eq_some hdir).mpr ⟨⟨0, he⟩, fun i e' hi => ?_⟩
    rcases Nat.eq_zero_or_pos i with rfl | hpos
    · have he : s.engine.memtable.get key = some e := he
      obtain rfl := Option.some.inj (he.symm.trans hi)
      exact Nat.le_refl _
    · exact (h.aged.newer 0 i key e e' hpos he hi).le

namespace LiveEngine

variable {ι : Type} [DecidableEq ι] {store : Store} {s : LiveEngine ι} {ops : List (LiveOp ι)}

/-- What a lookup finds at the beginning: first in the memtable, then in the version. -/
theorem lookup_started (h : store.Started) (key : Bytes) : store.engine.lookup key =
    (store.engine.memtable.get key).or (store.engine.version.record key) := by
  cases hget : store.engine.memtable.get key with
  | some e => exact h.newest key e hget
  | none =>
      unfold StorageEngine.lookup TableVersion.record
      rw [hget, h.immutable]
      rfl

omit [DecidableEq ι] in
/-- At the beginning the records are in their places. -/
theorem placed_start (h : store.Started) : Placed store.engine store.engine.version.record (start ι store) := by
  have hversion : ∀ key e, store.engine.version.record key = some e → store.engine.Behind key e := by
    intro key e he
    obtain hnone | ⟨t, ht, hfind⟩ := searchLevels_eq_some he
    · exact absurd hnone (by simp)
    · exact h.version t ht key e hfind
  have hheld : ∀ key, ((start ι store).places store.engine.version.record key).held =
      (store.engine.memtable.get key).toList ++ (store.engine.version.record key).toList := by
    intro key
    have himm : (start ι store).engine.immutableMemtable = none := h.immutable
    unfold Relay.held places hidden
    rw [himm]
    show [store.engine.memtable.get key, none, none, store.engine.version.record key].reduceOption = _
    cases store.engine.memtable.get key <;> cases store.engine.version.record key <;> rfl
  have hrecords : (start ι store).store.Only (Recorded store.engine ([] : List (LiveWrite ι))) := by
    refine ⟨h.memtable.mono fun _ _ he => he.recorded _, fun imm himm => ?_,
      fun t ht => (h.version t ht).mono fun _ _ he => he.recorded _, ?_, ?_⟩
    · exact absurd (h.immutable.symm.trans himm) (by simp)
    · show store.flusher.All _ _
      rw [h.flusher]
      trivial
    · show store.compactor.All _ _ _
      rw [h.compactor]
      trivial
  refine ⟨rfl, fun i w hw => ?_, hrecords, fun key e he => (hversion key e he).recorded _, fun key => Or.inl rfl,
    fun key => ?_, fun key q hq => ?_, fun imm himm => ?_, fun imm himm => ?_, fun hdone => ?_, fun _ => h.flusher⟩
  · exact absurd hw (by simp [start])
  · unfold Relay.Sorted
    rw [hheld]
    cases hget : store.engine.memtable.get key with
    | none => cases store.engine.version.record key <;> simp
    | some e =>
        cases hrecord : store.engine.version.record key with
        | none => simp
        | some r =>
            obtain ⟨-, n, hn, hle⟩ := hversion key r hrecord
            obtain rfl := Option.some.inj ((h.newest key e hget).symm.trans hn)
            have hle : r.seq ≤ e.seq := hle.elim Nat.le_of_lt fun heq => heq ▸ Nat.le_refl _
            simpa using hle
  · rcases hq with ⟨n, hn, rfl⟩ | ⟨w, hw, -⟩
    · rw [lookup_started h key] at hn
      refine ⟨n, ?_, Nat.le_refl _⟩
      rw [hheld]
      cases hget : store.engine.memtable.get key with
      | none =>
          rw [hget, Option.none_or] at hn
          rw [hn]
          rfl
      | some e =>
          rw [hget, Option.some_or] at hn
          rw [hn]
          rfl
    · exact absurd hw (by simp [start])
  · exact absurd himm (by simp [start, LiveWriterPc.copy?])
  · exact absurd himm (by simp [start, LiveWriterPc.hidden?])
  · rw [show (start ι store).store.flusher = .idle from h.flusher] at hdone
    exact absurd hdone (by simp [FlushRound.isDone])

omit [DecidableEq ι] in
/-- The invariant holds at the beginning, -/
theorem inv_start (h : store.Started) : Inv store.engine store.engine.version.record (start ι store) where
  placed := placed_start h
  pipeline := pipeline_start store
  last _ hcall := absurd hcall (by simp [start, LiveWriterPc.updated?])
  cached cache hcache key e hfind := absurd (h.uncached cache hcache key) (by simp [hfind])
  calls i c hc := absurd hc (by simp [start])

/-- and in every run whose steps are sound. -/
theorem inv_of_exec (hstore : store.Started) (h : exec step (start ι store) ops = some s)
    (hC : Meets step Sound (start ι store) ops) : ∃ virt, Inv store.engine virt s :=
  exec_invariant_of_meets (I := fun s => ∃ virt, Inv store.engine virt s) ⟨_, inv_start hstore⟩
    (fun _ _ _ ⟨_, hi⟩ hsound hs => hi.step hsound hs) hC h

/-- **Calls are right.** In a run whose steps are sound, what a call has come back with is right, for as many of the
    writes as had been acknowledged when it began, or some more. -/
theorem right_of_sound (hstore : store.Started) (h : exec step (start ι store) ops = some s)
    (hC : Meets step Sound (start ι store) ops) {i : ι} {c : LiveCall} {result : CallResult} (hc : s.calls i = some c)
    (hpc : c.pc = .returned result) :
    c.since ≤ s.acked ∧ CallResult.Right store.engine s.writes c.since c.call result := by
  obtain ⟨virt, hinv⟩ := inv_of_exec hstore h hC
  obtain ⟨hsince, hright⟩ := hinv.calls i c hc
  rw [hpc] at hright
  exact ⟨hsince, hright⟩

omit [DecidableEq ι] in
/-- Where no rotation is under way the engine holds what all of its writes leave. -/
theorem Inv.contents {e₀ : StorageEngine} {virt : Bytes → Option Entry} (h : Inv e₀ virt s)
    (hhidden : s.writer.hidden? = none) : s.engine.contents = valueAfter e₀ s.writes s.writes.length := by
  funext key
  have hlooked : Looked e₀ s.writes s.writes.length key (· = (answer (s.engine.lookup key)).map (·.value)) := by
    refine (h.placed.lookup ?_ s.writes.length).looked h.placed.counted (Nat.le_refl _)
    unfold hidden
    rw [hhidden]
    rfl
  obtain ⟨m, hge, hle, hvalue⟩ := hlooked
  obtain rfl := Nat.le_antisymm hle hge
  exact hvalue.symm

/-- **Nothing is lost.** In a run whose steps are sound the engine holds what all of its writes leave, when no rotation
    is under way. -/
theorem contents_of_sound (hstore : store.Started) (h : exec step (start ι store) ops = some s)
    (hC : Meets step Sound (start ι store) ops) (hhidden : s.writer.hidden? = none) :
    s.engine.contents = valueAfter store.engine s.writes s.writes.length := by
  obtain ⟨virt, hinv⟩ := inv_of_exec hstore h hC
  exact hinv.contents hhidden

/-- A step that is sound whatever the records are: it throws nothing, no record is hidden, and nothing is cached,
    flushed or compacted. -/
def Plain (s : LiveEngine ι) : LiveOp ι → Bool
  | .throws _ | .fill _ | .background _ => false
  | .look i =>
    match s.calls i with
    | some ⟨_, _, .searching (.searching (.look _ _))⟩ => false
    | _ => true
  | .readImmutable _ => s.writer.hidden?.isNone
  | _ => true

omit [DecidableEq ι] in
/-- A plain step is sound. -/
theorem sound_of_plain {op : LiveOp ι} (h : s.Plain op = true) : s.Sound op := by
  cases op with
  | throws _ | fill _ | background _ => exact absurd h (by simp [Plain])
  | look i =>
      refine ⟨fun call since t next hpc => ?_, trivial⟩
      simp [Plain, hpc] at h
  | readImmutable i =>
      refine ⟨trivial, fun key _ => ?_⟩
      unfold hidden
      rw [Option.isNone_iff_eq_none.mp h]
      rfl
  | _ => exact ⟨trivial, trivial⟩

end LiveEngine

end KvStorageEngine
