import KvStorageEngine.Engine.Store

/-!
# `Engine.LiveEngine` — calls of a running engine

`get`, `put` and `del` (`engine/src/engine.cpp`) as their callers run them, next to the writer thread, the flush thread
and the compaction thread of `Engine.Store`. No lock is held from one of these steps to the next: a `get` looks into the
cache, then into the active and the immutable memtable, takes the version and searches it table by table, and stores
what it has found in the cache; a `del` is a `get` and then a request; a request waits in the write queue until the writer
thread has taken its batch, updated the memtable and dropped the key from the cache, seen to the rotation, and completed
the batch.

An engine as a server runs it: nobody calls `flush()` or `clearData()`, so that it is the writer thread that rotates the
memtable, between two batches. The bound of the queue is left out (a `push` that waits is one that comes later), and so
are the notifications (a thread that is told late goes on late).
-/

namespace KvStorageEngine

variable [Platform]

/-! ## Calls -/

inductive EngineCall where
  | get (key : Bytes)
  | put (key value : Bytes)
  | del (key : Bytes)
  deriving DecidableEq, Repr

namespace EngineCall

def key : EngineCall → Bytes
  | .get key | .put key _ | .del key => key

/-- What the call puts into the write queue. -/
def request? : EngineCall → Option WriteRequest
  | .get _ => none
  | .put key value => some (.put key value)
  | .del key => some (.delete key)

end EngineCall

/-- What a call comes back with: a `get` with what it has found, a `put` or `del` with its answer, or an exception. -/
inductive CallResult where
  | found (out : Option Entry)
  | done (success : Bool)
  | threw
  deriving DecidableEq, Repr

/-- Where the `get` of a call is. -/
inductive SearchPc where
  | called
  | missed
  | readActive (candidate : Option Entry)
  | readImmutable (candidate : Option Entry)
  | searching (rest : Search (Option Entry))
  | found (out : Entry)

/-- Where a call is; from `pushing` on it knows what its `get` has found. -/
inductive LivePc where
  | searching (pc : SearchPc)
  | pushing (existed : Bool)
  | waiting (existed : Bool)
  | returned (result : CallResult)

/-- A call. `since` is history: how many writes had been acknowledged when it began. -/
structure LiveCall where
  call : EngineCall
  since : Nat
  pc : LivePc

/-- Where a call begins: a `put` has nothing to look up. -/
def LivePc.begin : EngineCall → LivePc
  | .put _ _ => .pushing true
  | .get _ | .del _ => .searching .called

/-- Where it goes when its search is over: a `get` returns, a `del` goes on to its request. -/
def LivePc.searched (call : EngineCall) (out : Option Entry) : LivePc :=
  match call with
  | .get _ => .returned (.found out)
  | .put _ _ | .del _ => .pushing out.isSome

/-- What a call returns whose promise says `success`; a `del` does not look at that. -/
def LiveCall.finish (c : LiveCall) (success : Bool) : LiveCall :=
  match c.pc with
  | .waiting existed => { c with pc := .returned (.done (match c.call with
      | .del _ => existed
      | .get _ | .put _ _ => success)) }
  | .searching _ | .pushing _ | .returned _ => c

/-- A request that has reached the memtable, with its sequence number. -/
structure LiveWrite (ι : Type) where
  caller : ι
  request : WriteRequest
  seq : Nat
  deriving DecidableEq

/-- Where the writer thread is. `results` are the callers of the batch whose requests are through, `dropped` those whose
    requests an exception has cut off. -/
inductive LiveWriterPc (ι : Type) where
  | idle
  | applying (batch : List (ι × WriteRequest)) (results : List ι)
  | updated (call : ι × WriteRequest) (batch : List (ι × WriteRequest)) (results : List ι)
  | checking (results : List ι)
  | copied (newImmutable : MemTable) (results : List ι)
  | cleared (newImmutable : MemTable) (results : List ι)
  | completing (success : Bool) (results dropped : List ι)

/-! ## The engine -/

/-- The store, the write queue, the writer thread and the calls `ι`. -/
structure LiveEngine (ι : Type) where
  store : Store
  /-- The tables whose files are open. -/
  opened : List Bytes
  queue : List (ι × WriteRequest)
  writer : LiveWriterPc ι
  calls : ι → Option LiveCall
  /-- History: the updates of the memtable, in order. -/
  writes : List (LiveWrite ι)
  /-- History: for so many of them the promise has been fulfilled. -/
  acked : Nat

/-- A step of a call, of the writer thread, or of the store's other threads. -/
inductive LiveOp (ι : Type) where
  | call (i : ι) (call : EngineCall)
  | cacheLookup (i : ι)
  | readActive (i : ι)
  | readImmutable (i : ι)
  | takeVersion (i : ι)
  | look (i : ι)
  | fill (i : ι)
  | push (i : ι)
  | popBatch
  | update
  | invalidate
  | throws (changed : Bool)
  | endBatch
  | checkFlush
  | rotateClear
  | rotatePublish
  | complete
  | background (op : StoreOp)
  deriving DecidableEq

def LiveOp.isCall {ι : Type} : LiveOp ι → Bool
  | .call _ _ => true
  | _ => false

/-- The steps of the store that are those of its threads: the flush thread, the compaction thread, and the end of a
    rotation. -/
def StoreOp.ofThread : StoreOp → Bool
  | .unlink | .flushWrite | .flushCopy | .flushInstall | .flushSave | .flushReset | .compactL0toL1 | .compactlevelN _
  | .compactWrite | .compactCopy | .compactInstall | .compactSave | .compactRemove => true
  | .write _ | .get _ | .fill _ | .rotate | .clearRemove | .clearMemtable | .clearCounters | .clearVersion | .clearCache
  | .restart _ => false

namespace LiveEngine

variable {ι : Type} [DecidableEq ι]

/-- Nobody has called. -/
def start (ι : Type) (store : Store) : LiveEngine ι := ⟨store, [], [], .idle, fun _ => none, [], 0⟩

def engine (s : LiveEngine ι) : StorageEngine := s.store.engine

def setEngine (s : LiveEngine ι) (engine : StorageEngine) : LiveEngine ι :=
  { s with store := { s.store with engine } }

def setCall (s : LiveEngine ι) (i : ι) (c : LiveCall) : LiveEngine ι :=
  { s with calls := Function.update s.calls i (some c) }

/-- The search of a call moves on. -/
def search (s : LiveEngine ι) (i : ι) (call : EngineCall) (since : Nat) (pc : SearchPc) : LiveEngine ι :=
  s.setCall i ⟨call, since, .searching pc⟩

/-- The search of a call is over. -/
def searched (s : LiveEngine ι) (i : ι) (call : EngineCall) (since : Nat) (out : Option Entry) : LiveEngine ι :=
  s.setCall i ⟨call, since, LivePc.searched call out⟩

/-- The promise of a call is fulfilled, or broken. -/
def fulfil (s : LiveEngine ι) (i : ι) (success : Bool) : LiveEngine ι :=
  { s with calls := Function.update s.calls i ((s.calls i).map (·.finish success)) }

def breakPromises (s : LiveEngine ι) (dropped : List ι) : LiveEngine ι :=
  { s with calls := fun i => if i ∈ dropped then (s.calls i).map ({ · with pc := .returned .threw }) else s.calls i }

/-- `SSTable::getFile`: the handle at hand, or a new one where the file is there. The result are the tables with a
    handle; `none` is the exception. -/
def getFile (s : LiveEngine ι) (t : SSTable) : Option (List Bytes) :=
  if s.opened.contains t.path then some s.opened
  else if (s.store.dir.file? t.path).isSome then some (t.path :: s.opened)
  else none

/-- The writer thread's update of the memtable, and of the log. -/
def update (s : LiveEngine ι) (call : ι × WriteRequest) : LiveEngine ι :=
  { s with
    store := { s.store with
      engine := s.engine.updateMemtable call.2
      dir := { s.store.dir with
        log := if s.store.linked then s.store.dir.log ++ [⟨call.2, s.engine.seqNumber⟩] else s.store.dir.log }
      cleared := false }
    writes := s.writes ++ [⟨call.1, call.2, s.engine.seqNumber⟩] }

/-- One step, `none` where the thread is not at that point or would wait. -/
def step (s : LiveEngine ι) : LiveOp ι → Option (LiveEngine ι)
  | .call i call =>
    match s.calls i with
    | none | some ⟨_, _, .returned _⟩ => some (s.setCall i ⟨call, s.acked, LivePc.begin call⟩)
    | _ => none
  | .cacheLookup i =>
    match s.calls i with
    | some ⟨call, since, .searching .called⟩ =>
      match s.engine.cache with
      | none => some (s.search i call since .missed)
      | some cache =>
        let s := s.setEngine { s.engine with cache := some (cache.get call.key).2 }
        match (cache.get call.key).1 with
        | some cached => some (s.searched i call since (some cached))
        | none => some (s.search i call since .missed)
    | _ => none
  | .readActive i =>
    match s.calls i with
    | some ⟨call, since, .searching .missed⟩ =>
      some (s.search i call since (.readActive (s.engine.memtable.get call.key)))
    | _ => none
  | .readImmutable i =>
    match s.calls i with
    | some ⟨call, since, .searching (.readActive candidate)⟩ => some (s.search i call since
        (.readImmutable (considerRecord candidate (s.engine.immutableMemtable.bind (·.get call.key)))))
    | _ => none
  | .takeVersion i =>
    match s.calls i with
    | some ⟨call, since, .searching (.readImmutable candidate)⟩ =>
      some (s.search i call since (.searching (resumableSearch s.engine.version call.key candidate)))
    | _ => none
  | .look i =>
    match s.calls i with
    | some ⟨call, since, .searching (.searching (.pure found))⟩ =>
      match answer found, s.engine.cache with
      | some out, some _ => some (s.search i call since (.found out))
      -- only a put is cached
      | out, _ => some (s.searched i call since out)
    | some ⟨call, since, .searching (.searching (.look t next))⟩ =>
      -- out of range, or ruled out by the filter: the file is not touched
      if t.readsFile call.key then
        match s.getFile t with
        | none => some (s.setCall i ⟨call, since, .returned .threw⟩)
        | some opened =>
          some ({ s with opened }.search i call since (.searching (next (t.records.find? call.key))))
      else some (s.search i call since (.searching (next none)))
    | _ => none
  | .fill i =>
    match s.calls i with
    | some ⟨call, since, .searching (.found out)⟩ =>
      some ((s.setEngine { s.engine with cache := s.engine.cache.map (LRUCache.put · call.key out) }).searched i call
        since (some out))
    | _ => none
  | .push i =>
    match s.calls i with
    | some ⟨call, since, .pushing existed⟩ => call.request?.map fun request =>
        { s with queue := s.queue ++ [(i, request)] }.setCall i ⟨call, since, .waiting existed⟩
    | _ => none
  | .popBatch =>
    match s.writer with
    | .idle =>
      if s.queue = [] then none
      else some { s with queue := s.queue.drop maxBatchSize, writer := .applying (s.queue.take maxBatchSize) [] }
    | _ => none
  | .update =>
    match s.writer with
    | .applying (call :: batch) results => some { s.update call with writer := .updated call batch results }
    | _ => none
  | .invalidate =>
    match s.writer with
    | .updated call batch results => some { s.setEngine (s.engine.invalidate call.2.key) with
        writer := .applying batch (results ++ [call.1]) }
    | _ => none
  | .throws changed =>
    match s.writer with
    | .applying (call :: batch) results =>
      -- before or after the memtable has taken the record
      let memtable := if changed then s.engine.memtable.apply call.2 s.engine.seqNumber else s.engine.memtable
      some { s.setEngine { s.engine with memtable } with
        writer := .completing false results ((call :: batch).map Prod.fst) }
    | .checking results => some { s with writer := .completing false results [] }
    | _ => none
  | .endBatch =>
    match s.writer with
    | .applying [] results => some { s with writer := .checking results }
    | _ => none
  | .checkFlush =>
    match s.writer with
    | .checking results =>
      if StorageEngine.memTableThreshold ≤ s.engine.memtable.getSize then
        match s.engine.immutableMemtable with
        -- waits on `flush_cv_` while there is an immutable memtable
        | some _ => none
        | none => some { s with writer := .copied (MemTable.copyOf s.engine.memtable.snapshot) results }
      else some { s with writer := .completing true results [] }
    | _ => none
  | .rotateClear =>
    match s.writer with
    | .copied imm results => some { s.setEngine { s.engine with memtable := s.engine.memtable.clear } with
        writer := .cleared imm results }
    | _ => none
  | .rotatePublish =>
    match s.writer with
    | .cleared imm results => some { s with
        store := { s.store with
          engine := { s.engine with immutableMemtable := some imm }
          unlinks := s.store.unlinks + 1 }
        writer := .completing true results [] }
    | _ => none
  | .complete =>
    match s.writer with
    | .completing success (i :: results) dropped => some { s.fulfil i success with
        writer := .completing success results dropped
        acked := if success then s.acked + 1 else s.acked }
    | .completing _ [] dropped => some { s.breakPromises dropped with writer := .idle }
    | _ => none
  | .background op => if op.ofThread then (s.store.step op).map fun store => { s with store } else none

/-! ## What a step does -/

/-- The effects of the steps, one constructor for each thing that can happen. -/
inductive Effect (s : LiveEngine ι) : LiveOp ι → LiveEngine ι → Prop where
  | call {i : ι} {call : EngineCall} (hfree : ∀ c, s.calls i = some c → ∃ result, c.pc = .returned result) :
      Effect s (.call i call) (s.setCall i ⟨call, s.acked, LivePc.begin call⟩)
  | uncached {i : ι} {call : EngineCall} {since : Nat} (hpc : s.calls i = some ⟨call, since, .searching .called⟩)
      (hcache : s.engine.cache = none) : Effect s (.cacheLookup i) (s.search i call since .missed)
  | hit {i : ι} {call : EngineCall} {since : Nat} {cache : LRUCache} {cached : Entry}
      (hpc : s.calls i = some ⟨call, since, .searching .called⟩) (hcache : s.engine.cache = some cache)
      (hfind : cache.cache.find? call.key = some cached) : Effect s (.cacheLookup i)
        ((s.setEngine { s.engine with cache := some (cache.get call.key).2 }).searched i call since (some cached))
  | miss {i : ι} {call : EngineCall} {since : Nat} {cache : LRUCache}
      (hpc : s.calls i = some ⟨call, since, .searching .called⟩) (hcache : s.engine.cache = some cache)
      (hfind : cache.cache.find? call.key = none) : Effect s (.cacheLookup i)
        ((s.setEngine { s.engine with cache := some (cache.get call.key).2 }).search i call since .missed)
  | readActive {i : ι} {call : EngineCall} {since : Nat} (hpc : s.calls i = some ⟨call, since, .searching .missed⟩) :
      Effect s (.readActive i) (s.search i call since (.readActive (s.engine.memtable.get call.key)))
  | readImmutable {i : ι} {call : EngineCall} {since : Nat} {candidate : Option Entry}
      (hpc : s.calls i = some ⟨call, since, .searching (.readActive candidate)⟩) : Effect s (.readImmutable i)
        (s.search i call since
          (.readImmutable (considerRecord candidate (s.engine.immutableMemtable.bind (·.get call.key)))))
  | takeVersion {i : ι} {call : EngineCall} {since : Nat} {candidate : Option Entry}
      (hpc : s.calls i = some ⟨call, since, .searching (.readImmutable candidate)⟩) : Effect s (.takeVersion i)
        (s.search i call since (.searching (resumableSearch s.engine.version call.key candidate)))
  | found {i : ι} {call : EngineCall} {since : Nat} {found : Option Entry} {out : Entry}
      (hpc : s.calls i = some ⟨call, since, .searching (.searching (.pure found))⟩) (hout : answer found = some out) :
      Effect s (.look i) (s.search i call since (.found out))
  | searched {i : ι} {call : EngineCall} {since : Nat} {found : Option Entry}
      (hpc : s.calls i = some ⟨call, since, .searching (.searching (.pure found))⟩) :
      Effect s (.look i) (s.searched i call since (answer found))
  | threw {i : ι} {call : EngineCall} {since : Nat} {t : SSTable} {next : Option Entry → Search (Option Entry)}
      (hpc : s.calls i = some ⟨call, since, .searching (.searching (.look t next))⟩)
      (hreads : t.readsFile call.key = true) (hfile : s.getFile t = none) :
      Effect s (.look i) (s.setCall i ⟨call, since, .returned .threw⟩)
  | looked {i : ι} {call : EngineCall} {since : Nat} {t : SSTable} {next : Option Entry → Search (Option Entry)}
      {opened : List Bytes} (hpc : s.calls i = some ⟨call, since, .searching (.searching (.look t next))⟩) :
      Effect s (.look i) ({ s with opened }.search i call since (.searching (next (t.get call.key))))
  | fill {i : ι} {call : EngineCall} {since : Nat} {out : Entry}
      (hpc : s.calls i = some ⟨call, since, .searching (.found out)⟩) : Effect s (.fill i)
        ((s.setEngine { s.engine with cache := s.engine.cache.map (LRUCache.put · call.key out) }).searched i call
          since (some out))
  | push {i : ι} {call : EngineCall} {since : Nat} {existed : Bool} {request : WriteRequest}
      (hpc : s.calls i = some ⟨call, since, .pushing existed⟩) (hrequest : call.request? = some request) :
      Effect s (.push i) ({ s with queue := s.queue ++ [(i, request)] }.setCall i ⟨call, since, .waiting existed⟩)
  | popBatch (hpc : s.writer = .idle) (hqueue : s.queue ≠ []) : Effect s .popBatch
      { s with queue := s.queue.drop maxBatchSize, writer := .applying (s.queue.take maxBatchSize) [] }
  | update {call : ι × WriteRequest} {batch : List (ι × WriteRequest)} {results : List ι}
      (hpc : s.writer = .applying (call :: batch) results) :
      Effect s .update { s.update call with writer := .updated call batch results }
  | invalidate {call : ι × WriteRequest} {batch : List (ι × WriteRequest)} {results : List ι}
      (hpc : s.writer = .updated call batch results) : Effect s .invalidate
        { s.setEngine (s.engine.invalidate call.2.key) with writer := .applying batch (results ++ [call.1]) }
  | throwsApplying {changed : Bool} {call : ι × WriteRequest} {batch : List (ι × WriteRequest)} {results : List ι}
      {memtable : MemTable} (hpc : s.writer = .applying (call :: batch) results) : Effect s (.throws changed)
        { s.setEngine { s.engine with memtable } with
          writer := .completing false results ((call :: batch).map Prod.fst) }
  | throwsChecking {changed : Bool} {results : List ι} (hpc : s.writer = .checking results) :
      Effect s (.throws changed) { s with writer := .completing false results [] }
  | endBatch {results : List ι} (hpc : s.writer = .applying [] results) :
      Effect s .endBatch { s with writer := .checking results }
  | rotate {results : List ι} (hpc : s.writer = .checking results) (himm : s.engine.immutableMemtable = none) :
      Effect s .checkFlush { s with writer := .copied s.engine.memtable results }
  | checkFlush {results : List ι} (hpc : s.writer = .checking results) :
      Effect s .checkFlush { s with writer := .completing true results [] }
  | rotateClear {imm : MemTable} {results : List ι} (hpc : s.writer = .copied imm results) : Effect s .rotateClear
      { s.setEngine { s.engine with memtable := s.engine.memtable.clear } with writer := .cleared imm results }
  | rotatePublish {imm : MemTable} {results : List ι} (hpc : s.writer = .cleared imm results) :
      Effect s .rotatePublish { s with
        store := { s.store with
          engine := { s.engine with immutableMemtable := some imm }
          unlinks := s.store.unlinks + 1 }
        writer := .completing true results [] }
  | complete {i : ι} {success : Bool} {results dropped : List ι}
      (hpc : s.writer = .completing success (i :: results) dropped) : Effect s .complete
        { s.fulfil i success with
          writer := .completing success results dropped
          acked := if success then s.acked + 1 else s.acked }
  | completed {success : Bool} {dropped : List ι} (hpc : s.writer = .completing success [] dropped) :
      Effect s .complete { s.breakPromises dropped with writer := .idle }
  | background {op : StoreOp} {store : Store} (hop : op.ofThread = true) (hs : s.store.step op = some store) :
      Effect s (.background op) { s with store }

/-- Every step has one of these effects. -/
theorem Effect.of_step {s s' : LiveEngine ι} {op : LiveOp ι} (h : s.step op = some s') : Effect s op s' := by
  cases op with
  | call i call =>
      unfold step at h; dsimp only at h; split at h <;> try contradiction
      next hnone =>
        refine Option.some.inj h ▸ .call fun c hc => ?_
        exact absurd (hnone.symm.trans hc) (by simp)
      next before since result hpc =>
        refine Option.some.inj h ▸ .call fun c hc => ?_
        exact ⟨result, congrArg LiveCall.pc (Option.some.inj (hc.symm.trans hpc))⟩
  | cacheLookup i =>
      unfold step at h; dsimp only at h; split at h <;> try contradiction
      next call since hpc =>
        cases hcache : s.engine.cache with
        | none =>
            simp only [hcache] at h
            exact Option.some.inj h ▸ .uncached hpc hcache
        | some cache =>
            simp only [hcache, LRUCache.fst_get] at h
            cases hfind : cache.cache.find? call.key with
            | none =>
                simp only [hfind] at h
                exact Option.some.inj h ▸ .miss hpc hcache hfind
            | some cached =>
                simp only [hfind] at h
                exact Option.some.inj h ▸ .hit hpc hcache hfind
  | readActive i =>
      unfold step at h; dsimp only at h; split at h <;> try contradiction
      next call since hpc => exact Option.some.inj h ▸ .readActive hpc
  | readImmutable i =>
      unfold step at h; dsimp only at h; split at h <;> try contradiction
      next call since candidate hpc => exact Option.some.inj h ▸ .readImmutable hpc
  | takeVersion i =>
      unfold step at h; dsimp only at h; split at h <;> try contradiction
      next call since candidate hpc => exact Option.some.inj h ▸ .takeVersion hpc
  | look i =>
      unfold step at h; dsimp only at h; split at h <;> try contradiction
      next call since found hpc =>
        split at h
        next out cache hout hcache => exact Option.some.inj h ▸ .found hpc hout
        next out _ => exact Option.some.inj h ▸ .searched hpc
      next call since t next hpc =>
        by_cases hreads : t.readsFile call.key = true
        · have hget : t.get call.key = t.records.find? call.key := if_pos hreads
          rw [if_pos hreads] at h
          cases hfile : s.getFile t with
          | none =>
              simp only [hfile] at h
              exact Option.some.inj h ▸ .threw hpc hreads hfile
          | some opened =>
              simp only [hfile] at h
              rw [← hget] at h
              exact Option.some.inj h ▸ .looked hpc
        · have hget : t.get call.key = none := if_neg hreads
          have hlooked : Effect s (.look i) (s.search i call since (.searching (next (t.get call.key)))) :=
            @Effect.looked _ _ _ s i call since t next s.opened hpc
          rw [if_neg hreads, ← hget] at h
          exact Option.some.inj h ▸ hlooked
  | fill i =>
      unfold step at h; dsimp only at h; split at h <;> try contradiction
      next call since out hpc => exact Option.some.inj h ▸ .fill hpc
  | push i =>
      unfold step at h; dsimp only at h; split at h <;> try contradiction
      next call since existed hpc =>
        obtain ⟨request, hrequest, rfl⟩ := Option.map_eq_some_iff.mp h
        exact .push hpc hrequest
  | popBatch =>
      unfold step at h; dsimp only at h; split at h <;> try contradiction
      next hpc =>
        split_ifs at h with hqueue
        exact Option.some.inj h ▸ .popBatch hpc hqueue
  | update =>
      unfold step at h; dsimp only at h; split at h <;> try contradiction
      next call batch results hpc => exact Option.some.inj h ▸ .update hpc
  | invalidate =>
      unfold step at h; dsimp only at h; split at h <;> try contradiction
      next call batch results hpc => exact Option.some.inj h ▸ .invalidate hpc
  | throws changed =>
      unfold step at h; dsimp only at h; split at h <;> try contradiction
      next call batch results hpc => exact Option.some.inj h ▸ .throwsApplying hpc
      next results hpc => exact Option.some.inj h ▸ .throwsChecking hpc
  | endBatch =>
      unfold step at h; dsimp only at h; split at h <;> try contradiction
      next results hpc => exact Option.some.inj h ▸ .endBatch hpc
  | checkFlush =>
      unfold step at h; dsimp only at h; split at h <;> try contradiction
      next results hpc =>
        split_ifs at h with hfull
        · split at h <;> try contradiction
          next himm =>
            rw [MemTable.copyOf_snapshot] at h
            exact Option.some.inj h ▸ .rotate hpc himm
        · exact Option.some.inj h ▸ .checkFlush hpc
  | rotateClear =>
      unfold step at h; dsimp only at h; split at h <;> try contradiction
      next imm results hpc => exact Option.some.inj h ▸ .rotateClear hpc
  | rotatePublish =>
      unfold step at h; dsimp only at h; split at h <;> try contradiction
      next imm results hpc => exact Option.some.inj h ▸ .rotatePublish hpc
  | complete =>
      unfold step at h; dsimp only at h; split at h <;> try contradiction
      next success i results dropped hpc => exact Option.some.inj h ▸ .complete hpc
      next success dropped hpc => exact Option.some.inj h ▸ .completed hpc
  | background op =>
      simp only [step] at h
      split_ifs at h with hop
      obtain ⟨store, hs, rfl⟩ := Option.map_eq_some_iff.mp h
      exact .background hop hs

end LiveEngine

end KvStorageEngine
