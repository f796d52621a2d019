import KvStorageEngine.Engine.CachedReads

/-!
# `Engine.ConcurrentDeletes` — deletes that look before they are queued

`StorageEngine::del` (`engine/src/engine.cpp`) is a `get`, whose answer it keeps, and then a request in the write queue,
for which it waits. `get` is three steps where there is a cache. `writerThreadLoop` takes the requests in batches, and
for each of them updates the memtable and then drops the key from the cache; when the batch is through it completes the
requests, and the calls return. The flush and compaction threads run besides.

The writer thread does not look at what `MemTable::del` returns. The bound of the queue and its shutdown have no part
here, and neither has the log.
-/

namespace KvStorageEngine

variable [Platform]

namespace StorageEngine

/-- The store has a value for the key. -/
def live (s : StorageEngine) (key : Bytes) : Bool := (answer (s.lookup key)).isSome

end StorageEngine

/-- The steps of the flush and compaction threads, and the rotation of the writer thread. -/
def EngineOp.inBackground : EngineOp → Bool
  | .put _ _ | .del _ | .get _ => false
  | .checkFlush _ | .flushInstall | .compactL0toL1 | .compactlevelN _ => true

/-- Where a caller is. A `del` that has `looked` knows what it will return. -/
inductive CallPc where
  | idle
  | called (key : Bytes)
  | missed (key : Bytes)
  | found (key : Bytes) (out : Entry)
  | looked (key : Bytes) (existed : Bool)
  | waiting
  deriving DecidableEq

/-- A request with the caller that waits for it, and what the call returns then. -/
structure PendingCall (ι : Type) where
  caller : ι
  request : WriteRequest
  result : Bool
  deriving DecidableEq

/-- The engine, its write queue and writer thread, and the threads `ι` that call `put` and `del`. The flag beside a call
    of the batch, and of those that have returned, is history: whether the key was live when the memtable took the
    request. -/
structure ConcurrentDeletes (ι : Type) extends BatchInHand (PendingCall ι) (PendingCall ι × Bool) where
  engine : StorageEngine
  queue : List (PendingCall ι)
  callers : ι → CallPc
  /-- History: the calls that have returned, in order. -/
  returned : List (PendingCall ι × Bool)

/-- A step of a caller, of the writer thread or in the background. -/
inductive DeletesOp (ι : Type) where
  | put (i : ι) (key value : Bytes)
  | del (i : ι) (key : Bytes)
  | cacheLookup (i : ι)
  | lookup (i : ι)
  | cacheFill (i : ι)
  | push (i : ι)
  | popBatch
  | update
  | invalidate
  | complete
  | background (op : EngineOp)

namespace ConcurrentDeletes

variable {ι : Type} [DecidableEq ι]

/-- Nobody has called. -/
def start (ι : Type) (engine : StorageEngine) : ConcurrentDeletes ι := ⟨.idle, engine, [], fun _ => .idle, []⟩

def setPc (s : ConcurrentDeletes ι) (i : ι) (pc : CallPc) : ConcurrentDeletes ι :=
  { s with callers := Function.update s.callers i pc }

/-- `write_queue_.push`. -/
def enqueue (s : ConcurrentDeletes ι) (i : ι) (request : WriteRequest) (result : Bool) : ConcurrentDeletes ι :=
  { s with queue := s.queue ++ [PendingCall.mk i request result] }.setPc i .waiting

/-- One step, `none` where the thread is not at that point. -/
def step (s : ConcurrentDeletes ι) : DeletesOp ι → Option (ConcurrentDeletes ι)
  | .put i key value =>
    match s.callers i with
    | .idle => some (s.enqueue i (.put key value) true)
    | _ => none
  | .del i key =>
    match s.callers i with
    | .idle => some (s.setPc i (.called key))
    | _ => none
  | .cacheLookup i =>
    match s.callers i with
    | .called key =>
      match s.engine.cache with
      | none => some (s.setPc i (.missed key))
      | some cache =>
        let engine := { s.engine with cache := some (cache.get key).2 }
        match (cache.get key).1 with
        | some _ => some ({ s with engine }.setPc i (.looked key true))
        | none => some ({ s with engine }.setPc i (.missed key))
    | _ => none
  | .lookup i =>
    match s.callers i with
    | .missed key =>
      match answer (s.engine.lookup key), s.engine.cache with
      | some out, some _ => some (s.setPc i (.found key out))
      | some _, none => some (s.setPc i (.looked key true))
      | none, _ => some (s.setPc i (.looked key false))
    | _ => none
  | .cacheFill i =>
    match s.callers i with
    | .found key out => some ({ s with
        engine := { s.engine with cache := s.engine.cache.map fun cache => LRUCache.put cache key out } }.setPc i
          (.looked key true))
    | _ => none
  | .push i =>
    match s.callers i with
    | .looked key existed => some (s.enqueue i (.delete key) existed)
    | _ => none
  | .popBatch => (s.toBatchInHand.popBatch (s.queue.take maxBatchSize)).map fun inHand =>
      { s with toBatchInHand := inHand, queue := s.queue.drop maxBatchSize }
  | .update => (s.toBatchInHand.update fun call => (call, s.engine.live call.request.key)).map fun (call, inHand) =>
      { s with toBatchInHand := inHand, engine := s.engine.updateMemtable call.request }
  | .invalidate => s.toBatchInHand.invalidate.map fun (through, inHand) =>
      { s with toBatchInHand := inHand, engine := s.engine.invalidate through.1.request.key }
  | .complete => s.toBatchInHand.complete.map fun (through, inHand) =>
      { s with toBatchInHand := inHand, returned := s.returned ++ [through] }.setPc through.1.caller .idle
  | .background op =>
    if op.inBackground then (s.engine.step op).map fun engine => { s with engine } else none

/-! ## What a step does -/

/-- The effects of the steps, one constructor for each thing that can happen. -/
inductive Effect (s : ConcurrentDeletes ι) : DeletesOp ι → ConcurrentDeletes ι → Prop where
  | put {i : ι} (key value : Bytes) (hpc : s.callers i = .idle) :
      Effect s (.put i key value) (s.enqueue i (.put key value) true)
  | del {i : ι} (key : Bytes) (hpc : s.callers i = .idle) : Effect s (.del i key) (s.setPc i (.called key))
  | uncached {i : ι} {key : Bytes} (hpc : s.callers i = .called key) (hc : s.engine.cache = none) :
      Effect s (.cacheLookup i) (s.setPc i (.missed key))
  | hit {i : ι} {key : Bytes} {cache : LRUCache} {entry : Entry} (hpc : s.callers i = .called key)
      (hc : s.engine.cache = some cache) (hfind : cache.cache.find? key = some entry) : Effect s (.cacheLookup i)
        ({ s with engine := { s.engine with cache := some (cache.get key).2 } }.setPc i (.looked key true))
  | miss {i : ι} {key : Bytes} {cache : LRUCache} (hpc : s.callers i = .called key) (hc : s.engine.cache = some cache)
      (hfind : cache.cache.find? key = none) : Effect s (.cacheLookup i)
        ({ s with engine := { s.engine with cache := some (cache.get key).2 } }.setPc i (.missed key))
  | found {i : ι} {key : Bytes} {out : Entry} (hpc : s.callers i = .missed key)
      (hlive : answer (s.engine.lookup key) = some out) : Effect s (.lookup i) (s.setPc i (.found key out))
  | looked {i : ι} {key : Bytes} (hpc : s.callers i = .missed key) :
      Effect s (.lookup i) (s.setPc i (.looked key (s.engine.live key)))
  | cacheFill {i : ι} {key : Bytes} {out : Entry} (hpc : s.callers i = .found key out) : Effect s (.cacheFill i)
      ({ s with
        engine := { s.engine with cache := s.engine.cache.map fun cache => LRUCache.put cache key out } }.setPc i
          (.looked key true))
  | push {i : ι} {key : Bytes} {existed : Bool} (hpc : s.callers i = .looked key existed) :
      Effect s (.push i) (s.enqueue i (.delete key) existed)
  | popBatch (hbatch : s.batch = []) : Effect s .popBatch
      { s with batch := s.queue.take maxBatchSize, queue := s.queue.drop maxBatchSize }
  | update {call : PendingCall ι} {batch : List (PendingCall ι)} (hbatch : s.batch = call :: batch)
      (hupdated : s.updated = none) : Effect s .update
        { s with
          engine := s.engine.updateMemtable call.request
          batch := batch
          updated := some (call, s.engine.live call.request.key) }
  | invalidate {through : PendingCall ι × Bool} (hupdated : s.updated = some through) : Effect s .invalidate
      { s with
        engine := s.engine.invalidate through.1.request.key
        updated := none
        results := s.results ++ [through] }
  | complete {through : PendingCall ι × Bool} {results : List (PendingCall ι × Bool)} (hupdated : s.updated = none)
      (hresults : s.results = through :: results) : Effect s .complete
        ({ s with
          results := results
          returned := s.returned ++ [through] }.setPc through.1.caller .idle)
  | background {op : EngineOp} {engine : StorageEngine} (hop : op.inBackground = true)
      (hs : s.engine.step op = some engine) : Effect s (.background op) { s with engine }

/-- Every step has one of these effects. -/
theorem Effect.of_step {s s' : ConcurrentDeletes ι} {op : DeletesOp ι} (h : s.step op = some s') : Effect s op s' := by
  cases op with
  | put i key value =>
      unfold step at h; dsimp only at h; split at h <;> try contradiction
      next hpc => exact Option.some.inj h ▸ .put key value hpc
  | del i key =>
      unfold step at h; dsimp only at h; split at h <;> try contradiction
      next hpc => exact Option.some.inj h ▸ .del key hpc
  | cacheLookup i =>
      unfold step at h; dsimp only at h; split at h <;> try contradiction
      next key hpc =>
        cases hc : s.engine.cache with
        | none =>
            simp only [hc] at h
            exact Option.some.inj h ▸ .uncached hpc hc
        | some cache =>
            simp only [hc, LRUCache.fst_get] at h
            cases hfind : cache.cache.find? key with
            | none =>
                simp only [hfind] at h
                exact Option.some.inj h ▸ .miss hpc hc hfind
            | some entry =>
                simp only [hfind] at h
                exact Option.some.inj h ▸ .hit hpc hc hfind
  | lookup i =>
      unfold step at h; dsimp only at h; split at h <;> try contradiction
      next key hpc =>
        split at h
        · next out _ ha _ => exact Option.some.inj h ▸ .found hpc ha
        · next out ha _ =>
            have hlive : s.engine.live key = true := by
              unfold StorageEngine.live
              rw [ha]
              rfl
            rw [← hlive] at h
            exact Option.some.inj h ▸ .looked hpc
        · next ha =>
            have hlive : s.engine.live key = false := by
              unfold StorageEngine.live
              rw [ha]
              rfl
            rw [← hlive] at h
            exact Option.some.inj h ▸ .looked hpc
  | cacheFill i =>
      unfold step at h; dsimp only at h; split at h <;> try contradiction
      next key out hpc => exact Option.some.inj h ▸ .cacheFill hpc
  | push i =>
      unfold step at h; dsimp only at h; split at h <;> try contradiction
      next key existed hpc => exact Option.some.inj h ▸ .push hpc
  | popBatch =>
      obtain ⟨inHand, hpop, rfl⟩ := Option.map_eq_some_iff.mp h
      obtain ⟨hbatch, -, -, -, rfl⟩ := BatchInHand.popBatch_eq_some hpop
      exact .popBatch hbatch
  | update =>
      obtain ⟨⟨call, inHand⟩, htaken, rfl⟩ := Option.map_eq_some_iff.mp h
      obtain ⟨batch, hbatch, hupdated, rfl⟩ := BatchInHand.update_eq_some htaken
      exact .update hbatch hupdated
  | invalidate =>
      obtain ⟨⟨through, inHand⟩, hdropped, rfl⟩ := Option.map_eq_some_iff.mp h
      obtain ⟨hupdated, rfl⟩ := BatchInHand.invalidate_eq_some hdropped
      exact .invalidate hupdated
  | complete =>
      obtain ⟨⟨through, inHand⟩, hcompleted, rfl⟩ := Option.map_eq_some_iff.mp h
      obtain ⟨results, -, hupdated, hresults, rfl⟩ := BatchInHand.complete_eq_some hcompleted
      exact .complete hupdated hresults
  | background op =>
      unfold step at h
      dsimp only at h
      split_ifs at h with hop
      obtain ⟨engine, hs, rfl⟩ := Option.map_eq_some_iff.mp h
      exact .background hop hs

end ConcurrentDeletes

end KvStorageEngine
