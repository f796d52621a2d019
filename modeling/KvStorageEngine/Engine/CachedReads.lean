import KvStorageEngine.Engine.StorageEngine
import KvStorageEngine.Lib.Run

/-!
# `Engine.CachedReads` — readers that fill the cache

`StorageEngine::get` is three steps where there is a cache: look into the cache, search the store, put what
was found into the cache. `writerThreadLoop` takes a batch of requests, and for each of them updates the
memtable and then drops the key from the cache; only when the whole batch is through are the requests
completed, one by one (`engine/src/engine.cpp`). The cache has a lock, but no lock is held from one of these
steps to the next.

The log and the rotation at the end of a batch do not touch the cache and are left out here.
-/

namespace KvStorageEngine

/-! ## A batch

The part of `writerThreadLoop` between `popBatch` and the last promise, for requests `ρ` of which `τ` is known from the
memtable's update on. -/

/-- The batch that the writer thread has in hand. -/
structure BatchInHand (ρ τ : Type) where
  /-- What is left of it. -/
  batch : List ρ
  /-- The request whose key is still to be dropped from the cache. -/
  updated : Option τ
  /-- Those that are through and not completed. -/
  results : List τ

namespace BatchInHand

variable {ρ τ : Type}

/-- The writer thread waits for a batch. -/
def idle : BatchInHand ρ τ := ⟨[], none, []⟩

def popBatch (s : BatchInHand ρ τ) (batch : List ρ) : Option (BatchInHand ρ τ) :=
  match s.batch, s.updated, s.results with
  | [], none, [] => if batch = [] ∨ maxBatchSize < batch.length then none else some { s with batch := batch }
  | _, _, _ => none

/-- The memtable takes the next request. -/
def update (s : BatchInHand ρ τ) (through : ρ → τ) : Option (ρ × BatchInHand ρ τ) :=
  match s.batch, s.updated with
  | request :: batch, none => some (request, { s with batch := batch, updated := some (through request) })
  | _, _ => none

/-- The key of that request is dropped from the cache. -/
def invalidate (s : BatchInHand ρ τ) : Option (τ × BatchInHand ρ τ) :=
  match s.updated with
  | some through => some (through, { s with updated := none, results := s.results ++ [through] })
  | none => none

/-- The batch is through, and the next promise is fulfilled. -/
def complete (s : BatchInHand ρ τ) : Option (τ × BatchInHand ρ τ) :=
  match s.batch, s.updated, s.results with
  | [], none, through :: results => some (through, { s with results := results })
  | _, _, _ => none

variable {s s' : BatchInHand ρ τ} {request : ρ} {through : τ}

theorem popBatch_eq_some {batch : List ρ} (h : s.popBatch batch = some s') :
    s.batch = [] ∧ s.updated = none ∧ s.results = [] ∧ batch ≠ [] ∧ s' = { s with batch := batch } := by
  unfold popBatch at h
  split at h <;> try contradiction
  next hbatch hupdated hresults =>
    split_ifs at h with hsize
    exact ⟨hbatch, hupdated, hresults, fun hnil => hsize (Or.inl hnil), (Option.some.inj h).symm⟩

theorem update_eq_some {known : ρ → τ} (h : s.update known = some (request, s')) : ∃ batch,
    s.batch = request :: batch ∧ s.updated = none ∧ s' = { s with batch := batch, updated := some (known request) } := by
  unfold update at h
  split at h <;> try contradiction
  next r batch hbatch hupdated =>
    obtain ⟨rfl, rfl⟩ := Prod.mk.inj (Option.some.inj h)
    exact ⟨batch, hbatch, hupdated, rfl⟩

theorem invalidate_eq_some (h : s.invalidate = some (through, s')) :
    s.updated = some through ∧ s' = { s with updated := none, results := s.results ++ [through] } := by
  unfold invalidate at h
  split at h <;> try contradiction
  next hupdated =>
    obtain ⟨rfl, rfl⟩ := Prod.mk.inj (Option.some.inj h)
    exact ⟨hupdated, rfl⟩

theorem complete_eq_some (h : s.complete = some (through, s')) : ∃ results,
    s.batch = [] ∧ s.updated = none ∧ s.results = through :: results ∧ s' = { s with results := results } := by
  unfold complete at h
  split at h <;> try contradiction
  next through' results hbatch hupdated hresults =>
    obtain ⟨rfl, rfl⟩ := Prod.mk.inj (Option.some.inj h)
    exact ⟨results, hbatch, hupdated, hresults, rfl⟩

end BatchInHand

/-! ## Readers -/

variable [Platform]

/-- Where a `get` is. `since` is history: the writes that had been acknowledged when it was called. The
    record a `get` ends with is the one its answer comes from, a tombstone and no record alike answering
    that there is nothing. -/
inductive GetPc where
  | idle
  | called (key : Bytes) (since : List (Bytes × Nat))
  | missed (key : Bytes) (since : List (Bytes × Nat))
  | found (key : Bytes) (since : List (Bytes × Nat)) (out : Entry)
  | done (key : Bytes) (since : List (Bytes × Nat)) (record : Option Entry)

/-- The engine, its writer thread in the middle of a batch, and any number of readers. A write is known by its
    key and its sequence number. -/
structure CachedReads (ι : Type) extends BatchInHand WriteRequest (Bytes × Nat) where
  engine : StorageEngine
  readers : ι → GetPc
  /-- History: the writes whose key has been dropped from the cache. -/
  invalidated : List (Bytes × Nat)
  /-- History: the writes that have been acknowledged. -/
  acked : List (Bytes × Nat)

/-- A step of a reader or of the writer thread. -/
inductive CachedReadsOp (ι : Type) where
  | call (i : ι) (key : Bytes)
  | cacheLookup (i : ι)
  | lookup (i : ι)
  | cacheFill (i : ι)
  | popBatch (batch : List WriteRequest)
  | update
  | invalidate
  | complete

namespace CachedReads

variable {ι : Type} [DecidableEq ι]

/-- Nobody is reading, and the writer thread waits for a batch. -/
def start (ι : Type) (s : StorageEngine) : CachedReads ι := ⟨.idle, s, fun _ => .idle, [], []⟩

def setPc (s : CachedReads ι) (i : ι) (pc : GetPc) : CachedReads ι :=
  { s with readers := Function.update s.readers i pc }

/-- One step, `none` where the thread is not at that point. -/
def step (s : CachedReads ι) : CachedReadsOp ι → Option (CachedReads ι)
  | .call i key =>
    match s.readers i with
    | .idle | .done _ _ _ => some (s.setPc i (.called key s.acked))
    | _ => none
  | .cacheLookup i =>
    match s.readers i with
    | .called key since =>
      match s.engine.cache with
      | none => some (s.setPc i (.missed key since))
      | some cache =>
        let engine := { s.engine with cache := some (cache.get key).2 }
        match (cache.get key).1 with
        | some cached => some ({ s with engine }.setPc i (.done key since (some cached)))
        | none => some ({ s with engine }.setPc i (.missed key since))
    | _ => none
  | .lookup i =>
    match s.readers i with
    | .missed key since =>
      match answer (s.engine.lookup key), s.engine.cache with
      | some out, some _ => some (s.setPc i (.found key since out))
      -- only a put is cached
      | _, _ => some (s.setPc i (.done key since (s.engine.lookup key)))
    | _ => none
  | .cacheFill i =>
    match s.readers i with
    | .found key since out => some ({ s with
        engine := { s.engine with cache := s.engine.cache.map fun cache => LRUCache.put cache key out } }.setPc i
          (.done key since (some out)))
    | _ => none
  | .popBatch batch => (s.toBatchInHand.popBatch batch).map fun inHand => { s with toBatchInHand := inHand }
  | .update => (s.toBatchInHand.update fun request => (request.key, s.engine.seqNumber)).map fun (request, inHand) =>
      { s with toBatchInHand := inHand, engine := s.engine.updateMemtable request }
  | .invalidate => s.toBatchInHand.invalidate.map fun (write, inHand) =>
      { s with
        toBatchInHand := inHand
        engine := s.engine.invalidate write.1
        invalidated := s.invalidated ++ [write] }
  | .complete => s.toBatchInHand.complete.map fun (write, inHand) =>
      { s with toBatchInHand := inHand, acked := s.acked ++ [write] }

/-- One request through the writer thread is a `put`, -/
theorem exec_put (s : StorageEngine) (key value : Bytes) :
    (Run.exec step (start ι s) [.popBatch [.put key value], .update, .invalidate, .complete]).map (·.engine)
      = some (s.put key value) := by
  simp [Run.exec_cons, step, start]
  rfl

/-- or the tombstone of a `del`. -/
theorem exec_delete (s : StorageEngine) (key : Bytes) :
    (Run.exec step (start ι s) [.popBatch [.delete key], .update, .invalidate, .complete]).map (·.engine)
      = some (s.writeTombstone key) := by
  simp [Run.exec_cons, step, start]
  rfl

end CachedReads

end KvStorageEngine
