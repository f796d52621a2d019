import KvStorageEngine.Engine.Types
import KvStorageEngine.Lib.Run

/-!
# `Engine.WriteQueue` — the queue in front of the writer thread

`engine/src/write_queue.cpp`. Any number of threads push requests and take them out, each method cut where it gives up
the lock: while it waits on a condition variable, and in the middle of `popBatch`. A waiting thread may wake up at any
time, notified or not, and goes on only if its predicate holds then, so a step under the lock is enabled when the
predicate is true.

A request carries the promise that its pusher waits for. The queue itself fulfils a promise only to refuse the request.
-/

namespace KvStorageEngine

/-- A `WriteRequest` with its promise, which `id` stands for. -/
structure QueuedRequest where
  id : Nat
  request : WriteRequest
  deriving DecidableEq, Repr

/-- Where a thread is; `returned` says what its last call took out. -/
inductive QueuePc where
  | returned (taken : List QueuedRequest)
  | pushing (r : QueuedRequest)
  | popping
  | batching (maxBatchSize : Nat)
  | yielded (maxBatchSize : Nat)
  deriving DecidableEq, Repr

/-- The queue, the threads `ι` that use it, and the promises. -/
structure WriteQueue (ι : Type) where
  maxSize : Nat
  queue : List QueuedRequest
  shutdown : Bool
  completions : Nat → Option Bool
  nextId : Nat
  threads : ι → QueuePc
  /-- History: the requests that were enqueued, in order. -/
  accepted : List QueuedRequest
  /-- History: the requests that were taken out, in order. -/
  removed : List QueuedRequest
  /-- History: the requests that were turned away. -/
  refused : List QueuedRequest

/-- A call, or what a thread does under the lock. -/
inductive QueueOp (ι : Type) where
  | push (i : ι) (request : WriteRequest)
  | pushLock (i : ι)
  | pop (i : ι)
  | popLock (i : ι)
  | popBatch (i : ι) (maxBatchSize : Nat)
  | popBatchLock (i : ι)
  | popBatchRelock (i : ι)
  | shutdown
  deriving DecidableEq, Repr

namespace WriteQueue

variable {ι : Type} [DecidableEq ι]

def init (ι : Type) (maxSize : Nat) : WriteQueue ι :=
  ⟨maxSize, [], false, fun _ => none, 0, fun _ => .returned [], [], [], []⟩

def setPc (s : WriteQueue ι) (i : ι) (pc : QueuePc) : WriteQueue ι :=
  { s with threads := Function.update s.threads i pc }

/-- A pusher that finds the queue open enqueues its request. -/
def enqueue (s : WriteQueue ι) (i : ι) (r : QueuedRequest) : WriteQueue ι :=
  { s with queue := s.queue ++ [r], accepted := s.accepted ++ [r] }.setPc i (.returned [])

/-- One that finds it shut down gets `false`. -/
def refuse (s : WriteQueue ι) (i : ι) (r : QueuedRequest) : WriteQueue ι :=
  { s with
    completions := Function.update s.completions r.id (some false)
    refused := s.refused ++ [r] }.setPc i (.returned [])

/-- A consumer takes up to `n` requests from the front. -/
def take (s : WriteQueue ι) (i : ι) (n : Nat) : WriteQueue ι :=
  { s with
    queue := s.queue.drop n
    removed := s.removed ++ s.queue.take n }.setPc i (.returned (s.queue.take n))

/-- One step, `none` where the thread is not at that point or would wait. -/
def step (s : WriteQueue ι) : QueueOp ι → Option (WriteQueue ι)
  | .push i request =>
    match s.threads i with
    | .returned _ => some ({ s with nextId := s.nextId + 1 }.setPc i (.pushing ⟨s.nextId, request⟩))
    | _ => none
  | .pushLock i =>
    match s.threads i with
    | .pushing r =>
      if s.queue.length < s.maxSize ∨ s.shutdown = true then
        some (if s.shutdown = true then s.refuse i r else s.enqueue i r)
      else none
    | _ => none
  | .pop i =>
    match s.threads i with
    | .returned _ => some (s.setPc i .popping)
    | _ => none
  | .popLock i =>
    match s.threads i with
    | .popping =>
      if s.queue ≠ [] ∨ s.shutdown = true then some (s.take i 1) else none
    | _ => none
  | .popBatch i maxBatchSize =>
    match s.threads i with
    | .returned _ => some (s.setPc i (.batching maxBatchSize))
    | _ => none
  | .popBatchLock i =>
    match s.threads i with
    | .batching maxBatchSize =>
      if s.queue ≠ [] ∨ s.shutdown = true then
        if s.queue = [] then some (s.setPc i (.returned []))
        -- a short queue gets a chance to fill up
        else if s.queue.length < maxBatchSize / 10 then some (s.setPc i (.yielded maxBatchSize))
        else some (s.take i maxBatchSize)
      else none
    | _ => none
  | .popBatchRelock i =>
    match s.threads i with
    | .yielded maxBatchSize => some (s.take i maxBatchSize)
    | _ => none
  | .shutdown => some { s with shutdown := true }

/-- `WriteQueue::isShutdown`. -/
def isShutdown (s : WriteQueue ι) : Bool := s.shutdown

/-- `WriteQueue::size`. -/
def size (s : WriteQueue ι) : Nat := s.queue.length

/-! ## What a step does -/

/-- The effects of the steps, one constructor for each thing that can happen. -/
inductive Effect (s : WriteQueue ι) : QueueOp ι → WriteQueue ι → Prop where
  | push {i : ι} {taken : List QueuedRequest} (request : WriteRequest) (hpc : s.threads i = .returned taken) :
      Effect s (.push i request)
        ({ s with nextId := s.nextId + 1 }.setPc i (.pushing ⟨s.nextId, request⟩))
  | enqueue {i : ι} {r : QueuedRequest} (hpc : s.threads i = .pushing r) (hopen : s.shutdown = false)
      (hroom : s.queue.length < s.maxSize) : Effect s (.pushLock i) (s.enqueue i r)
  | refuse {i : ι} {r : QueuedRequest} (hpc : s.threads i = .pushing r) (hshut : s.shutdown = true) :
      Effect s (.pushLock i) (s.refuse i r)
  | call {i : ι} {op : QueueOp ι} {pc : QueuePc} (hpc : ∀ r, pc ≠ .pushing r)
      (hi : ∀ r, s.threads i ≠ .pushing r) : Effect s op (s.setPc i pc)
  | take {i : ι} {op : QueueOp ι} (n : Nat) (hi : ∀ r, s.threads i ≠ .pushing r) : Effect s op (s.take i n)
  | shutdown : Effect s .shutdown { s with shutdown := true }

/-- Every step has one of these effects. -/
theorem Effect.of_step {s s' : WriteQueue ι} {op : QueueOp ι} (h : s.step op = some s') : Effect s op s' := by
  cases op with
  | push i request =>
      unfold step at h; dsimp only at h; split at h <;> try contradiction
      next taken hpc => exact Option.some.inj h ▸ .push request hpc
  | pushLock i =>
      unfold step at h; dsimp only at h; split at h <;> try contradiction
      next r hpc =>
        by_cases hshut : s.shutdown = true
        · rw [if_pos (Or.inr hshut), if_pos hshut] at h
          exact Option.some.inj h ▸ .refuse hpc hshut
        · rw [if_neg hshut] at h
          split_ifs at h with hroom
          exact Option.some.inj h ▸ .enqueue hpc (by simpa using hshut) (hroom.resolve_right hshut)
  | pop i =>
      unfold step at h; dsimp only at h; split at h <;> try contradiction
      next taken hpc => exact Option.some.inj h ▸ .call (by simp) (by simp [hpc])
  | popLock i =>
      unfold step at h; dsimp only at h; split at h <;> try contradiction
      next hpc =>
        split_ifs at h
        exact Option.some.inj h ▸ .take 1 (by simp [hpc])
  | popBatch i maxBatchSize =>
      unfold step at h; dsimp only at h; split at h <;> try contradiction
      next taken hpc => exact Option.some.inj h ▸ .call (by simp) (by simp [hpc])
  | popBatchLock i =>
      unfold step at h; dsimp only at h; split at h <;> try contradiction
      next maxBatchSize hpc =>
        split_ifs at h
        · exact Option.some.inj h ▸ .call (by simp) (by simp [hpc])
        · exact Option.some.inj h ▸ .call (by simp) (by simp [hpc])
        · exact Option.some.inj h ▸ .take maxBatchSize (by simp [hpc])
  | popBatchRelock i =>
      unfold step at h; dsimp only at h; split at h <;> try contradiction
      next maxBatchSize hpc => exact Option.some.inj h ▸ .take maxBatchSize (by simp [hpc])
  | shutdown => exact Option.some.inj h ▸ .shutdown

end WriteQueue

end KvStorageEngine
