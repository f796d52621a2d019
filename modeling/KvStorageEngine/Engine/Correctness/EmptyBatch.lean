import KvStorageEngine.Engine.WriteQueue

/-!
# `Engine.Correctness.EmptyBatch` — what an empty batch says

The writer thread ends when `popBatch` returns nothing, and takes it that the queue is shut down then. `popBatch` looks
for a request, or for a shutdown, in its first lock region only. A thread that finds few requests gives up the lock for
a moment, and what it has found may be gone when it comes back.

An empty batch therefore says what it should exactly if the threads that come back find something or a shutdown
(`emptyMeansShutdown_iff`). This they do if no one takes the last request from under them (`DrainInv`), and there is no
one to do so where a single thread consumes, as in the engine (`meets_noDrain_of_consumer`).
-/

namespace KvStorageEngine

open Run

namespace WriteQueue

variable {ι : Type} [DecidableEq ι]

/-- A step at which a call of `popBatch` returns, if it returns. -/
def Batches (s : WriteQueue ι) (op : QueueOp ι) (i : ι) (maxBatchSize : Nat) : Prop :=
  (op = .popBatchLock i ∧ s.threads i = .batching maxBatchSize) ∨
    (op = .popBatchRelock i ∧ s.threads i = .yielded maxBatchSize)

/-- If `popBatch(n)`, with `n >= 1`, returns an empty batch, the queue is shut down and empty. -/
def EmptyMeansShutdown (s : WriteQueue ι) (op : QueueOp ι) : Prop :=
  ∀ i n s', s.Batches op i n → 1 ≤ n → s.step op = some s' → s'.threads i = .returned [] →
    s'.shutdown = true ∧ s'.queue = []

/-- A thread that takes the lock again finds a request, or the queue shut down. -/
def FindsSome (s : WriteQueue ι) (op : QueueOp ι) : Prop :=
  ∀ i n, op = .popBatchRelock i → s.threads i = .yielded n → s.queue ≠ [] ∨ s.shutdown = true

/-- Who takes requests out in a step, and how many at most. -/
def takes (s : WriteQueue ι) : QueueOp ι → Option (ι × Nat)
  | .popLock i => if s.threads i = .popping then some (i, 1) else none
  | .popBatchLock i =>
    match s.threads i with
    | .batching maxBatchSize => if s.queue.length < maxBatchSize / 10 then none else some (i, maxBatchSize)
    | _ => none
  | .popBatchRelock i =>
    match s.threads i with
    | .yielded maxBatchSize => some (i, maxBatchSize)
    | _ => none
  | _ => none

/-- No thread takes the last request while another one has given up the lock in `popBatch`. -/
def NoDrain (s : WriteQueue ι) (op : QueueOp ι) : Prop :=
  ∀ i n, s.takes op = some (i, n) → ∀ j m, j ≠ i → s.threads j = .yielded m → n < s.queue.length ∨ s.shutdown = true

variable {s s' : WriteQueue ι} {op : QueueOp ι}

/-! ## A. One step

The steps of a consumer, by what they make of its place (`MovesTo`). An empty batch comes from one of two: from the
first lock region, which has seen the queue empty and shut down, or from the second, which has not looked. -/

theorem threads_take (s : WriteQueue ι) (i j : ι) (n : Nat) :
    (s.take i n).threads j = if j = i then .returned (s.queue.take n) else s.threads j := Function.update_apply ..

theorem take_ne_nil {queue : List QueuedRequest} (h : queue ≠ []) {n : Nat} (hn : 1 ≤ n) : queue.take n ≠ [] := by
  rw [Ne, List.take_eq_nil_iff, not_or]
  exact ⟨Nat.ne_of_gt hn, h⟩

/-- What a call of `popBatch` does in its first lock region. -/
theorem popBatchLock_cases {i : ι} {n : Nat} (hpc : s.threads i = .batching n)
    (h : s.step (.popBatchLock i) = some s') :
    (s.queue = [] ∧ s.shutdown = true ∧ s' = s.setPc i (.returned [])) ∨
      (s.queue ≠ [] ∧ s.queue.length < n / 10 ∧ s' = s.setPc i (.yielded n)) ∨
        (s.queue ≠ [] ∧ ¬ s.queue.length < n / 10 ∧ s' = s.take i n) := by
  unfold step at h
  simp only [hpc] at h
  split_ifs at h with hwait hempty hshort
  · exact Or.inl ⟨hempty, hwait.resolve_left (not_not.mpr hempty), (Option.some.inj h).symm⟩
  · exact Or.inr (Or.inl ⟨hempty, hshort, (Option.some.inj h).symm⟩)
  · exact Or.inr (Or.inr ⟨hempty, hshort, (Option.some.inj h).symm⟩)

/-- The thread that calls `pop` or `popBatch`. -/
def consumer : QueueOp ι → Option ι
  | .pop i => some i
  | .popBatch i _ => some i
  | _ => none

/-- A thread in the middle of such a call. -/
def consumes : QueuePc → Bool
  | .popping | .batching _ | .yielded _ => true
  | _ => false

/-- Where the thread that moves gets to in a step. It gets into a call of `pop` or `popBatch` by calling, and gives up
    the lock in `popBatch` when it has seen a request. -/
inductive MovesTo (s : WriteQueue ι) (op : QueueOp ι) (i : ι) : QueuePc → Prop where
  | outside {pc : QueuePc} (hpc : consumes pc = false) : MovesTo s op i pc
  | calls {pc : QueuePc} (hop : consumer op = some i) (hpc : ∀ n, pc ≠ .yielded n) : MovesTo s op i pc
  | yields {n : Nat} (hpc : s.threads i = .batching n) (hsome : s.queue ≠ []) (hn : 1 ≤ n) : MovesTo s op i (.yielded n)

/-- A step takes requests out, or leaves them where they are and moves one thread at most. -/
theorem step_cases (h : s.step op = some s') :
    (∃ i n, s.takes op = some (i, n) ∧ s' = s.take i n) ∨
      (s.queue <+: s'.queue ∧ (s.shutdown = true → s'.shutdown = true) ∧
        ∀ j, s'.threads j = s.threads j ∨ MovesTo s op j (s'.threads j)) := by
  have hset : ∀ {t : WriteQueue ι} {i : ι} {pc : QueuePc}, t.threads = s.threads → MovesTo s op i pc →
      ∀ j, (t.setPc i pc).threads j = s.threads j ∨ MovesTo s op j ((t.setPc i pc).threads j) := by
    intro t i pc ht hpc j
    show Function.update t.threads i pc j = s.threads j ∨ MovesTo s op j (Function.update t.threads i pc j)
    rw [Function.update_apply, ht]
    split_ifs with he
    · subst he
      exact Or.inr hpc
    · exact Or.inl rfl
  cases op with
  | push i request =>
      unfold step at h; dsimp only at h; split at h <;> try contradiction
      next hpc => exact Option.some.inj h ▸ Or.inr ⟨List.prefix_refl _, id, hset rfl (.outside rfl)⟩
  | pushLock i =>
      unfold step at h; dsimp only at h; split at h <;> try contradiction
      next r hpc =>
        split_ifs at h with hwait hshut
        · exact Option.some.inj h ▸ Or.inr ⟨List.prefix_refl _, id, hset rfl (.outside rfl)⟩
        · exact Option.some.inj h ▸ Or.inr ⟨List.prefix_append _ _, id, hset rfl (.outside rfl)⟩
  | pop i | popBatch i n =>
      unfold step at h; dsimp only at h; split at h <;> try contradiction
      next hpc => exact Option.some.inj h ▸ Or.inr ⟨List.prefix_refl _, id, hset rfl (.calls rfl (by simp))⟩
  | popLock i =>
      unfold step at h; dsimp only at h; split at h <;> try contradiction
      next hpc =>
        split_ifs at h
        exact Or.inl ⟨i, 1, if_pos hpc, (Option.some.inj h).symm⟩
  | popBatchLock i =>
      cases hpc : s.threads i with
      | batching n =>
          rcases popBatchLock_cases hpc h with ⟨-, -, rfl⟩ | ⟨hsome, hshort, rfl⟩ | ⟨-, hlong, rfl⟩
          · exact Or.inr ⟨List.prefix_refl _, id, hset rfl (.outside rfl)⟩
          · exact Or.inr ⟨List.prefix_refl _, id, hset rfl (.yields hpc hsome (by omega))⟩
          · refine Or.inl ⟨i, n, ?_, rfl⟩
            simp only [takes, hpc, if_neg hlong]
      | returned | pushing | popping | yielded =>
          unfold step at h
          simp only [hpc] at h
          contradiction
  | popBatchRelock i =>
      unfold step at h; dsimp only at h; split at h <;> try contradiction
      next n hpc =>
        refine Or.inl ⟨i, n, ?_, (Option.some.inj h).symm⟩
        simp only [takes, hpc]
  | shutdown => exact Option.some.inj h ▸ Or.inr ⟨List.prefix_refl _, fun _ => rfl, fun j => Or.inl rfl⟩

omit [DecidableEq ι] in
/-- A thread that gives up the lock has seen a request. -/
theorem MovesTo.yielded {i : ι} {n : Nat} (h : MovesTo s op i (.yielded n)) : s.queue ≠ [] ∧ 1 ≤ n := by
  cases h with
  | outside hpc => exact absurd hpc (by simp [consumes])
  | calls _ hpc => exact absurd rfl (hpc n)
  | yields _ hsome hn => exact ⟨hsome, hn⟩

omit [DecidableEq ι] in
/-- A thread gets into a call by calling. -/
theorem MovesTo.consumes {i : ι} {pc : QueuePc} (h : MovesTo s op i pc) (hpc : consumes pc = true) :
    consumes (s.threads i) = true ∨ consumer op = some i := by
  cases h with
  | outside hout => exact absurd hpc (by simp [hout])
  | calls hop _ => exact Or.inr hop
  | yields hbatching _ _ =>
      rw [hbatching]
      exact Or.inl rfl

/-- A thread has given up the lock only in a call that may take some. -/
def YieldedInv (s : WriteQueue ι) : Prop := ∀ i n, s.threads i = .yielded n → 1 ≤ n

/-- Only a call that asks for some requests gives up the lock. -/
theorem YieldedInv.step (hinv : YieldedInv s) (h : s.step op = some s') : YieldedInv s' := by
  intro j n hj
  rcases step_cases h with ⟨i, m, -, rfl⟩ | ⟨-, -, hmoves⟩
  · rw [threads_take] at hj
    split_ifs at hj
    exact hinv j n hj
  · rcases hmoves j with hsame | hmove
    · exact hinv j n (hsame ▸ hj)
    · exact (hj ▸ hmove).yielded.2

/-- **The first lock region is right by itself**, and the second one as far as it finds something. -/
theorem emptyMeansShutdown_iff (hinv : YieldedInv s) : s.EmptyMeansShutdown op ↔ s.FindsSome op := by
  constructor
  · intro h i n hop hpc
    by_contra hnone
    obtain ⟨hempty, hopen⟩ := not_or.mp hnone
    rw [not_not] at hempty
    have hstep : s.step op = some (s.take i n) := by
      rw [hop]
      simp only [step, hpc]
    have hret : (s.take i n).threads i = .returned [] := by
      rw [threads_take, if_pos rfl, hempty, List.take_nil]
    exact hopen (h i n _ (Or.inr ⟨hop, hpc⟩) (hinv i n hpc) hstep hret).1
  · rintro h i n s' (⟨rfl, hpc⟩ | ⟨rfl, hpc⟩) hn hstep hret
    · rcases popBatchLock_cases hpc hstep with ⟨hempty, hshut, rfl⟩ | ⟨-, -, rfl⟩ | ⟨hsome, -, rfl⟩
      · exact ⟨hshut, hempty⟩
      · have hret' : Function.update s.threads i (.yielded n) i = .returned [] := hret
        rw [Function.update_self] at hret'
        contradiction
      · rw [threads_take, if_pos rfl] at hret
        exact absurd (QueuePc.returned.inj hret) (take_ne_nil hsome hn)
    · have hstep' : s.step (.popBatchRelock i) = some (s.take i n) := by simp only [step, hpc]
      obtain rfl := Option.some.inj (hstep'.symm.trans hstep)
      rw [threads_take, if_pos rfl] at hret
      have hempty : s.queue = [] := by
        by_contra hsome
        exact take_ne_nil hsome hn (QueuePc.returned.inj hret)
      refine ⟨(h i n rfl hpc).resolve_left (not_not.mpr hempty), ?_⟩
      show s.queue.drop n = []
      rw [hempty, List.drop_nil]

/-! ## B. Nobody takes the last request

A thread that gave up the lock left at least one request, and it finds one again unless the others take them all. -/

/-- Threads that have given up the lock come back to a request, or to a shutdown. -/
def DrainInv (s : WriteQueue ι) : Prop := ∀ i n, s.threads i = .yielded n → s.queue ≠ [] ∨ s.shutdown = true

/-- The requests that a thread has left behind are still there when nobody takes the last one. -/
theorem DrainInv.step (hinv : DrainInv s) (hdrain : s.NoDrain op) (h : s.step op = some s') : DrainInv s' := by
  intro j m hj
  rcases step_cases h with ⟨i, n, htakes, rfl⟩ | ⟨hpre, hshut, hmoves⟩
  · -- what another thread takes is not all there is
    rw [threads_take] at hj
    split_ifs at hj with he
    rcases hdrain i n htakes j m he hj with hlt | hshut
    · refine Or.inl ?_
      show s.queue.drop n ≠ []
      rw [Ne, List.drop_eq_nil_iff]
      omega
    · exact Or.inr hshut
  · have hkeeps : s.queue ≠ [] → s'.queue ≠ [] := fun hsome => hpre.ne_nil hsome
    rcases hmoves j with hsame | hmove
    · exact (hinv j m (hsame ▸ hj)).imp hkeeps hshut
    · exact Or.inl (hkeeps (hj ▸ hmove).yielded.1)

/-! ## C. A single consumer

Where all calls that take requests out are one thread's, there is no other to do so. -/

/-- All threads but `c` only push. -/
def ConsumerInv (c : ι) (s : WriteQueue ι) : Prop := ∀ j, consumes (s.threads j) = true → j = c

/-- A run in which only one thread calls `pop` and `popBatch` keeps the others out of them. -/
theorem ConsumerInv.step {c : ι} (hinv : ConsumerInv c s) (hc : ∀ i, consumer op = some i → i = c)
    (h : s.step op = some s') : ConsumerInv c s' := by
  intro j hj
  rcases step_cases h with ⟨i, n, -, rfl⟩ | ⟨-, -, hmoves⟩
  · rw [threads_take] at hj
    split_ifs at hj
    · exact absurd hj (by simp [consumes])
    · exact hinv j hj
  · rcases hmoves j with hsame | hmove
    · exact hinv j (hsame ▸ hj)
    · exact (hmove.consumes hj).elim (hinv j) (hc j)

omit [DecidableEq ι] in
/-- Who takes something is in the middle of a call. -/
theorem consumes_of_takes {i : ι} {n : Nat} (h : s.takes op = some (i, n)) : consumes (s.threads i) = true := by
  unfold takes at h
  split at h
  · split_ifs at h with hpc
    obtain rfl := (Prod.mk.inj (Option.some.inj h)).1
    rw [hpc]
    rfl
  · split at h
    · split_ifs at h
      obtain rfl := (Prod.mk.inj (Option.some.inj h)).1
      next hpc _ =>
        rw [hpc]
        rfl
    · contradiction
  · split at h
    · next hpc =>
        obtain rfl := (Prod.mk.inj (Option.some.inj h)).1
        rw [hpc]
        rfl
    · contradiction
  · contradiction

omit [DecidableEq ι] in
/-- A single consumer has no one to take the last request from under it. -/
theorem ConsumerInv.noDrain {c : ι} (hinv : ConsumerInv c s) : s.NoDrain op := by
  intro i n htakes j m hji hj
  have hi := hinv i (consumes_of_takes htakes)
  have hj' := hinv j (by rw [hj]; rfl)
  exact absurd (hj'.trans hi.symm) hji

/-! ## D. Whole runs -/

theorem yieldedInv_init (ι : Type) [DecidableEq ι] (maxSize : Nat) : YieldedInv (init ι maxSize) :=
  fun _ _ h => absurd h (by simp [init])

theorem drainInv_init (ι : Type) [DecidableEq ι] (maxSize : Nat) : DrainInv (init ι maxSize) :=
  fun _ _ h => absurd h (by simp [init])

omit [DecidableEq ι] in
theorem consumerInv_init (c : ι) (maxSize : Nat) : ConsumerInv c (init ι maxSize) :=
  fun _ h => absurd h (by simp [init, consumes])

/-- Where nobody takes the last request, the threads that come back find something. -/
theorem meets_findsSome_of_noDrain {maxSize : Nat} {ops : List (QueueOp ι)}
    (h : Meets step NoDrain (init ι maxSize) ops) : Meets step FindsSome (init ι maxSize) ops :=
  h.imp (drainInv_init ι maxSize) (fun _ _ _ hinv hdrain hs => hinv.step hdrain hs)
    fun _ _ hinv _ i n _ hpc => hinv i n hpc

/-- With a single consumer nobody does. -/
theorem meets_noDrain_of_consumer {maxSize : Nat} {ops : List (QueueOp ι)} {c : ι}
    (h : ∀ op ∈ ops, ∀ i, consumer op = some i → i = c) : Meets step NoDrain (init ι maxSize) ops := by
  have hmeets : Meets step (fun _ op => ∀ i, consumer op = some i → i = c) (init ι maxSize) ops :=
    meets_of_forall (fun op hop _ => h op hop) _
  exact hmeets.imp (consumerInv_init c maxSize) (fun _ _ _ hinv hc hs => hinv.step hc hs)
    fun _ _ hinv _ => hinv.noDrain

/-- **What an empty batch says.** In every run, it says that the queue is shut down and empty exactly if the threads
    that come back to the lock find something. So it is where nobody takes the last request from under such a thread,
    and where there is a single consumer. -/
theorem meets_emptyMeansShutdown_iff (maxSize : Nat) (ops : List (QueueOp ι)) :
    (Meets step EmptyMeansShutdown (init ι maxSize) ops ↔ Meets step FindsSome (init ι maxSize) ops) ∧
      (Meets step NoDrain (init ι maxSize) ops → Meets step EmptyMeansShutdown (init ι maxSize) ops) ∧
        ∀ c, (∀ op ∈ ops, ∀ i, consumer op = some i → i = c) →
          Meets step EmptyMeansShutdown (init ι maxSize) ops := by
  have hiff : Meets step EmptyMeansShutdown (init ι maxSize) ops ↔ Meets step FindsSome (init ι maxSize) ops := by
    constructor
    · intro h
      exact h.imp (yieldedInv_init ι maxSize) (fun _ _ _ hinv _ hs => hinv.step hs)
        fun _ _ hinv hmeans => (emptyMeansShutdown_iff hinv).mp hmeans
    · intro h
      exact h.imp (yieldedInv_init ι maxSize) (fun _ _ _ hinv _ hs => hinv.step hs)
        fun _ _ hinv hfinds => (emptyMeansShutdown_iff hinv).mpr hfinds
  refine ⟨hiff, fun hdrain => hiff.mpr (meets_findsSome_of_noDrain hdrain), ?_⟩
  intro c hc
  exact hiff.mpr (meets_findsSome_of_noDrain (meets_noDrain_of_consumer hc))

/-- Two consumers and one request: both give up the lock, and the second one is back first. -/
def drainedBatch : List (QueueOp Bool) :=
  [.push true (.delete []), .pushLock true, .popBatch true 1000, .popBatchLock true, .popBatch false 1000,
    .popBatchLock false, .popBatchRelock false, .popBatchRelock true]

/-- The first consumer gets an empty batch from a queue that is not shut down. -/
theorem not_emptyMeansShutdown_drainedBatch : (exec step (init Bool 10) drainedBatch).isSome ∧
    ¬ Meets step EmptyMeansShutdown (init Bool 10) drainedBatch := by
  refine ⟨by decide, ?_⟩
  intro h
  have hlast : drainedBatch = drainedBatch.dropLast ++ [.popBatchRelock true] := rfl
  rw [hlast] at h
  have hmeans := (meets_concat.mp h).2 _ rfl true 1000 _ (Or.inr ⟨rfl, rfl⟩) (by decide) rfl rfl
  exact absurd hmeans.1 (by decide)

/-- With the first consumer alone there is nothing wrong. -/
theorem emptyMeansShutdown_singleConsumer : Meets step EmptyMeansShutdown (init Bool 10)
    [.push false (.delete []), .pushLock false, .popBatch true 1000, .popBatchLock true, .popBatchRelock true] :=
  (meets_emptyMeansShutdown_iff 10 _).2.2 true (by decide)

end WriteQueue

end KvStorageEngine
