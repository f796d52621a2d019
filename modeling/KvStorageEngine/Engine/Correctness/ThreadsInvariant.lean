import KvStorageEngine.Engine.Correctness.EmptyBatch
import KvStorageEngine.Engine.Correctness.QueueFifo
import KvStorageEngine.Engine.Shutdown

/-!
# `Engine.Correctness.ThreadsInvariant` — the invariants of the engine's threads

Two invariants of the runs of `Engine.Shutdown`. `Inv` is about the requests: they are carried out in the order in which
the queue accepted them, each under the next sequence number, and no promise is fulfilled before; this holds as long as
no call for a batch throws (`isThrow`). `Orderly` is about the threads: the destructor goes by them one after the other,
`shutdown_` is set when the writer has left its loop, and `flush_pending_` says whether there is a memtable that the
flush thread has not seen.
-/

namespace KvStorageEngine

open Run

variable [Platform]

namespace EngineThreads

variable {κ : Type} [DecidableEq κ] {s s' : EngineThreads κ}

/-! ## A. The queue and its consumer

A request that the queue has given out is in the writer's hand until it is carried out, and then waits for its
promise; `inHand` and `unacknowledged` read both off the writer's place. `Inv` ties them to what the queue has removed
and to the sequence number. -/

/-- An exception in a call for a batch. -/
def isThrow : EngineThreadsOp κ → Bool
  | .throws _ => true
  | _ => false

/-- The requests that the writer has taken out and not carried out. -/
def inHand (s : EngineThreads κ) : List QueuedRequest :=
  match s.writer with
  | .popping =>
    match s.queue.threads none with
    | .returned batch => batch
    | _ => []
  | .applying batch _ => batch
  | .calling | .checking _ | .completing _ _ | .exited => []

/-- The requests that were carried out and whose promises are still to be fulfilled. -/
def unacknowledged (s : EngineThreads κ) : List QueuedRequest :=
  match s.writer with
  | .applying _ results | .checking results | .completing _ results => results
  | .calling | .popping | .exited => []

/-- The queue's part of the writer's place. -/
def Placed (s : EngineThreads κ) : Prop :=
  match s.writer with
  | .calling | .applying _ _ | .checking _ => ∃ taken, s.queue.threads none = .returned taken
  | .completing success _ => success = true ∧ ∃ taken, s.queue.threads none = .returned taken
  | .popping =>
    match s.queue.threads none with
    | .batching n => n = maxBatchSize
    | .yielded n => n = maxBatchSize ∧ s.queue.queue ≠ []
    | .returned batch => batch = [] → s.queue.shutdown = true ∧ s.queue.queue = []
    | .pushing _ | .popping => False
  | .exited => s.queue.shutdown = true ∧ s.queue.queue = []

/-- The queue and its requests, for an engine that starts with the sequence number `first`. -/
structure Inv (maxSize first : Nat) (s : EngineThreads κ) : Prop where
  queue : WriteQueue.QueueInv maxSize s.queue
  placed : Placed s
  taken : s.queue.removed = s.executed ++ s.inHand
  numbered : s.engine.seqNumber = first + s.executed.length
  distinct : (s.queue.accepted.map (·.id)).Nodup
  acknowledged : ∃ acked, s.executed = acked ++ s.unacknowledged ∧ ∀ r ∈ acked, s.queue.completions r.id = some true
  decided : ∀ id success, s.queue.completions id = some success →
    (∃ r ∈ s.executed, r.id = id ∧ success = true) ∨ ∃ r ∈ s.queue.refused, r.id = id ∧ success = false

/-! ## B. The steps of the queue -/

section Queue

variable {q q' : WriteQueue (Option κ)} {op : EngineThreadsOp κ} {qop : QueueOp (Option κ)}

/-- What a caller's step decides about its request. -/
inductive Decides (q q' : WriteQueue (Option κ)) : Prop where
  | nothing (hqueue : q'.queue = q.queue) (haccepted : q'.accepted = q.accepted)
      (hcompletions : q'.completions = q.completions) (hrefused : q'.refused = q.refused)
  | accepts {i : κ} {r : QueuedRequest} (hpc : q.threads (some i) = .pushing r) (hopen : q.shutdown = false)
      (hqueue : q'.queue = q.queue ++ [r]) (haccepted : q'.accepted = q.accepted ++ [r])
      (hcompletions : q'.completions = q.completions) (hrefused : q'.refused = q.refused)
  | refuses {i : κ} {r : QueuedRequest} (hpc : q.threads (some i) = .pushing r) (hshut : q.shutdown = true)
      (hqueue : q'.queue = q.queue) (haccepted : q'.accepted = q.accepted)
      (hcompletions : q'.completions = Function.update q.completions r.id (some false))
      (hrefused : q'.refused = q.refused ++ [r])

omit [Platform] in
/-- A caller's place is not the writer's. -/
theorem threads_caller (q : WriteQueue (Option κ)) (i : κ) (pc : QueuePc) :
    (q.setPc (some i) pc).threads none = q.threads none := by
  rw [WriteQueue.threads_setPc, if_neg (Option.some_ne_none i).symm]

omit [Platform] in
/-- A caller's step leaves the writer's place in the queue and what was taken out as they are. -/
theorem call_effect (hop : OfCaller op qop) (h : q.step qop = some q') :
    q'.threads none = q.threads none ∧ q'.removed = q.removed ∧ q'.shutdown = q.shutdown ∧ Decides q q' := by
  cases hop with
  | push i request =>
      unfold WriteQueue.step at h; dsimp only at h; split at h <;> try contradiction
      obtain rfl := Option.some.inj h
      exact ⟨threads_caller _ i _, rfl, rfl, .nothing rfl rfl rfl rfl⟩
  | pushLock i =>
      unfold WriteQueue.step at h; dsimp only at h; split at h <;> try contradiction
      next r hpc =>
        split_ifs at h with hwait hshut
        · obtain rfl := Option.some.inj h
          exact ⟨threads_caller _ i _, rfl, rfl, .refuses hpc hshut rfl rfl rfl rfl⟩
        · obtain rfl := Option.some.inj h
          exact ⟨threads_caller _ i _, rfl, rfl,
            .accepts hpc (by simpa using hshut) rfl rfl rfl rfl⟩

omit [Platform] in
/-- The writer in `popBatch`: the queue is shut down and empty, or the writer waits for more, or takes a batch. -/
theorem lock_effect (hop : OfWriter op qop) (h : q.step qop = some q') : ∃ n,
    (q.threads none = .batching n ∧ q.queue = [] ∧ q.shutdown = true ∧ q' = q.setPc none (.returned [])) ∨
      (q.threads none = .batching n ∧ q.queue ≠ [] ∧ q' = q.setPc none (.yielded n)) ∨
      ((q.threads none = .batching n ∧ q.queue ≠ [] ∨ q.threads none = .yielded n) ∧ q' = q.take none n) := by
  cases hop with
  | popBatchLock =>
      cases hpc : q.threads none with
      | batching n =>
          refine ⟨n, ?_⟩
          rcases WriteQueue.popBatchLock_cases hpc h with ⟨hempty, hshut, rfl⟩ | ⟨hsome, -, rfl⟩ | ⟨hsome, -, rfl⟩
          · exact Or.inl ⟨rfl, hempty, hshut, rfl⟩
          · exact Or.inr (Or.inl ⟨rfl, hsome, rfl⟩)
          · exact Or.inr (Or.inr ⟨Or.inl ⟨rfl, hsome⟩, rfl⟩)
      | returned | pushing | popping | yielded =>
          unfold WriteQueue.step at h
          simp only [hpc] at h
          contradiction
  | popBatchRelock =>
      unfold WriteQueue.step at h; dsimp only at h; split at h <;> try contradiction
      next n hpc => exact ⟨n, Or.inr (Or.inr ⟨Or.inr hpc, (Option.some.inj h).symm⟩)⟩

omit [Platform] in
/-- The writer calls `popBatch`. -/
theorem popBatch_effect {n : Nat} (h : q.step (.popBatch none n) = some q') : q' = q.setPc none (.batching n) := by
  unfold WriteQueue.step at h; dsimp only at h; split at h <;> try contradiction
  exact (Option.some.inj h).symm

end Queue

/-! ## C. One step

Three kinds of steps matter to the requests: a caller's step in `push`, the writer's steps in `popBatch`, and the
fulfilment of a promise. Every other step of the writer is a move (`Moved`), and the other threads leave the requests
alone. -/

omit [Platform] [DecidableEq κ] in
/-- Only a write takes a sequence number. -/
theorem seqNumber_write [Platform] (e : StorageEngine) (request : WriteRequest) :
    (e.write request).seqNumber = e.seqNumber + 1 := by
  cases request <;> rfl

omit [DecidableEq κ] in
theorem seqNumber_flushTable (e : StorageEngine) (imm : MemTable) : (e.flushTable imm).seqNumber = e.seqNumber := by
  unfold StorageEngine.flushTable
  split_ifs <;> rfl

theorem seqNumber_rotate {e e' : StorageEngine} (h : e.rotate = some e') : e'.seqNumber = e.seqNumber := by
  unfold StorageEngine.rotate at h
  split at h <;> try contradiction
  exact Option.some.inj h ▸ rfl

theorem seqNumber_compact (e : StorageEngine) (level : Nat) :
    (if level = 0 then e.compactL0toL1 else e.compactlevelN level).seqNumber = e.seqNumber := by
  split_ifs
  · unfold StorageEngine.compactL0toL1
    split <;> rfl
  · unfold StorageEngine.compactlevelN
    split <;> rfl

variable {maxSize first : Nat}

theorem inv_start {engine : StorageEngine} : Inv maxSize engine.seqNumber (start κ maxSize engine) where
  queue := WriteQueue.QueueInv.init (Option κ) maxSize
  placed := ⟨[], rfl⟩
  taken := rfl
  numbered := rfl
  distinct := List.nodup_nil
  acknowledged := ⟨[], rfl, by simp⟩
  decided id success h := absurd h (by simp [start, WriteQueue.init])

omit [DecidableEq κ] in
/-- A step that touches neither the queue nor the writer, and uses no sequence number. -/
theorem Inv.of_eq (h : Inv maxSize first s) (hqueue : s'.queue = s.queue) (hwriter : s'.writer = s.writer)
    (hexecuted : s'.executed = s.executed) (hseq : s'.engine.seqNumber = s.engine.seqNumber) :
    Inv maxSize first s' := by
  have hhand : s'.inHand = s.inHand := by unfold inHand; rw [hwriter, hqueue]
  have hunack : s'.unacknowledged = s.unacknowledged := by unfold unacknowledged; rw [hwriter]
  refine ⟨hqueue ▸ h.queue, ?_, ?_, ?_, hqueue ▸ h.distinct, ?_, ?_⟩
  · have hplaced := h.placed
    unfold Placed at hplaced ⊢
    rwa [hwriter, hqueue]
  · rw [hqueue, hexecuted, hhand]
    exact h.taken
  · rw [hexecuted, hseq]
    exact h.numbered
  · rw [hexecuted, hunack, hqueue]
    exact h.acknowledged
  · rw [hexecuted, hqueue]
    exact h.decided

/-- A caller's step. -/
theorem Inv.call (h : Inv maxSize first s) {op : EngineThreadsOp κ} {qop : QueueOp (Option κ)}
    {queue : WriteQueue (Option κ)} (hop : OfCaller op qop) (hq : s.queue.step qop = some queue) :
    Inv maxSize first { s with queue } := by
  obtain ⟨hthread, hremoved, hshut, hdecides⟩ := call_effect hop hq
  have hqueue := h.queue.step hq
  have hhand : inHand { s with queue } = s.inHand := by
    unfold inHand
    simp only [hthread]
  -- the queue of a writer that waits for nothing more stays empty
  have hempty : s.queue.shutdown = true → s.queue.queue = [] → queue.queue = [] := by
    intro hs hnil
    cases hdecides with
    | nothing hqueue _ _ _ => exact hqueue.trans hnil
    | accepts _ hopen _ _ _ _ => exact absurd (hs.symm.trans hopen) (by decide)
    | refuses _ _ hqueue _ _ _ => exact hqueue.trans hnil
  have hsome : s.queue.queue ≠ [] → queue.queue ≠ [] := by
    intro hne
    cases hdecides with
    | nothing hqueue _ _ _ => rwa [hqueue]
    | accepts _ _ hqueue _ _ _ => simp [hqueue]
    | refuses _ _ hqueue _ _ _ => rwa [hqueue]
  refine ⟨hqueue, ?_, ?_, h.numbered, ?_, ?_, ?_⟩
  · have hplaced := h.placed
    unfold Placed at hplaced ⊢
    dsimp only at hplaced ⊢
    rw [hthread, hshut]
    cases hpc : s.writer with
    | calling | applying _ _ | checking _ | completing _ _ => simpa only [hpc] using hplaced
    | popping =>
        simp only [hpc] at hplaced
        cases hq' : s.queue.threads none with
        | returned batch =>
            simp only [hq'] at hplaced ⊢
            exact fun hnil => ⟨(hplaced hnil).1, hempty (hplaced hnil).1 (hplaced hnil).2⟩
        | yielded n =>
            simp only [hq'] at hplaced ⊢
            exact ⟨hplaced.1, hsome hplaced.2⟩
        | batching n =>
            simp only [hq'] at hplaced ⊢
            exact hplaced
        | pushing r | popping =>
            simp only [hq'] at hplaced
    | exited =>
        simp only [hpc] at hplaced ⊢
        exact ⟨hplaced.1, hempty hplaced.1 hplaced.2⟩
  · rw [hhand]
    exact hremoved.trans h.taken
  · cases hdecides with
    | nothing _ haccepted _ _ | refuses _ _ _ haccepted _ _ => exact haccepted ▸ h.distinct
    | @accepts i r hpc _ _ haccepted _ _ =>
        rw [haccepted, List.map_append, List.nodup_append]
        refine ⟨h.distinct, by simp, ?_⟩
        intro id hid id' hid'
        obtain ⟨x, hx, rfl⟩ := List.mem_map.mp hid
        obtain rfl := List.mem_singleton.mp hid'
        exact (h.queue.waiting (some i) r hpc).2 x (List.mem_append_left _ hx)
  · obtain ⟨acked, hexecuted, hacked⟩ := h.acknowledged
    refine ⟨acked, hexecuted, fun r hr => ?_⟩
    cases hdecides with
    | nothing _ _ hcompletions _ | accepts _ _ _ _ hcompletions _ =>
        show queue.completions r.id = some true
        rw [hcompletions]
        exact hacked r hr
    | @refuses i r' hpc _ _ _ hcompletions _ =>
        -- the promise of a request that waits is nobody else's
        have hmem : r ∈ s.queue.accepted := by
          rw [← h.queue.fifo, h.taken, hexecuted]
          simp [hr]
        have hne := (h.queue.waiting (some i) r' hpc).2 r (List.mem_append_left _ hmem)
        show queue.completions r.id = some true
        rw [hcompletions, Function.update_of_ne hne]
        exact hacked r hr
  · intro id success hid
    cases hdecides with
    | nothing _ _ hcompletions hrefused | accepts _ _ _ _ hcompletions hrefused =>
        rw [hcompletions] at hid
        have hold := h.decided id success hid
        rwa [← hrefused] at hold
    | @refuses i r' hpc _ _ _ hcompletions hrefused =>
        rw [hcompletions] at hid
        by_cases he : id = r'.id
        · subst he
          rw [Function.update_self] at hid
          exact Or.inr ⟨r', by simp [hrefused], rfl, (Option.some.inj hid).symm⟩
        · rw [Function.update_of_ne he] at hid
          refine (h.decided id success hid).imp_right ?_
          rintro ⟨x, hx, hxid⟩
          exact ⟨x, by simp [hrefused, hx], hxid⟩

/-- What the writer thread changes when it moves from one place to another. -/
structure Moved (s s' : EngineThreads κ) : Prop where
  queue : s'.queue = s.queue
  placed : Placed s'
  hand : s'.executed ++ s'.inHand = s.executed ++ s.inHand
  numbered : s'.engine.seqNumber + s.executed.length = s.engine.seqNumber + s'.executed.length
  acknowledged : ∀ acked, s.executed = acked ++ s.unacknowledged → s'.executed = acked ++ s'.unacknowledged
  executed : ∀ r ∈ s.executed, r ∈ s'.executed

omit [DecidableEq κ] in
/-- A move of the writer keeps the requests in order. -/
theorem Inv.move (h : Inv maxSize first s) (hm : Moved s s') : Inv maxSize first s' := by
  refine ⟨hm.queue ▸ h.queue, hm.placed, ?_, ?_, hm.queue ▸ h.distinct, ?_, ?_⟩
  · rw [hm.queue, hm.hand]
    exact h.taken
  · have hseq := hm.numbered
    have hnumbered := h.numbered
    omega
  · obtain ⟨acked, hexecuted, hacked⟩ := h.acknowledged
    exact ⟨acked, hm.acknowledged acked hexecuted, hm.queue ▸ hacked⟩
  · intro id success hid
    rw [hm.queue] at hid ⊢
    refine (h.decided id success hid).imp_left ?_
    rintro ⟨r, hr, hrid⟩
    exact ⟨r, hm.executed r hr, hrid⟩

/-- The writer's step inside `popBatch`. -/
theorem Inv.popLock (h : Inv maxSize first s) {op : EngineThreadsOp κ} {qop : QueueOp (Option κ)}
    {queue : WriteQueue (Option κ)} (hop : OfWriter op qop) (hpc : s.writer = .popping)
    (hq : s.queue.step qop = some queue) : Inv maxSize first { s with queue } := by
  have hqueue := h.queue.step hq
  obtain ⟨n, hcases⟩ := lock_effect hop hq
  have hplaced := h.placed
  have htaken := h.taken
  unfold Placed at hplaced
  unfold inHand at htaken
  simp only [hpc] at hplaced htaken
  have hself : ∀ pc, (s.queue.setPc none pc).threads none = pc := fun pc => by
    rw [WriteQueue.threads_setPc, if_pos rfl]
  rcases hcases with ⟨hbatching, hempty, hshut, rfl⟩ | ⟨hbatching, hsome, rfl⟩ | ⟨hbatching, rfl⟩
  · refine ⟨hqueue, ?_, ?_, h.numbered, h.distinct, h.acknowledged, h.decided⟩
    · simp only [Placed, hpc, hself]
      exact fun _ => ⟨hshut, hempty⟩
    · simp only [inHand, hpc, hself]
      simp only [hbatching] at htaken
      exact htaken
  · refine ⟨hqueue, ?_, ?_, h.numbered, h.distinct, h.acknowledged, h.decided⟩
    · simp only [Placed, hpc, hself]
      simp only [hbatching] at hplaced
      exact ⟨hplaced, hsome⟩
    · simp only [inHand, hpc, hself]
      simp only [hbatching] at htaken
      exact htaken
  · have hthread : (s.queue.take none n).threads none = .returned (s.queue.queue.take n) := by
      rw [WriteQueue.threads_take, if_pos rfl]
    have hn : n = maxBatchSize ∧ s.queue.queue ≠ [] := by
      rcases hbatching with ⟨hbatching, hsome⟩ | hyielded
      · simp only [hbatching] at hplaced
        exact ⟨hplaced, hsome⟩
      · simpa only [hyielded] using hplaced
    have hremoved : s.queue.removed = s.executed := by
      rcases hbatching with ⟨hbatching, -⟩ | hyielded
      · simpa only [hbatching, List.append_nil] using htaken
      · simpa only [hyielded, List.append_nil] using htaken
    refine ⟨hqueue, ?_, ?_, h.numbered, h.distinct, h.acknowledged, h.decided⟩
    · simp only [Placed, hpc, hthread]
      intro hnil
      exact absurd hnil (WriteQueue.take_ne_nil hn.2 (by rw [hn.1]; decide))
    · simp only [inHand, hpc, hthread]
      show s.queue.removed ++ s.queue.queue.take n = _
      rw [hremoved]

omit [DecidableEq κ] in
/-- A promise is fulfilled. -/
theorem Inv.complete (h : Inv maxSize first s) {r : QueuedRequest} {results : List QueuedRequest}
    (hpc : s.writer = .completing true (r :: results)) :
    Inv maxSize first { s with queue := s.queue.fulfil r true, writer := .completing true results } := by
  obtain ⟨acked, hexecuted, hacked⟩ := h.acknowledged
  have hunack : s.unacknowledged = r :: results := by unfold unacknowledged; rw [hpc]
  rw [hunack] at hexecuted
  have hmem : r ∈ s.executed := by simp [hexecuted]
  have haccepted : r ∈ s.queue.accepted := by
    rw [← h.queue.fifo, h.taken]
    simp [hmem]
  have hplaced := h.placed
  have htaken := h.taken
  simp only [Placed, hpc] at hplaced
  simp only [inHand, hpc] at htaken
  have hq := h.queue
  refine ⟨⟨hq.maxSize_eq, hq.fifo, hq.bound, hq.below, hq.waiting, hq.apart, ?_⟩, ?_, ?_, h.numbered, h.distinct, ?_, ?_⟩
  · -- a refused request has another promise
    intro x hx
    obtain ⟨hfalse, hne⟩ := hq.refused x hx
    refine ⟨?_, hne⟩
    show Function.update s.queue.completions r.id (some true) x.id = some false
    rw [Function.update_of_ne (hne r haccepted).symm]
    exact hfalse
  · exact ⟨rfl, hplaced.2⟩
  · simp only [inHand]
    exact htaken
  · refine ⟨acked ++ [r], ?_, ?_⟩
    · simp only [unacknowledged]
      rw [hexecuted, List.append_assoc, List.singleton_append]
    · intro x hx
      show Function.update s.queue.completions r.id (some true) x.id = some true
      by_cases he : x.id = r.id
      · rw [he, Function.update_self]
      · rw [Function.update_of_ne he]
        refine hacked x ((List.mem_append.mp hx).resolve_right fun hxr => he ?_)
        rw [List.mem_singleton.mp hxr]
  · intro id success hid
    have hid : Function.update s.queue.completions r.id (some true) id = some success := hid
    by_cases he : id = r.id
    · subst he
      rw [Function.update_self] at hid
      exact Or.inl ⟨r, hmem, rfl, (Option.some.inj hid).symm⟩
    · rw [Function.update_of_ne he] at hid
      exact h.decided id success hid

/-- **One step.** -/
theorem Inv.step (h : Inv maxSize first s) {op : EngineThreadsOp κ} (hop : isThrow op = false)
    (hs : s.step op = some s') : Inv maxSize first s' := by
  have hplaced := h.placed
  cases Effect.of_step hs with
  | throwsApplying _ => exact absurd hop (by simp [isThrow])
  | throwsChecking _ => exact absurd hop (by simp [isThrow])
  | call hop hq => exact h.call hop hq
  | flushIgnored _ => exact h
  | flush _ hengine => exact h.of_eq rfl rfl rfl (seqNumber_rotate hengine)
  | flushTake _ _ | flushAgain _ _ _ _ | flushExit _ _ _ | flushReset _ | compactionExit _ _ | joinWriter _ _
  | joinFlush _ _ | joinCompaction _ _ => exact h.of_eq rfl rfl rfl rfl
  | flushInstall _ => exact h.of_eq rfl rfl rfl (seqNumber_flushTable ..)
  | compact level _ => exact h.of_eq rfl rfl rfl (seqNumber_compact ..)
  | @popBatch queue hpc hq =>
      have hqueue := h.queue.step hq
      obtain rfl := popBatch_effect hq
      have htaken := h.taken
      have hself : (s.queue.setPc none (.batching maxBatchSize)).threads none = .batching maxBatchSize := by
        rw [WriteQueue.threads_setPc, if_pos rfl]
      obtain ⟨acked, hexecuted, hacked⟩ := h.acknowledged
      simp only [inHand, hpc] at htaken
      simp only [unacknowledged, hpc] at hexecuted
      refine ⟨hqueue, ?_, ?_, h.numbered, h.distinct, ⟨acked, ?_, hacked⟩, h.decided⟩
      · simp only [Placed, hself]
      · simp only [inHand, hself]
        exact htaken
      · simpa only [unacknowledged] using hexecuted
  | popLock hop hpc hq => exact h.popLock hop hpc hq
  | exit hpc hq =>
      simp only [Placed, hpc, hq] at hplaced
      refine h.move ⟨rfl, ?_, ?_, rfl, ?_, fun _ hr => hr⟩
      · simpa only [Placed] using hplaced trivial
      · simp only [inHand, hpc, hq]
      · simp only [unacknowledged, hpc]
        exact fun _ hexecuted => hexecuted
  | gotBatch hpc hq hne =>
      refine h.move ⟨rfl, ?_, ?_, rfl, ?_, fun _ hr => hr⟩
      · simp only [Placed]
        exact ⟨_, hq⟩
      · simp only [inHand, hpc, hq]
      · simp only [unacknowledged, hpc]
        exact fun _ hexecuted => hexecuted
  | @applyNext r batch results hpc =>
      simp only [Placed, hpc] at hplaced
      refine h.move ⟨rfl, ?_, ?_, ?_, ?_, fun _ hr => List.mem_append_left _ hr⟩
      · simpa only [Placed] using hplaced
      · simp only [inHand, hpc, List.append_assoc, List.singleton_append]
      · rw [seqNumber_write, List.length_append, List.length_singleton]
        omega
      · intro acked hexecuted
        simp only [unacknowledged, hpc] at hexecuted ⊢
        rw [hexecuted, List.append_assoc]
  | applied hpc | noRotation hpc =>
      simp only [Placed, hpc] at hplaced
      refine h.move ⟨rfl, ?_, ?_, rfl, ?_, fun _ hr => hr⟩
      · simpa only [Placed, true_and] using hplaced
      · simp only [inHand, hpc]
      · simp only [unacknowledged, hpc]
        exact fun _ hexecuted => hexecuted
  | rotation hpc _ hengine =>
      simp only [Placed, hpc] at hplaced
      refine h.move ⟨rfl, ?_, ?_, ?_, ?_, fun _ hr => hr⟩
      · simpa only [Placed, true_and] using hplaced
      · simp only [inHand, hpc]
      · rw [seqNumber_rotate hengine]
      · simp only [unacknowledged, hpc]
        exact fun _ hexecuted => hexecuted
  | complete hpc =>
      simp only [Placed, hpc] at hplaced
      obtain ⟨rfl, -⟩ := hplaced
      exact h.complete hpc
  | nextBatch hpc =>
      simp only [Placed, hpc] at hplaced
      refine h.move ⟨rfl, ?_, ?_, rfl, ?_, fun _ hr => hr⟩
      · simpa only [Placed] using hplaced.2
      · simp only [inHand, hpc]
      · simp only [unacknowledged, hpc]
        exact fun _ hexecuted => hexecuted
  | @destroy queue hpc hq =>
      have hqueue := h.queue.step hq
      obtain rfl := Option.some.inj hq
      refine ⟨hqueue, ?_, h.taken, h.numbered, h.distinct, h.acknowledged, h.decided⟩
      unfold Placed at hplaced ⊢
      dsimp only at hplaced ⊢
      cases hwriter : s.writer with
      | calling | applying _ _ | checking _ | completing _ _ => simpa only [hwriter] using hplaced
      | popping =>
          simp only [hwriter] at hplaced
          cases hthread : s.queue.threads none with
          | returned batch =>
              simp only [hthread] at hplaced ⊢
              exact fun hnil => ⟨trivial, (hplaced hnil).2⟩
          | batching n | yielded n =>
              simp only [hthread] at hplaced ⊢
              exact hplaced
          | pushing r | popping => simp only [hthread] at hplaced
      | exited =>
          simp only [hwriter] at hplaced ⊢
          exact ⟨trivial, hplaced.2⟩

/-- In every run in which no call throws, the requests are kept in order. -/
theorem inv_of_exec {engine : StorageEngine} {ops : List (EngineThreadsOp κ)} (hops : ∀ op ∈ ops, isThrow op = false)
    (h : exec step (start κ maxSize engine) ops = some s) : Inv maxSize engine.seqNumber s :=
  exec_invariant_of_meets (C := fun _ op => isThrow op = false) inv_start (fun _ _ _ hi hop hs => hi.step hop hs)
    (meets_of_forall (fun op hop _ => hops op hop) _) h

/-! ## D. The order of the destructor

`~StorageEngine` joins the writer thread, then the flush thread, then the compaction thread, and sets `shutdown_`
after the first of them (`Phase`). So a rotation, which is the writer's, happens before that, and the flush thread is
still there to take it. -/

/-- The destructor goes by the threads one after the other. -/
def Phase (s : EngineThreads κ) : Prop :=
  match s.destructor with
  | .notCalled => s.shutdown = false
  | .joiningWriter => s.queue.shutdown = true ∧ s.shutdown = false
  | .joiningFlush => s.queue.shutdown = true ∧ s.shutdown = true
  | .joiningCompaction => s.queue.shutdown = true ∧ s.shutdown = true ∧ s.flusher = .exited
  | .returned => s.queue.shutdown = true ∧ s.shutdown = true ∧ s.flusher = .exited ∧ s.compactionExited = true

/-- `flush_pending_` says whether there is a memtable that the flush thread has not seen. -/
def Pending (s : EngineThreads κ) : Prop :=
  match s.flusher with
  | .waiting => s.flushPending = s.engine.immutableMemtable.isSome
  | .took imm => s.flushPending = false ∧ s.engine.immutableMemtable = some imm
  | .installed => s.flushPending = false ∧ s.engine.immutableMemtable.isSome = true
  | .exited => s.flushPending = false ∧ s.engine.immutableMemtable = none ∧ s.shutdown = true

/-- The threads and the destructor. -/
structure Orderly (s : EngineThreads κ) : Prop where
  phase : Phase s
  writer : s.shutdown = true → s.writer = .exited
  pending : Pending s

theorem orderly_start {engine : StorageEngine} (himm : engine.immutableMemtable = none) :
    Orderly (start κ maxSize engine) := by
  refine ⟨rfl, fun hshut => ?_, ?_⟩
  · simp [start] at hshut
  · simp [Pending, start, himm]

omit [Platform] in
/-- The queue stays closed. -/
theorem shutdown_step {q q' : WriteQueue (Option κ)} {qop : QueueOp (Option κ)} (hq : q.step qop = some q')
    (h : q.shutdown = true) : q'.shutdown = true := by
  cases WriteQueue.Effect.of_step hq with
  | push | enqueue | refuse | call | take => exact h
  | shutdown => rfl

theorem immutableMemtable_write (e : StorageEngine) (request : WriteRequest) :
    (e.write request).immutableMemtable = e.immutableMemtable := by
  cases request <;> rfl

theorem immutableMemtable_flushTable (e : StorageEngine) (imm : MemTable) :
    (e.flushTable imm).immutableMemtable = e.immutableMemtable := by
  unfold StorageEngine.flushTable
  split_ifs <;> rfl

theorem immutableMemtable_compact (e : StorageEngine) (level : Nat) :
    (if level = 0 then e.compactL0toL1 else e.compactlevelN level).immutableMemtable = e.immutableMemtable := by
  split_ifs
  · unfold StorageEngine.compactL0toL1
    split <;> rfl
  · unfold StorageEngine.compactlevelN
    split <;> rfl

theorem immutableMemtable_rotate {e e' : StorageEngine} (h : e.rotate = some e') :
    e.immutableMemtable = none ∧ e'.immutableMemtable.isSome = true := by
  unfold StorageEngine.rotate at h
  split at h <;> try contradiction
  next himm => exact ⟨himm, Option.some.inj h ▸ rfl⟩

omit [DecidableEq κ] in
/-- The destructor does not look at the engine and the writer, and sees the queue shut down if it was. -/
theorem Phase.of_eq (h : Phase s) (hdestructor : s'.destructor = s.destructor) (hshut : s'.shutdown = s.shutdown)
    (hqueue : s.queue.shutdown = true → s'.queue.shutdown = true) (hflusher : s.flusher = .exited → s'.flusher = .exited)
    (hexited : s'.compactionExited = s.compactionExited) : Phase s' := by
  unfold Phase at h ⊢
  rw [hdestructor, hshut, hexited]
  cases hd : s.destructor with
  | notCalled => simpa only [hd] using h
  | joiningWriter | joiningFlush =>
      simp only [hd] at h ⊢
      exact ⟨hqueue h.1, h.2⟩
  | joiningCompaction =>
      simp only [hd] at h ⊢
      exact ⟨hqueue h.1, h.2.1, hflusher h.2.2⟩
  | returned =>
      simp only [hd] at h ⊢
      exact ⟨hqueue h.1, h.2.1, hflusher h.2.2.1, h.2.2.2⟩

omit [DecidableEq κ] in
theorem Pending.of_eq (h : Pending s) (hflusher : s'.flusher = s.flusher) (hpending : s'.flushPending = s.flushPending)
    (himm : s'.engine.immutableMemtable = s.engine.immutableMemtable) (hshut : s.shutdown = true → s'.shutdown = true) :
    Pending s' := by
  unfold Pending at h ⊢
  rw [hflusher, hpending, himm]
  cases hf : s.flusher with
  | waiting | took _ | installed => simpa only [hf] using h
  | exited =>
      simp only [hf] at h ⊢
      exact ⟨h.1, h.2.1, hshut h.2.2⟩

omit [DecidableEq κ] in
/-- After a rotation the flush thread has something to do. -/
theorem Pending.rotation (h : Pending s) {engine : StorageEngine} (hopen : s.shutdown = false)
    (hengine : s.engine.rotate = some engine) (hflusher : s'.flusher = s.flusher) (hpending : s'.flushPending = true)
    (himm : s'.engine = engine) : Pending s' := by
  obtain ⟨hnone, hsome⟩ := immutableMemtable_rotate hengine
  unfold Pending at h ⊢
  rw [hflusher, hpending, himm]
  cases hf : s.flusher with
  | waiting => exact hsome.symm
  | took imm | installed => simp [hf, hnone] at h
  | exited =>
      simp only [hf] at h
      exact absurd (h.2.2.symm.trans hopen) (by decide)

/-- **One step.** -/
theorem Orderly.step (h : Orderly s) {op : EngineThreadsOp κ} (hs : s.step op = some s') : Orderly s' := by
  have hphase := h.phase
  have hpending := h.pending
  have hmoves : s.writer ≠ .exited → ∀ pc : WriterLoopPc, s.shutdown = true → pc = .exited :=
    fun hne _ hshut => absurd (h.writer hshut) hne
  cases Effect.of_step hs with
  | call hop hq | popLock hop _ hq =>
      exact ⟨hphase.of_eq rfl rfl (shutdown_step hq) id rfl, h.writer, hpending.of_eq rfl rfl rfl id⟩
  | flushIgnored _ => exact h
  | flush hopen hengine =>
      exact ⟨hphase.of_eq rfl rfl id id rfl, h.writer, hpending.rotation hopen hengine rfl rfl rfl⟩
  | popBatch hpc hq =>
      exact ⟨hphase.of_eq rfl rfl (shutdown_step hq) id rfl, hmoves (by simp [hpc]) _, hpending.of_eq rfl rfl rfl id⟩
  | exit hpc hq => exact ⟨hphase.of_eq rfl rfl id id rfl, fun _ => rfl, hpending.of_eq rfl rfl rfl id⟩
  | gotBatch hpc _ _ | applied hpc | throwsApplying hpc | throwsChecking hpc | noRotation hpc | complete hpc
  | nextBatch hpc =>
      exact ⟨hphase.of_eq rfl rfl id id rfl, hmoves (by simp [hpc]) _, hpending.of_eq rfl rfl rfl id⟩
  | @applyNext r batch results hpc =>
      exact ⟨hphase.of_eq rfl rfl id id rfl, hmoves (by simp [hpc]) _,
        hpending.of_eq rfl rfl (immutableMemtable_write s.engine r.request) id⟩
  | rotation hpc hopen hengine =>
      exact ⟨hphase.of_eq rfl rfl id id rfl, hmoves (by simp [hpc]) _, hpending.rotation hopen hengine rfl rfl rfl⟩
  | flushTake hpc himm =>
      exact ⟨hphase.of_eq rfl rfl id (by simp [hpc]) rfl, h.writer, rfl, himm⟩
  | flushAgain hpc _ _ _ =>
      refine ⟨hphase.of_eq rfl rfl id (by simp [hpc]) rfl, h.writer, ?_⟩
      simpa only [Pending, hpc] using hpending
  | flushExit hpc himm hshut =>
      refine ⟨hphase.of_eq rfl rfl id (by simp [hpc]) rfl, h.writer, ?_⟩
      simp only [Pending, hpc, himm] at hpending
      exact ⟨hpending, himm, hshut⟩
  | @flushInstall imm hpc =>
      refine ⟨hphase.of_eq rfl rfl id (by simp [hpc]) rfl, h.writer, ?_⟩
      simp only [Pending, hpc] at hpending
      refine ⟨hpending.1, ?_⟩
      rw [immutableMemtable_flushTable, hpending.2]
      rfl
  | flushReset hpc =>
      refine ⟨hphase.of_eq rfl rfl id (by simp [hpc]) rfl, h.writer, ?_⟩
      simp only [Pending, hpc] at hpending
      exact hpending.1
  | compact level _ =>
      exact ⟨hphase.of_eq rfl rfl id id rfl, h.writer,
        hpending.of_eq rfl rfl (immutableMemtable_compact s.engine level) id⟩
  | compactionExit hshut hpc =>
      refine ⟨?_, h.writer, hpending⟩
      unfold Phase at hphase ⊢
      cases hd : s.destructor <;> simp only [hd, hpc] at hphase ⊢
      all_goals first | exact hphase | exact absurd hphase.2.2.2 (by decide)
  | destroy hpc hq =>
      obtain rfl := Option.some.inj hq
      simp only [Phase, hpc] at hphase
      exact ⟨⟨rfl, hphase⟩, h.writer, hpending⟩
  | joinWriter hpc hwriter =>
      simp only [Phase, hpc] at hphase
      exact ⟨⟨hphase.1, rfl⟩, fun _ => hwriter, hpending.of_eq rfl rfl rfl fun _ => rfl⟩
  | joinFlush hpc hflusher =>
      simp only [Phase, hpc] at hphase
      exact ⟨⟨hphase.1, hphase.2, hflusher⟩, h.writer, hpending⟩
  | joinCompaction hpc hexited =>
      simp only [Phase, hpc] at hphase
      exact ⟨⟨hphase.1, hphase.2.1, hphase.2.2, hexited⟩, h.writer, hpending⟩

/-- The threads end in the order of the destructor, whatever throws. -/
theorem orderly_of_exec {engine : StorageEngine} (himm : engine.immutableMemtable = none)
    {ops : List (EngineThreadsOp κ)} (h : exec step (start κ maxSize engine) ops = some s) : Orderly s :=
  exec_invariant (orderly_start himm) (fun _ _ _ hi hs => hi.step hs) h

end EngineThreads

end KvStorageEngine
