import KvStorageEngine.Engine.Correctness.ThreadsInvariant

/-!
# `Engine.Correctness.CleanShutdown` — what the destructor leaves behind

When the destructor has joined the writer, every request that was ever accepted has been carried out and acknowledged, if
no call for a batch has thrown (`requests_settled`). When it has returned, no memtable is left that was on its way to a
table, and nothing changes the engine any more, with exceptions or without (`engine_at_rest`).
-/

namespace KvStorageEngine

open Run

variable [Platform]

namespace EngineThreads

variable {κ : Type} [DecidableEq κ] {s s' : EngineThreads κ} {maxSize first : Nat}

/-! ## A. What was accepted is carried out

The writer thread leaves its loop only over a queue that is shut down and empty, so when it is joined the queue has
given out all it accepted and the writer has nothing in its hand: what was accepted is what was carried out. -/

omit [DecidableEq κ] in
/-- When the writer has left its loop there is nothing left to do. -/
theorem Inv.settled (h : Inv maxSize first s) (hwriter : s.writer = .exited) :
    s.executed = s.queue.accepted ∧ ∀ r ∈ s.queue.accepted, s.queue.completions r.id = some true := by
  have hplaced := h.placed
  have htaken := h.taken
  obtain ⟨acked, hexecuted, hacked⟩ := h.acknowledged
  simp only [Placed, hwriter] at hplaced
  simp only [inHand, hwriter, List.append_nil] at htaken
  simp only [unacknowledged, hwriter, List.append_nil] at hexecuted
  have hall : s.executed = s.queue.accepted := by
    rw [← h.queue.fifo, htaken, hplaced.2, List.append_nil]
  exact ⟨hall, fun r hr => hacked r (by rwa [← hexecuted, hall])⟩

omit [DecidableEq κ] in
/-- Past the first join the writer has left its loop. -/
theorem Orderly.writer_exited (h : Orderly s) (hcalled : s.destructor ≠ .notCalled)
    (hjoined : s.destructor ≠ .joiningWriter) : s.writer = .exited := by
  have hphase := h.phase
  unfold Phase at hphase
  cases hd : s.destructor with
  | notCalled => exact absurd hd hcalled
  | joiningWriter => exact absurd hd hjoined
  | joiningFlush | joiningCompaction | returned =>
      simp only [hd] at hphase
      refine h.writer ?_
      tauto

/-- What was carried out is not taken back. -/
theorem executed_step {op : EngineThreadsOp κ} (hs : s.step op = some s') : s.executed <+: s'.executed := by
  cases Effect.of_step hs with
  | applyNext _ => exact List.prefix_append _ _
  | call | flushIgnored | flush | popBatch | popLock | exit | gotBatch | applied | throwsApplying | throwsChecking
  | noRotation | rotation | complete | nextBatch | flushTake | flushAgain | flushExit | flushInstall | flushReset | compact
  | compactionExit | destroy | joinWriter | joinFlush | joinCompaction => exact List.prefix_refl _

/-- What was carried out stays so. -/
theorem executed_of_exec {t : EngineThreads κ} {ops : List (EngineThreadsOp κ)} (h : exec step s ops = some t) :
    s.executed <+: t.executed :=
  exec_invariant (I := fun u => s.executed <+: u.executed) (List.prefix_refl _)
    (fun _ _ _ hpre hs => hpre.trans (executed_step hs)) h

/-- **Every request is carried out once, in order, before its promise says so, and none is lost at the shutdown.** In
    every state of every run in which no call for a batch throws: what was carried out, what the writer has taken out
    and what waits in the queue are, together and in this order, the requests that the queue has accepted, no two of
    them with one promise; the next sequence number counts what was carried out; a promise that says `true` is that of
    a request that was carried out, and one that says `false` that of a request that was refused. What was carried out
    is never taken back. Once the destructor has joined the writer, every accepted request was carried out and its
    promise says so. -/
theorem requests_settled (maxSize : Nat) {engine : StorageEngine} (himm : engine.immutableMemtable = none)
    {ops : List (EngineThreadsOp κ)} (hops : ∀ op ∈ ops, isThrow op = false) {s : EngineThreads κ}
    (h : exec step (start κ maxSize engine) ops = some s) :
    s.executed ++ s.inHand ++ s.queue.queue = s.queue.accepted ∧ (s.queue.accepted.map (·.id)).Nodup ∧
      s.engine.seqNumber = engine.seqNumber + s.executed.length ∧
      (∀ id, s.queue.completions id = some true → ∃ r ∈ s.executed, r.id = id) ∧
      (∀ id, s.queue.completions id = some false → ∃ r ∈ s.queue.refused, r.id = id ∧ r ∉ s.queue.accepted) ∧
      (∀ further t, exec step s further = some t → s.executed <+: t.executed) ∧
      (s.destructor ≠ .notCalled → s.destructor ≠ .joiningWriter →
        s.executed = s.queue.accepted ∧ ∀ r ∈ s.queue.accepted, s.queue.completions r.id = some true) := by
  have hinv := inv_of_exec hops h
  refine ⟨?_, hinv.distinct, hinv.numbered, ?_, ?_, fun further t ht => executed_of_exec ht, ?_⟩
  · rw [← hinv.taken]
    exact hinv.queue.fifo
  · intro id hid
    rcases hinv.decided id true hid with ⟨r, hr, hrid, -⟩ | ⟨r, hr, -, hfalse⟩
    · exact ⟨r, hr, hrid⟩
    · exact absurd hfalse (by decide)
  · intro id hid
    rcases hinv.decided id false hid with ⟨r, hr, -, htrue⟩ | ⟨r, hr, hrid, -⟩
    · exact absurd htrue (by decide)
    · exact ⟨r, hr, hrid, fun hmem => (hinv.queue.refused r hr).2 r hmem rfl⟩
  · intro hcalled hjoined
    exact hinv.settled ((orderly_of_exec himm h).writer_exited hcalled hjoined)

/-! ## B. The engine at rest

When the destructor returns, all threads have left. `AtRest` says what that leaves, and no step changes it any more. -/

/-- The destructor has returned. -/
structure AtRest (s : EngineThreads κ) : Prop where
  returned : s.destructor = .returned
  shutdown : s.shutdown = true
  closed : s.queue.shutdown = true
  writer : s.writer = .exited
  flusher : s.flusher = .exited
  compaction : s.compactionExited = true

omit [DecidableEq κ] in
/-- With the destructor back, the engine is at rest. -/
theorem Orderly.atRest (h : Orderly s) (hreturned : s.destructor = .returned) : AtRest s := by
  have hphase := h.phase
  simp only [Phase, hreturned] at hphase
  obtain ⟨hclosed, hshut, hflusher, hexited⟩ := hphase
  exact ⟨hreturned, hshut, hclosed, h.writer hshut, hflusher, hexited⟩

/-- Only callers move in an engine at rest, and their requests are refused. -/
theorem AtRest.step (h : AtRest s) {op : EngineThreadsOp κ} (hs : s.step op = some s') :
    AtRest s' ∧ s'.engine = s.engine ∧ s'.queue.accepted = s.queue.accepted ∧ s'.executed = s.executed := by
  have hwriter := h.writer
  have hflusher := h.flusher
  have hreturned := h.returned
  cases Effect.of_step hs with
  | call hop hq =>
      refine ⟨⟨h.returned, h.shutdown, shutdown_step hq h.closed, h.writer, h.flusher, h.compaction⟩, rfl, ?_, rfl⟩
      obtain ⟨-, -, -, hdecides⟩ := call_effect hop hq
      cases hdecides with
      | nothing _ haccepted _ _ | refuses _ _ _ haccepted _ _ => exact haccepted
      | accepts _ hopen _ _ _ _ => exact absurd (h.closed.symm.trans hopen) (by decide)
  | flushIgnored _ => exact ⟨h, rfl, rfl, rfl⟩
  | flush hopen _ => exact absurd (h.shutdown.symm.trans hopen) (by decide)
  | compact _ hpc => exact absurd (h.compaction.symm.trans hpc) (by decide)
  | compactionExit _ hpc => exact absurd (h.compaction.symm.trans hpc) (by decide)
  | popBatch hpc | popLock _ hpc | exit hpc | gotBatch hpc | applyNext hpc | applied hpc | throwsApplying hpc
  | throwsChecking hpc | noRotation hpc | rotation hpc | complete hpc | nextBatch hpc =>
      exact absurd (hwriter.symm.trans hpc) (by simp)
  | flushTake hpc | flushAgain hpc | flushExit hpc | flushInstall hpc | flushReset hpc =>
      exact absurd (hflusher.symm.trans hpc) (by simp)
  | destroy hpc | joinWriter hpc | joinFlush hpc | joinCompaction hpc =>
      exact absurd (hreturned.symm.trans hpc) (by decide)

/-- **The destructor leaves no memtable on its way to a table, and nothing runs after it.** When it has returned, every
    memtable that was rotated out was written to a table and none is left; and callers that go on with calls on the
    destroyed object, which nothing in the code prevents, would change neither the engine nor what was accepted and
    carried out. Before, as long as the writer is in its loop `shutdown_` is not set, so that no rotation of the
    writer's is given up. -/
theorem engine_at_rest (maxSize : Nat) {engine : StorageEngine} (himm : engine.immutableMemtable = none)
    {ops : List (EngineThreadsOp κ)} {s : EngineThreads κ} (h : exec step (start κ maxSize engine) ops = some s) :
    (s.writer ≠ .exited → s.shutdown = false) ∧
      (s.destructor = .returned → s.engine.immutableMemtable = none ∧
        ∀ further t, exec step s further = some t → t.destructor = .returned ∧ t.engine = s.engine ∧
          t.queue.accepted = s.queue.accepted ∧ t.executed = s.executed) := by
  have horder := orderly_of_exec himm h
  refine ⟨fun hwriter => ?_, fun hreturned => ⟨?_, fun further t ht => ?_⟩⟩
  · by_contra hshut
    exact hwriter (horder.writer (by simpa using hshut))
  · have hpending := horder.pending
    simp only [Pending, (horder.atRest hreturned).flusher] at hpending
    exact hpending.2.1
  · have hrest := exec_invariant
      (I := fun u : EngineThreads κ => AtRest u ∧ u.engine = s.engine ∧ u.queue.accepted = s.queue.accepted ∧
        u.executed = s.executed)
      ⟨horder.atRest hreturned, rfl, rfl, rfl⟩
      (fun u op v hu hs => by
        obtain ⟨hv, hengine, haccepted, hexecuted⟩ := hu.1.step hs
        exact ⟨hv, hengine.trans hu.2.1, haccepted.trans hu.2.2.1, hexecuted.trans hu.2.2.2⟩) ht
    exact ⟨hrest.1.returned, hrest.2⟩

/-- One caller: a request that the writer has taken out when the memtable is rotated and the destructor called, and a
    second one that comes too late. -/
def closingRun : List (EngineThreadsOp Unit) :=
  [.push () (.put [107] [118]), .pushLock (), .popBatch, .popBatchLock, .popBatchRelock, .gotBatch, .applyNext, .flush,
    .push () (.delete [107]), .destroy]

/-- What the threads do until the destructor has returned. -/
def closingRest : List (EngineThreadsOp Unit) :=
  [.pushLock (), .applied, .checkFlush, .complete, .complete, .popBatch, .popBatchLock, .gotBatch, .join, .flushTake,
    .flushInstall, .flushReset, .compactionExit, .flushTake, .join, .join]

omit [Platform] in
theorem requests_settled_closingRun : letI := Platform.sample
    ∃ s : EngineThreads Unit, exec step (start Unit 10 (StorageEngine.init [] 0)) (closingRun ++ closingRest) = some s ∧
      s.executed = [⟨0, .put [107] [118]⟩] ∧ s.queue.accepted = [⟨0, .put [107] [118]⟩] ∧
      s.queue.completions 0 = some true := by
  let := Platform.sample
  have hrun : (exec step (start Unit 10 (StorageEngine.init [] 0)) (closingRun ++ closingRest)).map
      (fun s => (s.destructor, s.queue.accepted)) = some (.returned, [⟨0, .put [107] [118]⟩]) := by decide
  obtain ⟨s, hs, hfields⟩ := Option.map_eq_some_iff.mp hrun
  obtain ⟨hreturned, haccepted⟩ := Prod.mk.inj hfields
  obtain ⟨-, -, -, -, -, -, hsettled⟩ := requests_settled 10 rfl (by decide) hs
  obtain ⟨hexecuted, hacked⟩ := hsettled (by simp [hreturned]) (by simp [hreturned])
  exact ⟨s, hs, hexecuted.trans haccepted, haccepted, hacked ⟨0, .put [107] [118]⟩ (by simp [haccepted])⟩

omit [Platform] in
theorem engine_at_rest_closingRun : letI := Platform.sample
    ∃ s : EngineThreads Unit, exec step (start Unit 10 (StorageEngine.init [] 0)) (closingRun ++ closingRest) = some s ∧
      s.engine.immutableMemtable = none ∧ ∃ t, exec step s [.push () (.delete [107]), .pushLock ()] = some t ∧
        t.engine = s.engine := by
  let := Platform.sample
  have hrun : (exec step (start Unit 10 (StorageEngine.init [] 0)) (closingRun ++ closingRest)).map
      (fun s => (s.destructor, (exec step s [.push () (.delete [107]), .pushLock ()]).isSome)) =
      some (.returned, true) := by decide
  obtain ⟨s, hs, hfields⟩ := Option.map_eq_some_iff.mp hrun
  obtain ⟨hreturned, hmore⟩ := Prod.mk.inj hfields
  obtain ⟨t, ht⟩ := Option.isSome_iff_exists.mp hmore
  obtain ⟨himm, hrest⟩ := (engine_at_rest 10 rfl hs).2 hreturned
  exact ⟨s, hs, himm, t, ht, (hrest _ t ht).2.1⟩

end EngineThreads

end KvStorageEngine
