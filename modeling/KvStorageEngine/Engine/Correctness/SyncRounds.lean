import KvStorageEngine.Engine.Correctness.ClosedLog

/-!
# `Engine.Correctness.SyncRounds` — no flush sleeps for long

`doSync` notifies the callers of `flush` without the mutex that they test their predicate under, so a notification can
get lost between a caller's test and its sleep. The next `doSync` makes up for it: its swap waits for the mutex, so that
the caller is asleep when it notifies. `flush_released` counts the swaps: at the third one after the call has its
generation, whatever the threads did in between, the caller is awake and finds its generation synced.
-/

namespace KvStorageEngine

open Run

namespace SyncSignals

variable {β ι : Type} [DecidableEq ι] {file₀ : List β} {s s' : SyncSignals β ι} {i : ι}

/-! ## A. What a swap does for a caller

The first swap takes the caller's generation, or finds it taken by the round under way; at the second that generation
is synced and the caller no longer sits between its test and its sleep; at the third the round before has woken it up.
`Nearer` lists these, and `Behind` is what ends the count: the caller has left the call. -/

def isSwap : SyncSignalsOp β ι → Bool
  | .swap => true
  | _ => false

/-- The caller is behind the call that had the generation `myGen`. -/
def Behind (myGen : Nat) (log : WriteAheadLog β ι) (i : ι) : Prop :=
  match log.flushers i with
  | .idle | .returned _ => myGen ≤ log.syncGeneration
  | .requested _ => myGen < log.syncGeneration
  | .waiting _ gen => myGen < gen ∧ gen ≤ log.syncGeneration

/-- What `k` swaps have done for a caller that has the generation `myGen`. -/
def Nearer (myGen k : Nat) (s : SyncSignals β ι) (i : ι) : Prop :=
  match k with
  | 0 => True
  | 1 => myGen ≤ s.log.syncedGeneration ∨ s.log.sync ≠ .idle
  | 2 => myGen ≤ s.log.syncedGeneration ∧ s.signals i ≠ .tested ∧
      (i ∈ s.waitSet → s.log.sync ≠ .idle ∨ ∃ last, s.loop = .stored last)
  | _ + 3 => myGen ≤ s.log.syncedGeneration ∧ s.signals i ≠ .tested ∧ i ∉ s.waitSet

/-- The call with the generation `myGen`, after `k` swaps, or something later. -/
def Released (before myGen k : Nat) (s : SyncSignals β ι) (i : ι) : Prop :=
  Behind myGen s.log i ∨
    s.log.flushers i = .waiting before myGen ∧ myGen ≤ s.log.syncGeneration ∧ Nearer myGen k s i

/-- A caller that has left its call stays behind it. -/
theorem behind_step {log log' : WriteAheadLog β ι} {walOp : WalOp β ι} {myGen : Nat} (h : Behind myGen log i)
    (hlog : log.step walOp = some log') : Behind myGen log' i := by
  have heff := WriteAheadLog.step_effect hlog
  cases walOp with
  | append entry =>
      obtain rfl : log' = _ := heff
      exact h
  | flushRequest j =>
      obtain rfl : log' = _ := heff
      unfold Behind at h ⊢
      by_cases hj : j = i
      · subst hj
        rw [WriteAheadLog.flushers_setPc_self]
        -- a caller that has asked for nothing since asks for a later generation
        have hle : myGen ≤ log.syncGeneration := by
          cases hf : log.flushers j <;> simp only [hf] at h <;> omega
        exact Nat.lt_succ_of_le hle
      · rw [WriteAheadLog.flushers_setPc_ne hj]
        have hgen : ({ log with syncGeneration := log.syncGeneration + 1 }.setPc j
            (.requested log.appended.length)).syncGeneration = log.syncGeneration + 1 := rfl
        rw [hgen]
        cases hf : log.flushers i <;> simp only [hf] at h ⊢ <;> omega
  | flushLoad j =>
      obtain ⟨before, hf, rfl⟩ := heff
      unfold Behind at h ⊢
      by_cases hj : j = i
      · subst hj
        rw [WriteAheadLog.flushers_setPc_self]
        simp only [hf] at h
        exact ⟨h, le_rfl⟩
      · rwa [WriteAheadLog.flushers_setPc_ne hj]
  | flushReturn j =>
      obtain ⟨before, gen, hf, hgen, rfl⟩ := heff
      unfold Behind at h ⊢
      by_cases hj : j = i
      · subst hj
        rw [WriteAheadLog.flushers_setPc_self]
        simp only [hf] at h
        exact h.1.le.trans h.2
      · rwa [WriteAheadLog.flushers_setPc_ne hj]
  | syncSwap | syncWrite | syncStore =>
      obtain ⟨hflushers, hgen, -⟩ := WriteAheadLog.sync_frame (by simp) hlog
      unfold Behind at h ⊢
      rwa [hflushers, hgen]

/-- A call goes on, or returns. -/
theorem waiting_step {log log' : WriteAheadLog β ι} {walOp : WalOp β ι} {before myGen : Nat}
    (h : log.flushers i = .waiting before myGen) (hgen : myGen ≤ log.syncGeneration)
    (hlog : log.step walOp = some log') :
    (log'.flushers i = .waiting before myGen ∧ myGen ≤ log'.syncGeneration) ∨ Behind myGen log' i := by
  have heff := WriteAheadLog.step_effect hlog
  cases walOp with
  | append entry =>
      obtain rfl : log' = _ := heff
      exact Or.inl ⟨h, hgen⟩
  | flushRequest j =>
      obtain rfl : log' = _ := heff
      have hj : j ≠ i := by
        rintro rfl
        simp [WriteAheadLog.step, h] at hlog
      exact Or.inl ⟨(WriteAheadLog.flushers_setPc_ne hj _).trans h, hgen.trans (Nat.le_succ _)⟩
  | flushLoad j =>
      obtain ⟨before', hf, rfl⟩ := heff
      have hj : j ≠ i := by
        rintro rfl
        exact absurd (hf.symm.trans h) (by simp)
      exact Or.inl ⟨(WriteAheadLog.flushers_setPc_ne hj _).trans h, hgen⟩
  | flushReturn j =>
      obtain ⟨before', gen, hf, -, rfl⟩ := heff
      by_cases hj : j = i
      · subst hj
        refine Or.inr ?_
        unfold Behind
        rw [WriteAheadLog.flushers_setPc_self]
        exact hgen
      · exact Or.inl ⟨(WriteAheadLog.flushers_setPc_ne hj _).trans h, hgen⟩
  | syncSwap | syncWrite | syncStore =>
      obtain ⟨hflushers, hgen', -⟩ := WriteAheadLog.sync_frame (by simp) hlog
      exact Or.inl ⟨hflushers ▸ h, hgen' ▸ hgen⟩

/-- Nobody waits for a generation that is still to come. -/
theorem gen_le_step {log log' : WriteAheadLog β ι} {walOp : WalOp β ι}
    (h : ∀ i before gen, log.flushers i = .waiting before gen → gen ≤ log.syncGeneration)
    (hlog : log.step walOp = some log') :
    ∀ i before gen, log'.flushers i = .waiting before gen → gen ≤ log'.syncGeneration := by
  intro i before gen hi
  have heff := WriteAheadLog.step_effect hlog
  cases walOp with
  | append entry =>
      obtain rfl : log' = _ := heff
      exact h i before gen hi
  | flushRequest j =>
      obtain rfl : log' = _ := heff
      by_cases hj : j = i
      · subst hj
        rw [WriteAheadLog.flushers_setPc_self] at hi
        contradiction
      · rw [WriteAheadLog.flushers_setPc_ne hj] at hi
        exact (h i before gen hi).trans (Nat.le_succ _)
  | flushLoad j =>
      obtain ⟨before', -, rfl⟩ := heff
      by_cases hj : j = i
      · subst hj
        rw [WriteAheadLog.flushers_setPc_self] at hi
        exact (BarrierPc.waiting.inj hi).2.ge
      · rw [WriteAheadLog.flushers_setPc_ne hj] at hi
        exact h i before gen hi
  | flushReturn j =>
      obtain ⟨before', gen', -, -, rfl⟩ := heff
      by_cases hj : j = i
      · subst hj
        rw [WriteAheadLog.flushers_setPc_self] at hi
        contradiction
      · rw [WriteAheadLog.flushers_setPc_ne hj] at hi
        exact h i before gen hi
  | syncSwap | syncWrite | syncStore =>
      obtain ⟨hflushers, hgen, -⟩ := WriteAheadLog.sync_frame (by simp) hlog
      rw [hflushers] at hi
      exact hgen ▸ h i before gen hi

/-- Nobody waits for a generation that was never requested. -/
theorem gen_le_of_exec {interval : Nat} {ops : List (SyncSignalsOp β ι)} {before gen : Nat}
    (h : exec step (start ι interval file₀) ops = some s) (hcall : s.log.flushers i = .waiting before gen) :
    gen ≤ s.log.syncGeneration := by
  refine exec_invariant
    (I := fun s : SyncSignals β ι =>
      ∀ i before gen, s.log.flushers i = .waiting before gen → gen ≤ s.log.syncGeneration)
    (fun i before gen hi => ?_) (fun u op v hu hs => ?_) h i before gen hcall
  · simp [start, WriteAheadLog.new] at hi
  · rcases log_step hs with hlog | ⟨walOp, hlog⟩
    · exact hlog ▸ hu
    · exact gen_le_step hu hlog

/-- The generation synced only grows. -/
theorem synced_le {log log' : WriteAheadLog β ι} {walOp : WalOp β ι} (hbytes : WriteAheadLog.BytesInv file₀ log)
    (hlog : log.step walOp = some log') : log.syncedGeneration ≤ log'.syncedGeneration := by
  have heff := WriteAheadLog.step_effect hlog
  cases walOp with
  | append | flushRequest | flushLoad | flushReturn => exact (sync_eq (by simp) hlog).2.ge
  | syncSwap =>
      obtain ⟨-, ⟨-, rfl⟩ | ⟨-, rfl⟩⟩ := heff
      · exact hbytes.credit
      · exact le_rfl
  | syncWrite =>
      obtain ⟨-, rfl⟩ := heff
      exact le_rfl
  | syncStore =>
      obtain ⟨-, rfl⟩ := heff
      exact hbytes.credit

/-! ## B. One step

A step that is no swap keeps what is reached, and a swap adds one to the count. -/

/-- What a step apart from a swap leaves of a caller's progress. -/
structure Keeps (myGen : Nat) (s s' : SyncSignals β ι) (i : ι) : Prop where
  sync : s.log.sync ≠ .idle →
    s'.log.sync ≠ .idle ∨ myGen ≤ s'.log.syncedGeneration ∧ ∃ last, s'.loop = .stored last
  tested : myGen ≤ s.log.syncedGeneration → s.signals i ≠ .tested → s'.signals i ≠ .tested
  asleep : s.signals i ≠ .tested → i ∈ s'.waitSet → i ∈ s.waitSet
  stored : (∃ last, s.loop = .stored last) → i ∈ s'.waitSet → ∃ last, s'.loop = .stored last

theorem setPc_ne_tested {j : ι} {pc : SignalPc} (h : s.signals i ≠ .tested) (hpc : pc ≠ .tested) :
    (s.setPc j pc).signals i ≠ .tested := by
  by_cases hij : i = j
  · rw [hij, signals_setPc_self]
    exact hpc
  · rw [signals_setPc_ne s hij]
    exact h

/-- What a step other than a swap keeps for a waiting caller. -/
theorem keeps_of_step {before myGen : Nat} (hcall : s.log.flushers i = .waiting before myGen)
    (hgen : myGen ≤ s.log.syncGeneration) {op : SyncSignalsOp β ι} (hop : isSwap op = false)
    (hs : s.step op = some s') : Keeps myGen s s' i := by
  have hwake : (∃ last, s.loop = .stored last) → ∃ last, s.loop.wake = .stored last := by
    rintro ⟨last, hlast⟩
    exact ⟨last, by rw [hlast]; rfl⟩
  -- from a place that is not behind a store
  have hnot : ∀ {pc : SyncLoopPc} {P : Prop}, s.loop = pc → (∀ last, pc ≠ .stored last) →
      (∃ last, s.loop = .stored last) → P := by
    rintro pc P hpc hne ⟨last, hlast⟩
    exact absurd (hpc.symm.trans hlast) (hne last)
  cases Effect.of_step hs with
  | append _ hlog | flushRequest _ hlog =>
      have hsync := (sync_eq (by simp) hlog).1
      exact ⟨fun hne => Or.inl (hsync ▸ hne), fun _ => id, fun _ => id, fun hstored _ => hstored⟩
  | appendFull _ hlog =>
      have hsync := (sync_eq (by simp) hlog).1
      exact ⟨fun hne => Or.inl (hsync ▸ hne), fun _ => id, fun _ => id, fun hstored _ => hwake hstored⟩
  | flushLoad _ hlog | passes _ _ hlog =>
      have hsync := (sync_eq (by simp) hlog).1
      exact ⟨fun hne => Or.inl (hsync ▸ hne), fun _ hpc => setPc_ne_tested hpc (by simp), fun _ => id,
        fun hstored _ => hstored⟩
  | request => exact ⟨Or.inl, fun _ hpc => setPc_ne_tested hpc (by simp), fun _ => id, fun hstored _ => hstored⟩
  | notify =>
      exact ⟨Or.inl, fun _ hpc => setPc_ne_tested hpc (by simp), fun _ => id, fun hstored _ => hwake hstored⟩
  | @blocks j hmutex hattest hlog =>
      refine ⟨Or.inl, fun hsynced hpc => ?_, fun _ => id, fun hstored _ => hstored⟩
      by_cases hij : i = j
      · -- a caller whose generation is synced is let through
        subst hij
        simp [WriteAheadLog.step, hcall, hsynced] at hlog
      · rw [signals_setPc_ne _ hij]
        exact hpc
  | @wait j hpc =>
      refine ⟨Or.inl, fun _ hne => setPc_ne_tested hne (by simp), fun hne hmem => ?_, fun hstored _ => hstored⟩
      refine (Finset.mem_insert.mp hmem).resolve_left fun hij => hne ?_
      rw [hij]
      exact hpc
  | wake => exact ⟨Or.inl, fun _ => id, fun _ => Finset.mem_of_mem_erase, fun hstored _ => hstored⟩
  | loopLeaves hpc _ | loopEnters hpc _ | loopPasses hpc | loopSleeps hpc _ _ | loopTimeout hpc _ | loopWake hpc =>
      exact ⟨Or.inl, fun _ => id, fun _ => id, fun hstored _ => hnot hpc (by simp) hstored⟩
  | swapEmpty | swap => simp [isSwap] at hop
  | write hpc hlog =>
      obtain ⟨-, rfl⟩ := WriteAheadLog.step_effect hlog
      exact ⟨fun _ => Or.inl (by simp), fun _ => id, fun _ => id, fun hstored _ => hstored⟩
  | @store last _ hpc hlog =>
      obtain ⟨-, rfl⟩ := WriteAheadLog.step_effect hlog
      exact ⟨fun _ => Or.inr ⟨hgen, last, rfl⟩, fun _ => id, fun _ => id, fun _ _ => ⟨last, rfl⟩⟩
  | notifyAll => exact ⟨Or.inl, fun _ => id, fun _ hmem => by simp at hmem, fun _ hmem => by simp at hmem⟩
  | destroy | destroyRequest | join => exact ⟨Or.inl, fun _ => id, fun _ => id, fun hstored _ => hstored⟩
  | destroyNotify => exact ⟨Or.inl, fun _ => id, fun _ => id, fun hstored _ => hwake hstored⟩

omit [DecidableEq ι] in
/-- A step apart from a swap. -/
theorem Nearer.keep {myGen k : Nat} (h : Nearer myGen k s i) (hkeeps : Keeps myGen s s' i)
    (hsynced : s.log.syncedGeneration ≤ s'.log.syncedGeneration) : Nearer myGen k s' i := by
  match k with
  | 0 => trivial
  | 1 =>
    rcases h with hreached | hsync
    · exact Or.inl (hreached.trans hsynced)
    · exact (hkeeps.sync hsync).symm.imp_left And.left
  | 2 =>
    obtain ⟨hreached, hpc, hmem⟩ := h
    refine ⟨hreached.trans hsynced, hkeeps.tested hreached hpc, fun hasleep => ?_⟩
    rcases hmem (hkeeps.asleep hpc hasleep) with hsync | hstored
    · exact (hkeeps.sync hsync).imp_right And.right
    · exact Or.inr (hkeeps.stored hstored hasleep)
  | k + 3 =>
    obtain ⟨hreached, hpc, hmem⟩ := h
    exact ⟨hreached.trans hsynced, hkeeps.tested hreached hpc, fun hasleep => hmem (hkeeps.asleep hpc hasleep)⟩

/-- A swap, which no caller is between its test and its sleep at. -/
theorem Nearer.swap {myGen k : Nat} (h : Nearer myGen k s i) (hinv : Inv file₀ s)
    (hgen : myGen ≤ s.log.syncGeneration) (hs : s.step .swap = some s') : Nearer myGen (k + 1) s' i := by
  have hawake : s.bufferMutex = none → s.signals i ≠ .tested := by
    intro hmutex htested
    exact absurd (((hinv.callers.mutex i).mp htested).symm.trans hmutex) (by simp)
  cases Effect.of_step hs with
  | @swapEmpty last log hpc hmutex hempty hlog =>
      obtain ⟨-, ⟨-, rfl⟩ | ⟨hsome, -⟩⟩ := WriteAheadLog.step_effect hlog
      · match k with
        | 0 => exact Or.inl hgen
        | 1 => exact ⟨hgen, hawake hmutex, fun hmem => absurd hmem (by simp)⟩
        | k + 2 => exact ⟨hgen, hawake hmutex, by simp⟩
      · exact absurd hempty hsome
  | @swap last log hpc hmutex hsome hlog =>
      obtain ⟨hidle, ⟨hempty, -⟩ | ⟨-, rfl⟩⟩ := WriteAheadLog.step_effect hlog
      · exact absurd hempty hsome
      · match k with
        | 0 => exact Or.inr (by simp)
        | 1 =>
          have hreached : myGen ≤ s.log.syncedGeneration := h.resolve_right (not_not.mpr hidle)
          exact ⟨hreached, hawake hmutex, fun _ => Or.inl (by simp)⟩
        | 2 =>
          obtain ⟨hreached, htested, hmem⟩ := h
          refine ⟨hreached, htested, fun hasleep => ?_⟩
          rcases hmem hasleep with hsync | ⟨last', hstored⟩
          · exact hsync hidle
          · exact absurd (hpc.symm.trans hstored) (by simp)
        | k + 3 => exact h

/-- **One step.** -/
theorem Released.step {before myGen k : Nat} (h : Released before myGen k s i) (hinv : Inv file₀ s)
    {op : SyncSignalsOp β ι} (hs : s.step op = some s') :
    Released before myGen (k + if isSwap op then 1 else 0) s' i := by
  rcases h with hbehind | ⟨hcall, hgen, hnearer⟩
  · rcases log_step hs with hlog | ⟨walOp, hlog⟩
    · exact Or.inl (hlog ▸ hbehind)
    · exact Or.inl (behind_step hbehind hlog)
  · have hnext : Nearer myGen (k + if isSwap op then 1 else 0) s' i := by
      cases hop : isSwap op with
      | true =>
          cases op <;> simp only [isSwap, Bool.false_eq_true] at hop
          exact hnearer.swap hinv hgen hs
      | false =>
          refine hnearer.keep (keeps_of_step hcall hgen hop hs) ?_
          rcases log_step hs with hlog | ⟨walOp, hlog⟩
          · rw [hlog]
          · exact synced_le hinv.bytes hlog
    rcases log_step hs with hlog | ⟨walOp, hlog⟩
    · exact Or.inr ⟨hlog ▸ hcall, hlog ▸ hgen, hnext⟩
    · exact (waiting_step hcall hgen hlog).elim (fun hsame => Or.inr ⟨hsame.1, hsame.2, hnext⟩) Or.inl

/-! ## C. Whole runs -/

/-- A run adds its swaps to the count. -/
theorem released_of_exec {before myGen k : Nat} {t : SyncSignals β ι} {ops : List (SyncSignalsOp β ι)}
    (h : Released before myGen k s i) (hinv : Inv file₀ s) (ht : exec step s ops = some t) :
    Released before myGen (k + ops.countP isSwap) t i := by
  induction ops generalizing s k with
  | nil => exact Option.some.inj ht ▸ h
  | cons op ops ih =>
      rw [exec_cons] at ht
      obtain ⟨u, hu, ht⟩ := Option.bind_eq_some_iff.mp ht
      have hrest := ih (h.step hinv hu) (hinv.step hu) ht
      rwa [Nat.add_assoc, Nat.add_comm (if isSwap op then 1 else 0), ← List.countP_cons] at hrest

/-- **A flush is released at the third swap.** Take a call of `flush` that has its generation, in any reachable state,
    and go on with any steps. When the buffers have been swapped three times and the call has not returned, its
    generation is synced and it is not asleep; and once it is about to test its predicate and `buffer_mutex_` is free,
    it returns. So a notification that was lost costs a flush two more rounds of the sync thread at most. -/
theorem flush_released (interval : Nat) (file₀ : List β) {ops further : List (SyncSignalsOp β ι)}
    {s t : SyncSignals β ι} {i : ι} {before myGen : Nat} (h : exec step (start ι interval file₀) ops = some s)
    (hcall : s.log.flushers i = .waiting before myGen) (ht : exec step s further = some t)
    (hsame : t.log.flushers i = .waiting before myGen) (hswaps : 3 ≤ further.countP isSwap) :
    myGen ≤ t.log.syncedGeneration ∧ t.signals i ≠ .tested ∧ i ∉ t.waitSet ∧
      (t.AtTest i → t.bufferMutex = none →
        ∃ u, t.step (.test i) = some u ∧ u.signals i = .idle ∧ u.log.flushers i = .returned before) := by
  have hinv := inv_of_exec h
  have hstart : Released before myGen 0 s i := Or.inr ⟨hcall, gen_le_of_exec h hcall, trivial⟩
  rcases released_of_exec hstart hinv ht with hbehind | ⟨-, -, hnearer⟩
  · simp only [Behind, hsame] at hbehind
    omega
  · obtain ⟨k, hk⟩ := Nat.exists_eq_add_of_le' hswaps
    rw [Nat.zero_add, hk] at hnearer
    obtain ⟨hsynced, htested, hasleep⟩ := hnearer
    refine ⟨hsynced, htested, hasleep, fun hattest hmutex => ?_⟩
    have hreturn : t.log.step (.flushReturn i) = some (t.log.setPc i (.returned before)) := by
      simp [WriteAheadLog.step, hsame, hsynced]
    refine ⟨_, by simp only [SyncSignals.step, hmutex, hattest, and_self, if_true, hreturn]; rfl, ?_, ?_⟩
    · exact signals_setPc_self ..
    · exact WriteAheadLog.flushers_setPc_self _

/-- A caller of `flush` that is between its test and its sleep when its generation is synced. -/
def lostNotification : List (SyncSignalsOp Nat Unit) :=
  [.request (), .notify (), .loopTest, .loopCheck, .swap, .write, .test (), .store, .notifyAll, .wait (), .loopTest,
    .loopCheck, .loopTimeout, .swap, .loopTest, .loopCheck, .loopTimeout, .swap]

/-- It sleeps through the first round, although its generation is synced, and is released. -/
theorem flush_released_lostNotification : ∃ s t : SyncSignals Nat Unit,
    exec step (start Unit 10 []) [.append [1], .flushRequest (), .flushLoad ()] = some s ∧
      (exec step s (lostNotification.take 13)).map (fun u => (u.log.syncedGeneration, u.waitSet)) = some (1, {()}) ∧
      exec step s lostNotification = some t ∧ () ∉ t.waitSet ∧
      ∃ u, t.step (.test ()) = some u ∧ u.log.flushers () = .returned 1 := by
  have hlost : ((exec step (start Unit 10 []) [.append [1], .flushRequest (), .flushLoad ()]).bind
      fun s : SyncSignals Nat Unit => exec step s (lostNotification.take 13)).map
        (fun u => (u.log.syncedGeneration, u.waitSet)) = some (1, {()}) := by decide
  have hrun : (exec step (start Unit 10 []) [.append [1], .flushRequest (), .flushLoad ()]).bind
      (fun s : SyncSignals Nat Unit => (exec step s lostNotification).map fun t =>
        (s.log.flushers (), t.log.flushers (), decide (t.AtTest ()), t.bufferMutex)) =
      some (.waiting 1 1, .waiting 1 1, true, none) := by decide
  obtain ⟨s, hs, hrest⟩ := Option.bind_eq_some_iff.mp hrun
  obtain ⟨t, ht, hfields⟩ := Option.map_eq_some_iff.mp hrest
  rw [hs, Option.bind_some] at hlost
  simp only [Prod.mk.injEq] at hfields
  obtain ⟨hcall, hsame, hattest, hmutex⟩ := hfields
  obtain ⟨-, -, hawake, hreturns⟩ := flush_released 10 [] hs hcall ht hsame (by decide)
  obtain ⟨u, hu, -, hreturned⟩ := hreturns (of_decide_eq_true hattest) hmutex
  exact ⟨s, t, hs, hlost, ht, hawake, u, hu, hreturned⟩

end SyncSignals

end KvStorageEngine
