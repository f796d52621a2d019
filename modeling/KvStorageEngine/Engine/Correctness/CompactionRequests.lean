import KvStorageEngine.Engine.CompactionSignals
import KvStorageEngine.Lib.Run

/-!
# `Engine.Correctness.CompactionRequests` — what the flags of the compaction thread stand for

The compaction thread takes a request by clearing `compaction_needed_`, and says so by `compaction_in_progress_` a step
later. So no request is lost: a flag that is not set stands for a round that began after the last request, and one that
is set is kept, however often the compaction is paused (`requests_kept`, `rounds_while_paused`). But between the two
steps neither flag is set, and a `waitForCompaction` that reads the second one before and the first one after returns
with the compaction still to come; `waits_truthful` says that this is the only way (`Clear`).

The flags are stored without the mutex, so a store can fall between the compaction thread's test and its sleep, and a
`notify_one` can wake up another thread. In runs where neither happens (`Heard`) the compaction thread never sleeps over
a request, nor over the destructor (`never_asleep_over_request`).
-/

namespace KvStorageEngine

open Run

namespace CompactionSignals

variable {ι : Type} [DecidableEq ι] {s s' : CompactionSignals ι}

/-! ## A. The flags

`FlagInv` counts: requests made, rounds begun for them (`served`) and rounds that ended. A flag `compaction_needed_`
that is not set says that the last round to begin was begun for the last request. -/

/-- The flags and the rounds. -/
structure FlagInv (s : CompactionSignals ι) : Prop where
  progress : s.inProgress = true ↔ s.compactor = .compacting
  unserved : s.needed = false → s.served = s.requested
  served_le : s.served ≤ s.requested
  completed_le : s.completed ≤ s.served
  /-- Between two rounds everything that was taken is completed. -/
  between : s.compactor ≠ .starting → s.compactor ≠ .compacting → s.completed = s.served

omit [DecidableEq ι] in
theorem flagInv_start : FlagInv (start ι) := by
  refine ⟨?_, fun _ => rfl, le_rfl, le_rfl, fun _ _ => rfl⟩
  simp [start]

omit [DecidableEq ι] in
/-- A step that leaves the flags and the rounds, and moves the compaction thread outside of a round. -/
theorem FlagInv.of_eq (h : FlagInv s) (hneeded : s'.needed = s.needed) (hprogress : s'.inProgress = s.inProgress)
    (hrequested : s'.requested = s.requested) (hserved : s'.served = s.served)
    (hcompleted : s'.completed = s.completed)
    (hpc : s'.compactor = s.compactor ∨
      (s.compactor ≠ .starting ∧ s.compactor ≠ .compacting) ∧ s'.compactor ≠ .starting ∧ s'.compactor ≠ .compacting) :
    FlagInv s' := by
  refine ⟨?_, ?_, ?_, ?_, ?_⟩
  · rw [hprogress, h.progress]
    rcases hpc with hpc | ⟨hpc, hpc'⟩
    · rw [hpc]
    · exact iff_of_false hpc.2 hpc'.2
  · rw [hneeded, hserved, hrequested]
    exact h.unserved
  · rw [hserved, hrequested]
    exact h.served_le
  · rw [hcompleted, hserved]
    exact h.completed_le
  · rw [hcompleted, hserved]
    rcases hpc with hpc | ⟨hpc, -⟩
    · rw [hpc]
      exact h.between
    · exact fun _ _ => h.between hpc.1 hpc.2

omit [DecidableEq ι] in
/-- A thread that moves on its own is not in a round. -/
theorem Moves.outside {pc : CompactorPc} (h : Moves s pc) : (s.compactor ≠ .starting ∧ s.compactor ≠ .compacting) ∧
    pc ≠ .starting ∧ pc ≠ .compacting := by
  cases h with
  | blocks hpc | readPaused hpc | blocksPaused hpc | leaves hpc | goesOn hpc | finds hpc | takes hpc | passes hpc =>
      simp [hpc]
  | returns hpc | sees hpc => rcases hpc with hpc | hpc <;> simp [hpc]

/-- Every step keeps the flags and the rounds in step. -/
theorem FlagInv.step (h : FlagInv s) {op : CompactionSignalsOp ι} (hs : s.step op = some s') : FlagInv s' := by
  cases Effect.of_step hs with
  | move hmoves => exact h.of_eq rfl rfl rfl rfl rfl (Or.inr hmoves.outside)
  | lock hpc => exact h.of_eq rfl rfl rfl rfl rfl (Or.inr (by rcases hpc with hpc | hpc <;> simp [hpc]))
  | unlock hpc | sleep hpc | notifyAll hpc => exact h.of_eq rfl rfl rfl rfl rfl (Or.inr (by simp [hpc]))
  | take hpc =>
      have hprogress : s.inProgress = false := by
        rw [← Bool.not_eq_true, h.progress, hpc]
        simp
      exact ⟨by simp [hprogress], fun _ => rfl, le_rfl, h.completed_le.trans h.served_le, by simp⟩
  | begin hpc => exact ⟨by simp, h.unserved, h.served_le, h.completed_le, by simp⟩
  | finish hpc => exact ⟨by simp, h.unserved, h.served_le, le_rfl, fun _ _ => rfl⟩
  | schedule hpc =>
      exact ⟨h.progress, fun hneeded => absurd hneeded (by simp [setPc]), h.served_le.trans (Nat.le_succ _),
        h.completed_le, h.between⟩
  | notifyOne | pause | resume | waitForCompaction | testProgress | testNeeded | returns | wait | timeout | wake
  | destroy | destroyLock | destroyNotify | join => exact h.of_eq rfl rfl rfl rfl rfl (Or.inl rfl)

theorem flagInv_of_exec {ops : List (CompactionSignalsOp ι)} (h : exec step (start ι) ops = some s) : FlagInv s :=
  exec_invariant flagInv_start (fun _ _ _ hi hs => hi.step hs) h

/-- **No request is lost.** In every state of every run: what was completed was taken by a round, and what was taken was
    asked for; a request that no round has seen yet is still there; and with no request there and no round under way,
    everything that was ever asked for is completed, by a round that began after it was. -/
theorem requests_kept {ops : List (CompactionSignalsOp ι)} (h : exec step (start ι) ops = some s) :
    s.completed ≤ s.served ∧ s.served ≤ s.requested ∧ (s.served < s.requested → s.needed = true) ∧
      (s.needed = false → s.compactor ≠ .starting → s.compactor ≠ .compacting → s.completed = s.requested) := by
  have hflags := flagInv_of_exec h
  refine ⟨hflags.completed_le, hflags.served_le, fun hlt => ?_, fun hneeded hstarting hcompacting => ?_⟩
  · by_contra hneeded
    exact absurd (hflags.unserved (by simpa using hneeded)) hlt.ne
  · exact (hflags.between hstarting hcompacting).trans (hflags.unserved hneeded)

/-- One request and the round that serves it. -/
def servedRun : List (CompactionSignalsOp Unit) :=
  ([.compactor, .schedule (), .notifyOne () none] : List (CompactionSignalsOp Unit)) ++ List.replicate 8 .compactor

theorem requests_kept_servedRun : ∃ s, exec step (start Unit) servedRun = some s ∧ s.completed = s.requested ∧
    s.requested = 1 := by
  have hrun : (exec step (start Unit) servedRun).map (fun s => (s.needed, s.compactor, s.requested)) =
      some (false, .finishing, 1) := by decide
  obtain ⟨s, hs, hfields⟩ := Option.map_eq_some_iff.mp hrun
  simp only [Prod.mk.injEq] at hfields
  obtain ⟨hneeded, hpc, hrequested⟩ := hfields
  obtain ⟨-, -, -, hcompleted⟩ := requests_kept hs
  exact ⟨s, hs, hcompleted hneeded (by simp [hpc]) (by simp [hpc]), hrequested⟩

/-! ## B. Pausing

`pauseCompaction` only sets a flag, so a compaction thread that has looked at it before goes on to one more round.
After that none begins until `resumeCompaction`, and a request that comes in between stays. -/

/-- While the compaction is paused, only a thread that had already looked can begin a round. -/
def Allowed (n : Nat) (s : CompactionSignals ι) : Prop :=
  s.paused = true ∧ s.rounds + (if s.compactor = .taking then 1 else 0) ≤ n

/-- Only a resume ends what a pause allows. -/
theorem Allowed.step {n : Nat} (h : Allowed n s) {op : CompactionSignalsOp ι} (hop : ∀ i, op ≠ .resume i)
    (hs : s.step op = some s') : Allowed n s' := by
  obtain ⟨hpaused, hrounds⟩ := h
  cases Effect.of_step hs with
  | @move pc hmoves =>
      refine ⟨hpaused, ?_⟩
      have hpc : pc ≠ .taking := by
        rintro rfl
        cases hmoves with
        | takes _ hopen => exact absurd (hpaused.symm.trans hopen) (by decide)
      simp only [if_neg hpc]
      exact (Nat.le_add_right _ _).trans hrounds
  | lock | unlock | sleep | begin | finish | notifyAll =>
      exact ⟨hpaused, (Nat.le_add_right _ _).trans hrounds⟩
  | take hpc =>
      rw [if_pos hpc] at hrounds
      exact ⟨hpaused, hrounds⟩
  | resume => exact absurd rfl (hop _)
  | pause => exact ⟨rfl, hrounds⟩
  | schedule | notifyOne | waitForCompaction | testProgress | testNeeded | returns | wait | timeout | wake | destroy
  | destroyLock | destroyNotify | join => exact ⟨hpaused, hrounds⟩

/-- Only the beginning of a round takes a request away. -/
theorem needed_step {op : CompactionSignalsOp ι} (hs : s.step op = some s') :
    s.rounds ≤ s'.rounds ∧ (s.rounds = s'.rounds → s.needed = true → s'.needed = true) := by
  cases Effect.of_step hs with
  | take => exact ⟨Nat.le_succ _, fun heq => absurd heq (Nat.lt_succ_self _).ne⟩
  | schedule => exact ⟨le_rfl, fun _ _ => rfl⟩
  | move | lock | unlock | sleep | begin | finish | notifyAll | notifyOne | pause | resume | waitForCompaction
  | testProgress | testNeeded | returns | wait | timeout | wake | destroy | destroyLock | destroyNotify | join =>
      exact ⟨le_rfl, fun _ => id⟩

/-- **A pause lets at most one more round begin**, and only one whose thread had found the compaction unpaused before.
    A request that is there stays until a round begins, and what is asked for after that is there when the compaction
    is resumed. -/
theorem rounds_while_paused {ops further : List (CompactionSignalsOp ι)} {t : CompactionSignals ι}
    (h : exec step (start ι) ops = some s) (hpaused : s.paused = true) (hresume : ∀ i, .resume i ∉ further)
    (ht : exec step s further = some t) :
    t.rounds ≤ s.rounds + (if s.compactor = .taking then 1 else 0) ∧
      (s.rounds = t.rounds → s.needed = true → t.needed = true) ∧
      (t.served < t.requested → t.needed = true) := by
  refine ⟨?_, ?_, fun hlt => ?_⟩
  · have hops : Meets step (fun _ op => ∀ i, op ≠ .resume i) s further := by
      refine meets_of_forall (fun op hop _ i hi => hresume i ?_) s
      rwa [hi] at hop
    have hallowed := exec_invariant_of_meets (I := Allowed _) ⟨hpaused, le_rfl⟩
      (fun _ _ _ hi hop hs => hi.step hop hs) hops ht
    exact (Nat.le_add_right _ _).trans hallowed.2
  · exact (exec_invariant
      (I := fun u => s.rounds ≤ u.rounds ∧ (s.rounds = u.rounds → s.needed = true → u.needed = true))
      ⟨le_rfl, fun _ => id⟩ (fun u op v hu hs => by
        obtain ⟨hle, hkeeps⟩ := needed_step hs
        refine ⟨hu.1.trans hle, fun heq hneeded => ?_⟩
        have hsame : s.rounds = u.rounds := by omega
        exact hkeeps (hsame ▸ heq) (hu.2 hsame hneeded)) ht).2
  · have hflags : FlagInv t := exec_invariant (flagInv_of_exec h) (fun _ _ _ hi hs => hi.step hs) ht
    by_contra hneeded
    exact absurd (hflags.unserved (by simpa using hneeded)) hlt.ne

/-- The compaction is paused when its thread has found that it may begin, and asked for again. -/
theorem rounds_while_paused_servedRun : ∃ s t : CompactionSignals Unit,
    exec step (start Unit) (servedRun.take 8 ++ [.pause]) = some s ∧
      exec step s ([.compactor, .schedule (), .notifyOne () none] ++ List.replicate 7 .compactor) = some t ∧
      t.rounds ≤ s.rounds + 1 ∧ t.needed = true := by
  have hrun : (exec step (start Unit) (servedRun.take 8 ++ [.pause])).bind (fun s =>
      (exec step s ([.compactor, .schedule (), .notifyOne () none] ++ List.replicate 7 .compactor)).map fun t =>
        (s.paused, s.compactor, t.served, t.requested)) = some (true, .taking, 1, 2) := by decide
  obtain ⟨s, hs, hrest⟩ := Option.bind_eq_some_iff.mp hrun
  obtain ⟨t, ht, hfields⟩ := Option.map_eq_some_iff.mp hrest
  simp only [Prod.mk.injEq] at hfields
  obtain ⟨hpaused, hpc, hserved, hrequested⟩ := hfields
  obtain ⟨hrounds, -, hneeded⟩ := rounds_while_paused hs hpaused (by simp) ht
  rw [hpc, if_pos rfl] at hrounds
  exact ⟨s, t, hs, ht, hrounds, hneeded (by omega)⟩

/-! ## C. Waits

`waitForCompaction` reads `compaction_in_progress_` first and `compaction_needed_` second, and the compaction thread
clears the second before it sets the first. `Clear` excludes that both reads fall around these two stores, which is
how a wait ends too early. -/

/-- The caller has found nothing in progress. -/
def isReading : CompactionCallerPc → Bool
  | .reading _ => true
  | _ => false

/-- A wait whose compaction is neither in progress nor needed is not about to begin either. -/
def Clear (s : CompactionSignals ι) : CompactionSignalsOp ι → Prop
  | .test i => isReading (s.callers i) = true → s.needed = false →
      s.compactor ≠ .starting ∧ s.compactor ≠ .compacting
  | _ => True

instance (s : CompactionSignals ι) (op : CompactionSignalsOp ι) : Decidable (Clear s op) := by
  unfold Clear
  split <;> infer_instance

/-- When a caller's wait began. -/
def asked : CompactionCallerPc → Option Nat
  | .locking n | .reading n | .blocked n | .waiting n => some n
  | .idle | .resuming | .scheduled => none

/-- The waits under way and those that ended. -/
structure WaitInv (s : CompactionSignals ι) : Prop where
  flags : FlagInv s
  under : ∀ i n, asked (s.callers i) = some n → n ≤ s.requested
  waits : ∀ w ∈ s.waits, w.1 ≤ w.2

theorem under_setPc {i : ι} {pc : CompactionCallerPc} (h : ∀ i n, asked (s.callers i) = some n → n ≤ s.requested)
    (hpc : ∀ n, asked pc = some n → n ≤ s.requested) :
    ∀ j n, asked ((s.setPc i pc).callers j) = some n → n ≤ s.requested := by
  intro j n hj
  by_cases hji : j = i
  · subst hji
    rw [show (s.setPc j pc).callers j = pc from Function.update_self ..] at hj
    exact hpc n hj
  · rw [show (s.setPc i pc).callers j = s.callers j from Function.update_of_ne hji ..] at hj
    exact h j n hj

/-- Every step with which no wait slips between the two stores keeps the waits truthful. -/
theorem WaitInv.step (h : WaitInv s) {op : CompactionSignalsOp ι} (hclear : Clear s op) (hs : s.step op = some s') :
    WaitInv s' := by
  have hflags := h.flags.step hs
  have hunder := h.under
  cases Effect.of_step hs with
  | move | lock | unlock | sleep | take | begin | finish | notifyAll | pause | wake | destroy | destroyLock
  | destroyNotify | join => exact ⟨hflags, hunder, h.waits⟩
  | schedule =>
      have hmore : ∀ i n, asked (s.callers i) = some n → n ≤ s.requested + 1 :=
        fun i n hi => (hunder i n hi).trans (Nat.le_succ _)
      exact ⟨hflags, under_setPc (s := { s with needed := true, requested := s.requested + 1 }) hmore (by simp [asked]),
        h.waits⟩
  | notifyOne | resume | timeout => exact ⟨hflags, under_setPc hunder (by simp [asked]), h.waits⟩
  | waitForCompaction =>
      exact ⟨hflags, under_setPc hunder fun n hn => (Option.some.inj hn).ge, h.waits⟩
  | @testProgress i n hpc =>
      have hle : n ≤ s.requested := by
        rcases hpc with hpc | hpc <;> exact hunder i n (by rw [hpc]; rfl)
      refine ⟨hflags, under_setPc hunder fun n' hn' => ?_, h.waits⟩
      split_ifs at hn' <;> exact Option.some.inj hn' ▸ hle
  | @testNeeded i n hpc | @wait i n hpc =>
      have hle := hunder i n (by rw [hpc]; rfl)
      exact ⟨hflags, under_setPc hunder fun n' hn' => Option.some.inj hn' ▸ hle, h.waits⟩
  | @returns i n hpc hneeded =>
      refine ⟨hflags, under_setPc hunder (by simp [asked]), fun w hw => ?_⟩
      rcases List.mem_append.mp hw with hw | hw
      · exact h.waits w hw
      · -- nothing was needed and no round was under way
        obtain rfl := List.mem_singleton.mp hw
        obtain ⟨hstarting, hcompacting⟩ := hclear (by rw [hpc]; rfl) hneeded
        show n ≤ s.completed
        rw [h.flags.between hstarting hcompacting, h.flags.unserved hneeded]
        exact hunder i n (by rw [hpc]; rfl)

/-- **Waits tell the truth.** In every run in which no `waitForCompaction` finds the compaction not needed while it is
    about to begin or under way, having found it not in progress before, every wait that did not run out of time ended
    after everything that had been asked for when it began was completed. -/
theorem waits_truthful {ops : List (CompactionSignalsOp ι)} (h : exec step (start ι) ops = some s)
    (hclear : Meets step Clear (start ι) ops) : ∀ w ∈ s.waits, w.1 ≤ w.2 := by
  have hstart : WaitInv (start ι) := ⟨flagInv_start, by simp [start, asked], by simp [start]⟩
  exact (exec_invariant_of_meets hstart (fun _ _ _ hi hc hs => hi.step hc hs) hclear h).waits

theorem waits_truthful_servedRun : ∃ s,
    exec step (start Unit) (servedRun ++ [.waitForCompaction (), .test (), .test ()]) = some s ∧ s.waits = [(1, 1)] ∧
      ∀ w ∈ s.waits, w.1 ≤ w.2 := by
  have hrun : (exec step (start Unit) (servedRun ++ [.waitForCompaction (), .test (), .test ()])).map (·.waits) =
      some [(1, 1)] := by decide
  obtain ⟨s, hs, hwaits⟩ := Option.map_eq_some_iff.mp hrun
  exact ⟨s, hs, hwaits, waits_truthful hs (by decide)⟩

/-- A wait that returns in between: it has found nothing in progress, and finds nothing needed when the compaction
    thread has taken the request. -/
theorem not_truthful_between :
    (exec step (start Unit) (servedRun.take 8 ++ [.waitForCompaction (), .test (), .compactor, .test ()])).map (·.waits) =
      some [(1, 0)] := by decide

/-! ## D. The mutex

`compaction_mutex_` is held from a test to the sleep behind it, by the compaction thread as by the callers. What it
does not protect are the stores of the flags. -/

/-- The caller is between its test and its sleep. -/
def Holds : CompactionCallerPc → Bool
  | .reading _ | .blocked _ => true
  | .idle | .resuming | .scheduled | .locking _ | .waiting _ => false

/-- The compaction thread is. -/
def Tests : CompactorPc → Bool
  | .readNeeded | .readPaused | .blocked => true
  | _ => false

/-- Who holds the mutex, and where the compaction thread sleeps. -/
structure MutexInv (s : CompactionSignals ι) : Prop where
  thread : Tests s.compactor = true ↔ s.mutex = some .compactionThread
  caller : ∀ i, Holds (s.callers i) = true → s.mutex = some (.caller i)
  asleep : CompactionWaiter.compactionThread ∈ s.waitSet → s.compactor = .sleeping

omit [DecidableEq ι] in
theorem mutexInv_start : MutexInv (start ι) := by
  refine ⟨?_, fun i hi => ?_, fun hmem => ?_⟩
  · simp [start, Tests]
  · simp [start, Holds] at hi
  · simp [start] at hmem

theorem holds_setPc {i : ι} {pc : CompactionCallerPc} {P : ι → Prop} (h : ∀ j, j ≠ i → Holds (s.callers j) = true → P j)
    (hpc : Holds pc = true → P i) : ∀ j, Holds ((s.setPc i pc).callers j) = true → P j := by
  intro j hj
  by_cases hji : j = i
  · subst hji
    rw [show (s.setPc j pc).callers j = pc from Function.update_self ..] at hj
    exact hpc hj
  · rw [show (s.setPc i pc).callers j = s.callers j from Function.update_of_ne hji ..] at hj
    exact h j hji hj

theorem mem_notified {w : CompactionWaiter ι} {woken : Option (CompactionWaiter ι)} (h : w ∈ s.notified woken) :
    w ∈ s.waitSet ∧ woken ≠ some w := by
  cases woken with
  | none => exact ⟨h, by simp⟩
  | some v => exact ⟨Finset.mem_of_mem_erase h, fun hv => Finset.ne_of_mem_erase h (Option.some.inj hv).symm⟩

omit [DecidableEq ι] in
theorem Moves.tests {pc : CompactorPc} (h : Moves s pc) : Tests pc = Tests s.compactor ∧
    (s.compactor = .sleeping → CompactionWaiter.compactionThread ∉ s.waitSet) := by
  cases h with
  | blocks hpc | readPaused hpc | blocksPaused hpc | leaves hpc | goesOn hpc | finds hpc | takes hpc | passes hpc =>
      simp [hpc, Tests]
  | returns hpc => rcases hpc with hpc | hpc <;> simp [hpc, Tests]
  | sees hpc _ hawake => rcases hpc with hpc | hpc <;> simp [hpc, Tests, hawake]

/-- Every step keeps the mutex with who tests. -/
theorem MutexInv.step (h : MutexInv s) {op : CompactionSignalsOp ι} (hs : s.step op = some s') : MutexInv s' := by
  -- nobody holds a free mutex, and nobody but the one who does
  have hfree : s.mutex = none → ∀ i, Holds (s.callers i) ≠ true := fun hmutex i hi =>
    absurd ((h.caller i hi).symm.trans hmutex) (by simp)
  have hmine : ∀ i, Holds (s.callers i) = true → Tests s.compactor = false ∧
      ∀ j, j ≠ i → Holds (s.callers j) ≠ true := by
    refine fun i hi => ⟨?_, fun j hji hj => hji ?_⟩
    · rw [← Bool.not_eq_true]
      intro htests
      exact absurd ((h.caller i hi).symm.trans (h.thread.mp htests)) (by simp)
    · exact CompactionWaiter.caller.inj (Option.some.inj ((h.caller j hj).symm.trans (h.caller i hi)))
  have hthread : Tests s.compactor = true → ∀ i, Holds (s.callers i) ≠ true := fun htests i hi =>
    absurd ((hmine i hi).1.symm.trans htests) (by decide)
  have hnot : s.mutex = none → Tests s.compactor = false := by
    intro hmutex
    rw [← Bool.not_eq_true, h.thread, hmutex]
    simp
  have hawake : s.compactor ≠ .sleeping → CompactionWaiter.compactionThread ∉ s.waitSet :=
    fun hpc hmem => hpc (h.asleep hmem)
  cases Effect.of_step hs with
  | @move pc hmoves =>
      obtain ⟨htests, hleaves⟩ := hmoves.tests
      refine ⟨?_, h.caller, fun hmem => absurd hmem (hleaves (h.asleep hmem))⟩
      show Tests pc = true ↔ _
      rw [htests]
      exact h.thread
  | lock hpc hmutex hleaves _ =>
      exact ⟨by simp [Tests], fun i hi => absurd hi (hfree hmutex i), fun hmem => absurd hmem hleaves⟩
  | unlock hpc _ =>
      exact ⟨by simp [Tests], fun i hi => absurd hi (hthread (by simp [hpc, Tests]) i),
        fun hmem => absurd hmem (hawake (by simp [hpc]))⟩
  | sleep hpc =>
      exact ⟨by simp [Tests], fun i hi => absurd hi (hthread (by simp [hpc, Tests]) i), fun _ => rfl⟩
  | take hpc | begin hpc | finish hpc =>
      refine ⟨?_, h.caller, fun hmem => absurd hmem (hawake (by simp [hpc]))⟩
      rw [← h.thread, hpc]
      simp [Tests]
  | notifyAll hpc =>
      refine ⟨?_, h.caller, fun hmem => absurd hmem (by simp)⟩
      rw [← h.thread, hpc]
      simp [Tests]
  | schedule | resume | waitForCompaction =>
      exact ⟨h.thread, holds_setPc (fun j _ hj => h.caller j hj) (by simp [Holds]), h.asleep⟩
  | notifyOne =>
      exact ⟨h.thread, holds_setPc (fun j _ hj => h.caller j hj) (by simp [Holds]),
        fun hmem => h.asleep (mem_notified hmem).1⟩
  | timeout =>
      exact ⟨h.thread, holds_setPc (fun j _ hj => h.caller j hj) (by simp [Holds]),
        fun hmem => h.asleep (Finset.mem_of_mem_erase hmem)⟩
  | testProgress hpc hmutex _ =>
      refine ⟨?_, holds_setPc (fun j _ hj => absurd hj (hfree hmutex j)) fun _ => rfl, h.asleep⟩
      exact iff_of_false (by simp [setPc, hnot hmutex]) (by simp [setPc])
  | testNeeded hpc _ =>
      exact ⟨h.thread, holds_setPc (fun j _ hj => h.caller j hj) fun _ => h.caller _ (by simp [hpc, Holds]), h.asleep⟩
  | @returns i n hpc _ =>
      obtain ⟨htests, hothers⟩ := hmine i (by simp [hpc, Holds])
      exact ⟨iff_of_false (by simp [setPc, htests]) (by simp [setPc]),
        holds_setPc (fun j hji hj => absurd hj (hothers j hji)) (by simp [Holds]), h.asleep⟩
  | @wait i n hpc =>
      obtain ⟨htests, hothers⟩ := hmine i (by simp [hpc, Holds])
      exact ⟨iff_of_false (by simp [setPc, htests]) (by simp [setPc]),
        holds_setPc (fun j hji hj => absurd hj (hothers j hji)) (by simp [Holds]),
        fun hmem => h.asleep ((Finset.mem_insert.mp hmem).resolve_left (by simp))⟩
  | wake => exact ⟨h.thread, h.caller, fun hmem => h.asleep (Finset.mem_of_mem_erase hmem)⟩
  | destroyNotify => exact ⟨h.thread, h.caller, fun hmem => h.asleep (mem_notified hmem).1⟩
  | pause | destroy | destroyLock | join => exact ⟨h.thread, h.caller, h.asleep⟩

/-! ## E. Who sleeps over a request -/

/-- No store falls between the compaction thread's test and its sleep, and a notification wakes up the compaction
    thread if it sleeps. -/
def Heard (s : CompactionSignals ι) : CompactionSignalsOp ι → Prop
  | .schedule _ => s.compactor = .blocked → s.paused = true
  | .resume _ => s.compactor = .blocked → s.needed = false
  | .notifyOne _ woken | .destroyNotify woken =>
    CompactionWaiter.compactionThread ∈ s.waitSet → woken = some .compactionThread
  | _ => True

instance (s : CompactionSignals ι) (op : CompactionSignalsOp ι) : Decidable (Heard s op) := by
  unfold Heard
  split <;> infer_instance

/-- A caller is about to notify. -/
def Pending (s : CompactionSignals ι) : Prop := ∃ i, s.callers i = .scheduled ∨ s.callers i = .resuming

/-- The compaction thread before and in its sleep. -/
structure HeardInv (s : CompactionSignals ι) : Prop where
  mutex : MutexInv s
  blocked : s.compactor = .blocked → s.needed = true → s.paused = true
  asleep : CompactionWaiter.compactionThread ∈ s.waitSet → s.needed = true → s.paused = false → Pending s
  closing : s.destructor ≠ .notCalled → s.shutdown = true
  passed : s.destructor ≠ .notCalled → s.destructor ≠ .locking → Tests s.compactor = false
  notified : s.destructor = .joining ∨ s.destructor = .returned → CompactionWaiter.compactionThread ∉ s.waitSet

theorem Pending.setPc (h : Pending s) {i : ι} (hpc : s.callers i ≠ .scheduled ∧ s.callers i ≠ .resuming)
    (pc : CompactionCallerPc) : Pending (s.setPc i pc) := by
  obtain ⟨j, hj⟩ := h
  have hji : j ≠ i := by
    rintro rfl
    exact hj.elim hpc.1 hpc.2
  exact ⟨j, by rwa [show (s.setPc i pc).callers j = s.callers j from Function.update_of_ne hji ..]⟩

theorem pending_setPc_self {i : ι} {pc : CompactionCallerPc} (h : pc = .scheduled ∨ pc = .resuming) :
    Pending (s.setPc i pc) :=
  ⟨i, by rwa [show (s.setPc i pc).callers i = pc from Function.update_self ..]⟩

/-- Every step that is heard leaves nobody asleep over a request that no one will announce. -/
theorem HeardInv.step (h : HeardInv s) {op : CompactionSignalsOp ι} (hheard : Heard s op) (hs : s.step op = some s') :
    HeardInv s' := by
  have hmutex := h.mutex.step hs
  have hawake : s.compactor ≠ .sleeping → CompactionWaiter.compactionThread ∉ s.waitSet :=
    fun hpc hmem => hpc (h.mutex.asleep hmem)
  cases Effect.of_step hs with
  | @move pc hmoves =>
      obtain ⟨htests, hleaves⟩ := hmoves.tests
      refine ⟨hmutex, fun hblocked hneeded => ?_, fun hmem => absurd hmem (hleaves (h.mutex.asleep hmem)), h.closing,
        fun hcalled hlocking => htests.trans (h.passed hcalled hlocking), h.notified⟩
      have hblocked : pc = .blocked := hblocked
      subst hblocked
      cases hmoves with
      | blocks _ hno => exact absurd (hneeded.symm.trans hno) (by decide)
      | blocksPaused _ hpaused => exact hpaused
  | lock _ _ hleaves hopen =>
      exact ⟨hmutex, by simp, fun hmem => absurd hmem hleaves, h.closing,
        fun hcalled => absurd ((h.closing hcalled).symm.trans hopen) (by decide), h.notified⟩
  | unlock hpc _ => exact ⟨hmutex, by simp, h.asleep, h.closing, fun _ _ => rfl, h.notified⟩
  | sleep hpc =>
      refine ⟨hmutex, by simp, fun _ hneeded hpaused => ?_, h.closing, fun _ _ => rfl, fun hjoins => ?_⟩
      · exact absurd ((h.blocked hpc hneeded).symm.trans hpaused) (by decide)
      · -- the destructor has passed the mutex that the thread holds
        have hno := h.passed (by rcases hjoins with hj | hj <;> simp [show s.destructor = _ from hj])
          (by rcases hjoins with hj | hj <;> simp [show s.destructor = _ from hj])
        simp [hpc, Tests] at hno
  | take hpc | begin hpc | finish hpc =>
      exact ⟨hmutex, by simp, fun hmem => absurd hmem (hawake (by simp [hpc])), h.closing, fun _ _ => rfl, h.notified⟩
  | notifyAll hpc =>
      exact ⟨hmutex, by simp, fun hmem => absurd hmem (by simp), h.closing, fun _ _ => rfl, fun _ => by simp⟩
  | schedule _ =>
      exact ⟨hmutex, fun hblocked _ => hheard hblocked, fun _ _ _ => pending_setPc_self (Or.inl rfl), h.closing, h.passed,
        h.notified⟩
  | resume _ =>
      exact ⟨hmutex, fun hblocked hneeded => absurd (hneeded.symm.trans (hheard hblocked)) (by decide),
        fun _ _ _ => pending_setPc_self (Or.inr rfl), h.closing, h.passed, h.notified⟩
  | notifyOne _ _ =>
      refine ⟨hmutex, h.blocked, fun hmem => ?_, h.closing, h.passed, fun hjoins hmem => ?_⟩
      · exact absurd (hheard (mem_notified hmem).1) (mem_notified hmem).2
      · exact h.notified hjoins (mem_notified hmem).1
  | pause => exact ⟨hmutex, fun _ _ => rfl, fun _ _ hpaused => absurd hpaused (by simp), h.closing, h.passed, h.notified⟩
  | waitForCompaction hpc | testNeeded hpc _ | returns hpc _ =>
      exact ⟨hmutex, h.blocked, fun hmem hneeded hpaused => (h.asleep hmem hneeded hpaused).setPc (by simp [hpc]) _,
        h.closing, h.passed, h.notified⟩
  | testProgress hpc _ _ =>
      exact ⟨hmutex, h.blocked, fun hmem hneeded hpaused => (h.asleep hmem hneeded hpaused).setPc
        (by rcases hpc with hpc | hpc <;> simp [hpc]) _, h.closing, h.passed, h.notified⟩
  | wait hpc =>
      have hold : ∀ {i : ι}, CompactionWaiter.compactionThread ∈ insert (CompactionWaiter.caller i) s.waitSet →
          CompactionWaiter.compactionThread ∈ s.waitSet := fun hmem => (Finset.mem_insert.mp hmem).resolve_left (by simp)
      exact ⟨hmutex, h.blocked, fun hmem hneeded hpaused =>
        (h.asleep (hold hmem) hneeded hpaused).setPc (by simp [hpc]) _, h.closing, h.passed,
        fun hjoins hmem => h.notified hjoins (hold hmem)⟩
  | timeout hpc _ =>
      exact ⟨hmutex, h.blocked, fun hmem hneeded hpaused =>
        (h.asleep (Finset.mem_of_mem_erase hmem) hneeded hpaused).setPc (by simp [hpc]) _, h.closing, h.passed,
        fun hjoins hmem => h.notified hjoins (Finset.mem_of_mem_erase hmem)⟩
  | wake _ =>
      exact ⟨hmutex, h.blocked, fun hmem => h.asleep (Finset.mem_of_mem_erase hmem), h.closing, h.passed,
        fun hjoins hmem => h.notified hjoins (Finset.mem_of_mem_erase hmem)⟩
  | destroy hpc =>
      exact ⟨hmutex, h.blocked, h.asleep, fun _ => rfl, fun _ hlocking => absurd rfl hlocking, by simp⟩
  | destroyLock hpc hfree =>
      refine ⟨hmutex, h.blocked, h.asleep, fun _ => h.closing (by simp [hpc]), fun _ _ => ?_, by simp⟩
      rw [← Bool.not_eq_true, h.mutex.thread, hfree]
      simp
  | destroyNotify hpc _ =>
      refine ⟨hmutex, h.blocked, fun hmem => ?_, fun _ => h.closing (by simp [hpc]),
        fun _ _ => h.passed (by simp [hpc]) (by simp [hpc]), fun _ hmem => ?_⟩
      · exact absurd (hheard (mem_notified hmem).1) (mem_notified hmem).2
      · exact absurd (hheard (mem_notified hmem).1) (mem_notified hmem).2
  | join hpc _ =>
      exact ⟨hmutex, h.blocked, h.asleep, fun _ => h.closing (by simp [hpc]),
        fun _ _ => h.passed (by simp [hpc]) (by simp [hpc]), fun _ => h.notified (Or.inl hpc)⟩

/-- **The compaction thread does not sleep over a request.** In every run in which no store of a flag falls between its
    test and its sleep, and in which a notification wakes it up when it sleeps: as long as it sleeps while a compaction
    is needed and not paused, some caller is still to notify it; and it neither sleeps nor goes to sleep once the
    destructor is about to join it. -/
theorem never_asleep_over_request {ops : List (CompactionSignalsOp ι)} (h : exec step (start ι) ops = some s)
    (hheard : Meets step Heard (start ι) ops) :
    (CompactionWaiter.compactionThread ∈ s.waitSet → s.needed = true → s.paused = false →
      ∃ i, s.callers i = .scheduled ∨ s.callers i = .resuming) ∧
    (s.destructor = .joining →
      CompactionWaiter.compactionThread ∉ s.waitSet ∧ s.shutdown = true ∧ s.compactor ≠ .blocked) := by
  have hstart : HeardInv (start ι) := by
    refine ⟨mutexInv_start, ?_, ?_, ?_, ?_, ?_⟩ <;> simp [start]
  have hinv := exec_invariant_of_meets hstart (fun _ _ _ hi hh hs => hi.step hh hs) hheard h
  refine ⟨hinv.asleep, fun hjoins => ⟨hinv.notified (Or.inl hjoins), hinv.closing (by simp [hjoins]), fun hblocked => ?_⟩⟩
  have hno := hinv.passed (by simp [hjoins]) (by simp [hjoins])
  simp [hblocked, Tests] at hno

/-- The compaction thread sleeps, is asked for a round and notified. -/
def heardRun : List (CompactionSignalsOp Unit) :=
  [.compactor, .compactor, .compactor, .schedule (), .notifyOne () (some .compactionThread), .destroy, .destroyLock,
    .destroyNotify none]

theorem never_asleep_over_request_heardRun : ∃ s t, exec step (start Unit) (heardRun.take 4) = some s ∧
    CompactionWaiter.compactionThread ∈ s.waitSet ∧ (∃ i, s.callers i = .scheduled ∨ s.callers i = .resuming) ∧
    exec step (start Unit) heardRun = some t ∧ CompactionWaiter.compactionThread ∉ t.waitSet := by
  have hasleep : (exec step (start Unit) (heardRun.take 4)).map (fun s => (s.waitSet, s.needed, s.paused)) =
      some ({.compactionThread}, true, false) := by decide
  have hjoins : (exec step (start Unit) heardRun).map (·.destructor) = some .joining := by decide
  obtain ⟨s, hs, hfields⟩ := Option.map_eq_some_iff.mp hasleep
  obtain ⟨t, ht, hjoins⟩ := Option.map_eq_some_iff.mp hjoins
  simp only [Prod.mk.injEq] at hfields
  obtain ⟨hset, hneeded, hpaused⟩ := hfields
  have hmem : CompactionWaiter.compactionThread ∈ s.waitSet := by simp [hset]
  exact ⟨s, t, hs, hmem, (never_asleep_over_request hs (by decide)).1 hmem hneeded hpaused, ht,
    ((never_asleep_over_request ht (by decide)).2 hjoins).1⟩

/-- A store that falls between the test and the sleep: nobody is left to notify. -/
theorem asleep_unheard :
    (exec step (start Unit) [.compactor, .compactor, .schedule (), .notifyOne () none, .compactor]).map
      (fun s => (s.waitSet, s.needed, s.paused, s.callers ())) = some ({.compactionThread}, true, false, .idle) := by
  decide

end CompactionSignals

end KvStorageEngine
