import KvStorageEngine.Engine.FlushSignals
import Mathlib.Data.Finset.Insert

/-!
# `Engine.Correctness.FlushWakeups` — lost and misdirected wake-ups

While the flush thread waits, its callers have something to wait for only if there is an immutable memtable that it has
not taken yet, and then somebody is still to notify it (`Inv`). Two kinds of steps break this. A `notify_all` comes too
early for a caller that has seen the old immutable memtable and is not asleep yet; and a `notify_one` that is meant for
the flush thread goes to a caller. Without these the hand-over is never stuck (`not_stuck_of_heard`).
-/

namespace KvStorageEngine

open Run

variable [Platform]

namespace FlushSignals

variable {ι : Type} [DecidableEq ι] {s s' : FlushSignals ι}

/-! ## A. The property and the condition

A hand-over is stuck when both sides sleep and nobody is left to notify them. `Heard` names the two steps that lead
there, by the state before them. -/

/-- The flush thread and a caller sleep and nobody is to notify them, though one of them could go on. -/
def Stuck (s : FlushSignals ι) : Prop :=
  Waiter.flushThread ∈ s.waitSet ∧ (∃ i, Waiter.caller i ∈ s.waitSet) ∧ (∀ i, s.callers i ≠ .published) ∧
    (s.engine.immutableMemtable = none ∨ s.flushPending = true)

/-- The notifications that have to be heard: by a caller about to sleep, and by the flush thread, unless it has another
    one to come. -/
def Heard (s : FlushSignals ι) : SignalOp ι → Prop
  | .notifyAll => s.engine.immutableMemtable = none → ∀ i, s.callers i ≠ .checked
  | .notifyOne i woken => Waiter.flushThread ∈ s.waitSet → s.flushPending = true →
      woken = some .flushThread ∨ ∃ j, j ≠ i ∧ s.callers j = .published
  | .write _ | .call _ _ | .check _ | .wait _ | .publish _ | .wake _ | .flushCheck | .flushInstall | .flushReset => True

/-! ## B. The invariant

The flush thread tests its predicate under `flush_mutex_` and a caller sets `flush_pending_` under it, so a flush
thread that sleeps with a flush pending still has a notification to come (`answered`). What a caller waits for is set
by the flush thread without that mutex, and here only `Heard` helps (`unheard`). -/

/-- The flush thread is working on the immutable memtable. -/
def Busy (s : FlushSignals ι) : Prop :=
  match s.flusher with
  | .took _ | .installed => True
  | .locking | .waiting | .reset => False

/-- The flush thread is at its test, or asleep. -/
def Listening (s : FlushSignals ι) : Prop := s.flusher = .locking ∨ s.flusher = .waiting

/-- The caller is in the part of `checkFlush` that is under the mutex. -/
def Holds (s : FlushSignals ι) (i : ι) : Prop := s.callers i = .checked ∨ s.callers i = .rotating

/-- The invariant of a run in which all notifications are heard. -/
structure Inv (s : FlushSignals ι) : Prop where
  holder : ∀ i, Holds s i → s.mutex = some i
  asleep : Waiter.flushThread ∈ s.waitSet → s.flusher = .waiting
  pending : s.flushPending = true → s.engine.immutableMemtable ≠ none
  busy : Busy s → s.engine.immutableMemtable ≠ none ∧ s.flushPending = false
  taken : ¬ Busy s → s.engine.immutableMemtable ≠ none → s.flushPending = true
  unheard : Listening s → s.engine.immutableMemtable = none →
    ∀ i, Waiter.caller i ∉ s.waitSet ∧ s.callers i ≠ .checked
  answered : Waiter.flushThread ∈ s.waitSet → s.flushPending = true → ∃ i, s.callers i = .published

omit [DecidableEq ι] in
/-- An engine without an immutable memtable starts in order. -/
theorem inv_start (engine : StorageEngine) (h : engine.immutableMemtable = none) : Inv (start ι engine) := by
  refine ⟨?_, ?_, ?_, ?_, ?_, ?_, ?_⟩ <;> simp [start, Busy, Holds, h]

theorem callers_setPc_self (i : ι) (pc : CallerPc) : (s.setPc i pc).callers i = pc := Function.update_self _ _ _

theorem callers_setPc_ne {i j : ι} (h : j ≠ i) (pc : CallerPc) : (s.setPc i pc).callers j = s.callers j :=
  Function.update_of_ne h _ _

omit [DecidableEq ι] in
/-- Nobody is under the free mutex. -/
theorem Inv.not_holds (h : Inv s) (hmutex : s.mutex = none) (i : ι) : ¬ Holds s i := by
  intro hi
  have howner := h.holder i hi
  rw [hmutex] at howner
  exact absurd howner (by simp)

omit [DecidableEq ι] in
/-- Only one caller is under the mutex. -/
theorem Inv.not_holds_of_ne (h : Inv s) {i j : ι} (hi : Holds s i) (hj : j ≠ i) : ¬ Holds s j := by
  intro hj'
  exact hj (Option.some.inj ((h.holder j hj').symm.trans (h.holder i hi)))

omit [DecidableEq ι] in
theorem not_busy_of_listening (h : Listening s) : ¬ Busy s := by
  unfold Busy
  rcases h with h | h <;> simp [h]

omit [DecidableEq ι] in
/-- At its test the flush thread listens and is awake. -/
theorem Inv.flushAtCheck (h : Inv s) (hpc : s.FlushAtCheck) : Listening s ∧ Waiter.flushThread ∉ s.waitSet := by
  unfold FlushAtCheck at hpc
  cases hf : s.flusher <;> simp only [hf] at hpc
  · refine ⟨Or.inl hf, fun hin => ?_⟩
    have hwaiting := h.asleep hin
    rw [hf] at hwaiting
    exact absurd hwaiting (by simp)
  · exact ⟨Or.inr hf, hpc⟩

section Move

variable {i : ι} {pc : CallerPc}

/-- After a move of one caller the mutex is still with whoever is under it. -/
theorem holder_setPc (hself : pc = .checked ∨ pc = .rotating → s.mutex = some i)
    (hothers : ∀ j, j ≠ i → Holds s j → s.mutex = some j) (j : ι) (hj : Holds (s.setPc i pc) j) :
    (s.setPc i pc).mutex = some j := by
  unfold Holds at hj
  by_cases hji : j = i
  · subst hji
    rw [callers_setPc_self] at hj
    exact hself hj
  · rw [callers_setPc_ne hji] at hj
    exact hothers j hji hj

/-- A caller that does not come between test and wait leaves the sleeping callers as they are. -/
theorem unheard_setPc (hpc : pc ≠ .checked) (h : ∀ j, Waiter.caller j ∉ s.waitSet ∧ s.callers j ≠ .checked) (j : ι) :
    Waiter.caller j ∉ (s.setPc i pc).waitSet ∧ (s.setPc i pc).callers j ≠ .checked := by
  refine ⟨(h j).1, ?_⟩
  by_cases hji : j = i
  · subst hji
    rwa [callers_setPc_self]
  · rw [callers_setPc_ne hji]
    exact (h j).2

/-- Another caller is still to notify. -/
theorem answered_setPc (h : ∃ j, j ≠ i ∧ s.callers j = .published) : ∃ j, (s.setPc i pc).callers j = .published := by
  obtain ⟨j, hji, hj⟩ := h
  exact ⟨j, (callers_setPc_ne hji _).trans hj⟩

omit [DecidableEq ι] in
/-- As long as the caller is not the one that is to notify. -/
theorem Inv.answered_by_other (h : Inv s) (hi : s.callers i ≠ .published) (hflush : Waiter.flushThread ∈ s.waitSet)
    (hpending : s.flushPending = true) : ∃ j, j ≠ i ∧ s.callers j = .published := by
  obtain ⟨j, hj⟩ := h.answered hflush hpending
  refine ⟨j, ?_, hj⟩
  rintro rfl
  exact hi hj

/-- A caller that moves on, having taken the mutex or not, and has seen an immutable memtable if it is to wait. -/
theorem Inv.move (h : Inv s) {mutex : Option ι} (hold : s.callers i ≠ .published)
    (hchecked : pc = .checked → s.engine.immutableMemtable ≠ none)
    (hself : pc = .checked ∨ pc = .rotating → mutex = some i)
    (hothers : ∀ j, j ≠ i → Holds s j → mutex = some j) : Inv ({ s with mutex := mutex }.setPc i pc) := by
  refine ⟨holder_setPc hself hothers, h.asleep, h.pending, h.busy, h.taken, ?_, ?_⟩
  · intro hlistening himm
    exact unheard_setPc (fun hpc => hchecked hpc himm) (h.unheard hlistening himm)
  · intro hflush hpending
    exact answered_setPc (h.answered_by_other hold hflush hpending)

/-- A caller that goes to sleep has seen an immutable memtable, which is there as long as the flush thread listens. -/
theorem Inv.wait (h : Inv s) (hpc : s.callers i = .checked) :
    Inv ({ s with mutex := none, waitSet := insert (Waiter.caller i) s.waitSet }.setPc i .waiting) := by
  have hin : Waiter.flushThread ∈ insert (Waiter.caller i) s.waitSet → Waiter.flushThread ∈ s.waitSet := by
    intro hflush
    exact (Finset.mem_insert.mp hflush).resolve_left (by simp)
  refine ⟨holder_setPc (by simp) ?_, fun hflush => h.asleep (hin hflush), h.pending, h.busy, h.taken, ?_, ?_⟩
  · exact fun j hji hj => absurd hj (h.not_holds_of_ne (Or.inl hpc) hji)
  · intro hlistening himm
    exact absurd hpc (h.unheard hlistening himm i).2
  · intro hflush hpending
    exact answered_setPc (h.answered_by_other (by simp [hpc]) (hin hflush) hpending)

/-- A caller that publishes is to notify the flush thread. -/
theorem Inv.publish (h : Inv s) {engine : StorageEngine} (hpc : s.callers i = .rotating)
    (himm : s.engine.immutableMemtable = none) (hnew : engine.immutableMemtable ≠ none) :
    Inv ({ s with engine, flushPending := true, mutex := none }.setPc i .published) := by
  refine ⟨holder_setPc (by simp) ?_, h.asleep, fun _ => hnew, ?_, fun _ _ => rfl, fun _ hnone => absurd hnone hnew, ?_⟩
  · exact fun j hji hj => absurd hj (h.not_holds_of_ne (Or.inr hpc) hji)
  · intro hbusy
    exact absurd himm (h.busy hbusy).1
  · exact fun _ _ => ⟨i, callers_setPc_self i _⟩

/-- A caller that has notified: if the flush thread is still asleep, there is another one to notify it. -/
theorem Inv.notified (h : Inv s) (hother : Waiter.flushThread ∈ s.waitSet → s.flushPending = true →
    ∃ j, j ≠ i ∧ s.callers j = .published) : Inv (s.setPc i .idle) := by
  refine ⟨holder_setPc (by simp) fun j _ => h.holder j, h.asleep, h.pending, h.busy, h.taken, ?_, ?_⟩
  · exact fun hlistening himm => unheard_setPc (by simp) (h.unheard hlistening himm)
  · exact fun hflush hpending => answered_setPc (hother hflush hpending)

end Move

/-- A thread that is woken up, by a `notify_one` or for no reason. -/
theorem Inv.wake (h : Inv s) (w : Waiter ι) : Inv { s with waitSet := s.waitSet.erase w } := by
  refine ⟨h.holder, ?_, h.pending, h.busy, h.taken, ?_, ?_⟩
  · exact fun hflush => h.asleep (Finset.mem_of_mem_erase hflush)
  · intro hlistening himm i
    obtain ⟨hasleep, hpc⟩ := h.unheard hlistening himm i
    exact ⟨fun hi => hasleep (Finset.mem_of_mem_erase hi), hpc⟩
  · exact fun hflush hpending => h.answered (Finset.mem_of_mem_erase hflush) hpending

/-- **One step.** -/
theorem Inv.step (h : Inv s) {op : SignalOp ι} (hC : Heard s op) (hs : s.step op = some s') : Inv s' := by
  cases Effect.of_step hs with
  | write request himm =>
      refine ⟨h.holder, h.asleep, ?_, ?_, ?_, ?_, h.answered⟩
      · exact fun hp => himm ▸ h.pending hp
      · exact fun hb => himm ▸ h.busy hb
      · exact fun hb hne => h.taken hb (himm ▸ hne)
      · exact fun hl hnone => h.unheard hl (himm ▸ hnone)
  | call debug hpc =>
      refine h.move (by simp [hpc]) (by simp) (by simp) ?_
      exact fun j _ hj => h.holder j hj
  | checked hmutex hpc himm =>
      refine h.move ?_ (fun _ => himm) (fun _ => rfl) fun j _ hj => absurd hj (h.not_holds hmutex j)
      rcases hpc with hpc | ⟨hpc, -⟩ <;> simp [hpc]
  | rotating hmutex hpc himm =>
      refine h.move ?_ (by simp) (fun _ => rfl) fun j _ hj => absurd hj (h.not_holds hmutex j)
      rcases hpc with hpc | ⟨hpc, -⟩ <;> simp [hpc]
  | wait hpc => exact h.wait hpc
  | publish hpc himm hnew => exact h.publish hpc himm hnew
  | notifyNone hpc hempty =>
      apply h.notified
      intro hflush
      rw [hempty] at hflush
      exact absurd hflush (Finset.notMem_empty _)
  | notifyOne hpc hw =>
      apply (h.wake _).notified
      intro hflush hpending
      obtain ⟨hne, hflush⟩ := Finset.mem_erase.mp hflush
      exact (hC hflush hpending).resolve_left fun heq => hne (Option.some.inj heq).symm
  | wake hw => exact h.wake _
  | flushTake hmutex hpc hpending himm =>
      obtain ⟨-, hawake⟩ := h.flushAtCheck hpc
      refine ⟨h.holder, fun hflush => absurd hflush hawake, ?_, ?_, ?_, ?_, ?_⟩
      · exact fun hp => absurd hp Bool.false_ne_true
      · exact fun _ => ⟨by simp [himm], rfl⟩
      · exact fun hbusy => absurd trivial hbusy
      · exact fun hlistening => absurd hlistening (by simp [Listening])
      · exact fun _ hp => absurd hp Bool.false_ne_true
  | flushAgain hmutex hpc hpending himm => exact absurd himm (h.pending hpending)
  | flushWait hmutex hpc hpending =>
      obtain ⟨hlistening, -⟩ := h.flushAtCheck hpc
      refine ⟨h.holder, fun _ => rfl, h.pending, fun hbusy => absurd hbusy id, ?_, ?_, ?_⟩
      · exact fun _ => h.taken (not_busy_of_listening hlistening)
      · intro _ himm i
        obtain ⟨hasleep, hi⟩ := h.unheard hlistening himm i
        exact ⟨fun hin => hasleep ((Finset.mem_insert.mp hin).resolve_left (by simp)), hi⟩
      · intro _ hp
        exact absurd hp (by simp [hpending])
  | flushInstall hpc himm =>
      have hbusy : Busy s := by simp [Busy, hpc]
      refine ⟨h.holder, ?_, ?_, ?_, ?_, ?_, h.answered⟩
      · intro hflush
        exact absurd (h.asleep hflush) (by simp [hpc])
      · exact fun hp => himm ▸ h.pending hp
      · exact fun _ => himm ▸ h.busy hbusy
      · exact fun hnot => absurd trivial hnot
      · exact fun hlistening => absurd hlistening (by simp [Listening])
  | flushReset hpc =>
      have hbusy : Busy s := by simp [Busy, hpc]
      obtain ⟨-, hpending⟩ := h.busy hbusy
      refine ⟨h.holder, ?_, ?_, fun hb => absurd hb id, ?_, ?_, h.answered⟩
      · intro hflush
        exact absurd (h.asleep hflush) (by simp [hpc])
      · intro hp
        exact absurd (hpending.symm.trans hp) (by decide)
      · exact fun _ hne => absurd rfl hne
      · exact fun hlistening => absurd hlistening (by simp [Listening])
  | notifyAll hpc =>
      refine ⟨h.holder, ?_, h.pending, fun hb => absurd hb id, ?_, ?_, ?_⟩
      · exact fun hflush => absurd hflush (Finset.notMem_empty _)
      · exact fun _ => h.taken (by simp [Busy, hpc])
      · exact fun _ himm i => ⟨Finset.notMem_empty _, hC himm i⟩
      · exact fun hflush => absurd hflush (Finset.notMem_empty _)

/-- **The hand-over is never stuck** in a run in which every notification that matters is heard, whatever the order of
    steps and however many callers there are. -/
theorem not_stuck_of_heard {engine : StorageEngine} (hstart : engine.immutableMemtable = none)
    {ops : List (SignalOp ι)} (h : exec step (start ι engine) ops = some s)
    (hC : Meets step Heard (start ι engine) ops) : ¬ Stuck s := by
  have hinv : Inv s := exec_invariant_of_meets (inv_start engine hstart) (fun _ _ _ hi hC hs => hi.step hC hs) hC h
  rintro ⟨hflush, ⟨i, hi⟩, hnone, himm | hpending⟩
  · exact (hinv.unheard (Or.inr (hinv.asleep hflush)) himm i).1 hi
  · obtain ⟨j, hj⟩ := hinv.answered hflush hpending
    exact hnone j hj

/-- A round of the flush thread on the memtable of the first caller, while the second one waits. -/
def heardRound : List (SignalOp Bool) :=
  [.flushCheck, .call false true, .check false, .publish false, .call true true, .check true, .wait true,
    .notifyOne false (some .flushThread), .flushCheck, .flushInstall, .flushReset]

omit [Platform] in
theorem not_stuck_heardRound : letI := Platform.sample
    ∃ s, exec step (start Bool (StorageEngine.init [] 0)) (heardRound ++ [.notifyAll]) = some s ∧
      s.AtCheck true ∧ ¬ Stuck s := by
  let := Platform.sample
  have hround : (exec step (start Bool (StorageEngine.init [] 0)) heardRound).map
      (fun s => (s.callers false, s.callers true)) = some (.idle, .waiting) := by decide
  have hrun : (exec step (start Bool (StorageEngine.init [] 0)) (heardRound ++ [.notifyAll])).map
      (fun s => decide (s.AtCheck true)) = some true := by decide
  obtain ⟨s, hs, hcheck⟩ := Option.map_eq_some_iff.mp hrun
  refine ⟨s, hs, of_decide_eq_true hcheck, not_stuck_of_heard rfl hs (meets_concat.mpr ⟨?_, ?_⟩)⟩
  · simp [heardRound, Meets, Heard]
  · intro t ht _ i
    rw [ht] at hround
    obtain ⟨hfalse, htrue⟩ := Prod.mk.inj (Option.some.inj hround)
    cases i with
    | false => exact hfalse ▸ by decide
    | true => exact htrue ▸ by decide

/-! ## C. The two wake-ups

Both steps that `Heard` excludes happen, with one caller and with two. -/

/-- **A lost wake-up**: a caller has seen the old immutable memtable, and the flush thread resets it and notifies before
    the caller sleeps. One caller is enough, the writer thread. -/
def lostWakeup : List (SignalOp Unit) :=
  [.call () true, .check (), .publish (), .notifyOne () none, .flushCheck, .flushInstall, .call () true, .check (),
    .flushReset, .notifyAll, .wait (), .flushCheck]

/-- **A misdirected wake-up**: the first caller's notification goes to the second caller, which goes to sleep again. -/
def misdirectedWakeup : List (SignalOp Bool) :=
  [.flushCheck, .call false true, .check false, .publish false, .call true true, .check true, .wait true,
    .notifyOne false (some (.caller true)), .check true, .wait true]

omit [Platform] in
/-- Both leave every thread that is in `checkFlush` asleep together with the flush thread, one without an immutable
    memtable, the other with one that is to be flushed. -/
theorem stuck_lostWakeup : letI := Platform.sample
    (∃ s, exec step (start Unit (StorageEngine.init [] 0)) lostWakeup = some s ∧ s.callers () = .waiting ∧
      s.engine.immutableMemtable = none ∧ Stuck s) ∧
    ∃ s, exec step (start Bool (StorageEngine.init [] 0)) misdirectedWakeup = some s ∧ s.callers false = .idle ∧
      s.callers true = .waiting ∧ s.flushPending = true ∧ Stuck s := by
  let := Platform.sample
  have hlost : (exec step (start Unit (StorageEngine.init [] 0)) lostWakeup).map
      (fun s => (s.waitSet, s.callers (), s.engine.immutableMemtable.isNone))
      = some ({.flushThread, .caller ()}, .waiting, true) := by decide
  have hmisdirected : (exec step (start Bool (StorageEngine.init [] 0)) misdirectedWakeup).map
      (fun s => (s.waitSet, s.callers false, s.callers true, s.flushPending))
      = some ({.flushThread, .caller true}, .idle, .waiting, true) := by decide
  obtain ⟨s, hs, hfields⟩ := Option.map_eq_some_iff.mp hlost
  obtain ⟨t, ht, hfields'⟩ := Option.map_eq_some_iff.mp hmisdirected
  simp only [Prod.mk.injEq] at hfields hfields'
  obtain ⟨hset, hcaller, himm⟩ := hfields
  obtain ⟨hset', hfalse, htrue, hpending⟩ := hfields'
  have himm : s.engine.immutableMemtable = none := by simpa using himm
  refine ⟨⟨s, hs, hcaller, himm, ?_⟩, t, ht, hfalse, htrue, hpending, ?_⟩
  · refine ⟨by simp [hset], ⟨(), by simp [hset]⟩, fun i => ?_, Or.inl himm⟩
    simp [hcaller]
  · refine ⟨by simp [hset'], ⟨true, by simp [hset']⟩, fun i => ?_, Or.inr hpending⟩
    cases i with
    | false => simp [hfalse]
    | true => simp [htrue]

end FlushSignals

end KvStorageEngine
