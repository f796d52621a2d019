import KvStorageEngine.Engine.Correctness.FlushBarrier
import KvStorageEngine.Engine.SyncSignals

/-!
# `Engine.Correctness.ClosedLog` — the log is complete when it is closed

The destructor of the log is heard in any case, since the sync thread tests `shutdown_` and the request under
`sync_mutex_`, and the `doSync` behind the loop writes what is left: everything that was appended before the destructor
was called is in the file when it returns (`closed_log_complete`). As in `Engine.WriteAheadLog`, a `write` writes the whole
buffer; what is lost where it does not is the matter of `Engine.Correctness.LostWrites`.
-/

namespace KvStorageEngine

open Run

namespace SyncSignals

variable {β ι : Type} [DecidableEq ι] {file₀ : List β} {s s' : SyncSignals β ι} {i : ι}

/-! ## A. The sync thread and the destructor

The sync thread tests `shutdown_` and the request under `sync_mutex_`. The destructor stores `shutdown_`, then takes that
mutex for the request and notifies afterwards, so the notification comes when the thread has either seen the flag or
sleeps. `LoopInv` says so by the places of the two: a sleeping sync thread has not been notified by the destructor yet.
-/

/-- The sync thread is in the `doSync` behind its loop, or has left. -/
def IsLast : SyncLoopPc → Prop
  | .syncing last | .stored last => last = true
  | .exited => True
  | .testing | .checking | .sleeping => False

/-- Where the sync thread, `doSync` and the destructor are. -/
structure LoopInv (sync : SyncPc) (loop : SyncLoopPc) (shutdown : Bool) (destructor : LogDestructorPc) : Prop where
  syncing : sync ≠ .idle → ∃ last, loop = .syncing last
  called : shutdown = true ↔ destructor ≠ .notCalled
  leaves : IsLast loop → shutdown = true
  heard : loop = .sleeping → destructor ≠ .joining ∧ destructor ≠ .returned
  joined : destructor = .returned → loop = .exited

namespace LoopInv

variable {sync : SyncPc} {loop : SyncLoopPc} {shutdown : Bool} {destructor : LogDestructorPc}

/-- A wake-up of the sync thread puts it before its test. -/
theorem wake (h : LoopInv sync loop shutdown destructor) : LoopInv sync loop.wake shutdown destructor := by
  cases hloop : loop with
  | sleeping =>
      subst hloop
      refine ⟨fun hsync => ?_, h.called, fun hlast => hlast.elim, fun hloop => ?_, fun hreturned => ?_⟩
      · obtain ⟨last, hlast⟩ := h.syncing hsync
        exact absurd hlast (by simp)
      · exact absurd hloop (by simp [SyncLoopPc.wake])
      · exact absurd (h.joined hreturned) (by simp)
  | testing | checking | syncing last | stored last | exited =>
      subst hloop
      exact h

/-- The sync thread goes on where it is not behind its loop and not asleep. -/
theorem move (h : LoopInv sync loop shutdown destructor) {sync' : SyncPc} {loop' : SyncLoopPc} (hloop : loop ≠ .exited)
    (hsync : sync' ≠ .idle → ∃ last, loop' = .syncing last) (hlast : IsLast loop' → shutdown = true)
    (hheard : loop' = .sleeping → shutdown = false) : LoopInv sync' loop' shutdown destructor := by
  refine ⟨hsync, h.called, hlast, fun hsleeps => ?_, fun hreturned => absurd (h.joined hreturned) hloop⟩
  have hnot : destructor = .notCalled := by
    by_contra hne
    exact absurd ((h.called.mpr hne).symm.trans (hheard hsleeps)) (by decide)
  simp [hnot]

/-- Behind the last `doSync` is only the end of the thread. -/
theorem isLast_next {last : Bool} (h : IsLast (.next last)) : last = true := by
  cases last with
  | true => rfl
  | false => exact h.elim

theorem next_ne_sleeping (last : Bool) : SyncLoopPc.next last ≠ .sleeping := by cases last <;> decide

end LoopInv

/-! ## B. The callers and the mutex -/

/-- A caller between its test and its sleep holds the mutex, and who sleeps is waiting. -/
structure CallerInv (bufferMutex : Option ι) (waitSet : Finset ι) (signals : ι → SignalPc) : Prop where
  mutex : ∀ i, signals i = .tested ↔ bufferMutex = some i
  asleep : ∀ i ∈ waitSet, signals i = .waiting

namespace CallerInv

variable {bufferMutex : Option ι} {waitSet : Finset ι} {signals : ι → SignalPc}

/-- A caller that neither holds the mutex nor sleeps goes on, without the mutex. -/
theorem move (h : CallerInv bufferMutex waitSet signals) {i : ι} {pc : SignalPc} (hpc : signals i ≠ .tested)
    (hwaits : i ∉ waitSet) (hpc' : pc ≠ .tested) : CallerInv bufferMutex waitSet (Function.update signals i pc) := by
  refine ⟨fun j => ?_, fun j hj => ?_⟩
  · by_cases hji : j = i
    · subst hji
      rw [Function.update_self]
      exact iff_of_false hpc' fun hmutex => hpc ((h.mutex j).mpr hmutex)
    · rw [Function.update_of_ne hji]
      exact h.mutex j
  · have hji : j ≠ i := fun hji => hwaits (hji ▸ hj)
    rw [Function.update_of_ne hji]
    exact h.asleep j hj

/-- It takes the mutex. -/
theorem lock (h : CallerInv none waitSet signals) {i : ι} (hwaits : i ∉ waitSet) :
    CallerInv (some i) waitSet (Function.update signals i .tested) := by
  refine ⟨fun j => ?_, fun j hj => ?_⟩
  · by_cases hji : j = i
    · simp [hji]
    · rw [Function.update_of_ne hji]
      refine iff_of_false (fun htested => ?_) fun hmutex => hji (Option.some.inj hmutex).symm
      exact absurd ((h.mutex j).mp htested) (by simp)
  · have hji : j ≠ i := fun hji => hwaits (hji ▸ hj)
    rw [Function.update_of_ne hji]
    exact h.asleep j hj

/-- It goes to sleep, and gives the mutex up. -/
theorem sleep (h : CallerInv bufferMutex waitSet signals) {i : ι} (hpc : signals i = .tested) :
    CallerInv none (insert i waitSet) (Function.update signals i .waiting) := by
  have hmutex := (h.mutex i).mp hpc
  refine ⟨fun j => ?_, fun j hj => ?_⟩
  · by_cases hji : j = i
    · simp [hji]
    · rw [Function.update_of_ne hji]
      refine iff_of_false (fun htested => hji ?_) (by simp)
      exact Option.some.inj (((h.mutex j).mp htested).symm.trans hmutex)
  · by_cases hji : j = i
    · rw [hji, Function.update_self]
    · rw [Function.update_of_ne hji]
      exact h.asleep j ((Finset.mem_insert.mp hj).resolve_left hji)

omit [DecidableEq ι] in
/-- Some of the sleepers are woken up. -/
theorem wake (h : CallerInv bufferMutex waitSet signals) {waitSet' : Finset ι} (hsub : waitSet' ⊆ waitSet) :
    CallerInv bufferMutex waitSet' signals := ⟨h.mutex, fun j hj => h.asleep j (hsub hj)⟩

end CallerInv

/-! ## C. One step

The steps of the log itself are those of `Engine.WriteAheadLog`, whose invariant of the bytes is taken over; what is
new is where each step may be taken. -/

/-- What holds in every state. -/
structure Inv (file₀ : List β) (s : SyncSignals β ι) : Prop where
  bytes : WriteAheadLog.BytesInv file₀ s.log
  loop : LoopInv s.log.sync s.loop s.shutdown s.destructor
  callers : CallerInv s.bufferMutex s.waitSet s.signals

theorem inv_start (interval : Nat) (file₀ : List β) : Inv file₀ (start ι interval file₀) where
  bytes := WriteAheadLog.bytesInv_new file₀
  loop := by
    refine ⟨fun h => absurd rfl h, ?_, ?_, ?_, ?_⟩ <;> simp [start, IsLast]
  callers := ⟨fun i => by simp [start], fun i hi => by simp [start] at hi⟩

theorem signals_setPc_self (s : SyncSignals β ι) (i : ι) (pc : SignalPc) : (s.setPc i pc).signals i = pc :=
  Function.update_self ..

theorem signals_setPc_ne (s : SyncSignals β ι) {i j : ι} (h : j ≠ i) (pc : SignalPc) :
    (s.setPc i pc).signals j = s.signals j := Function.update_of_ne h ..

/-- A step of the log is one of those of `Engine.WriteAheadLog`. -/
theorem log_step {op : SyncSignalsOp β ι} (hs : s.step op = some s') :
    s'.log = s.log ∨ ∃ walOp, s.log.step walOp = some s'.log := by
  cases Effect.of_step hs with
  | append _ hlog | appendFull _ hlog | flushRequest _ hlog | flushLoad _ hlog | passes _ _ hlog
  | swapEmpty _ _ _ hlog | swap _ _ _ hlog | write _ hlog | store _ hlog => exact Or.inr ⟨_, hlog⟩
  | request | notify | blocks | wait | wake | loopLeaves | loopEnters | loopPasses | loopSleeps | loopTimeout
  | loopWake | notifyAll | destroy | destroyRequest | destroyNotify | join => exact Or.inl rfl

/-- Appends and flushes leave `doSync` where it is. -/
theorem sync_eq {log log' : WriteAheadLog β ι} {walOp : WalOp β ι}
    (hop : walOp ≠ .syncSwap ∧ walOp ≠ .syncWrite ∧ walOp ≠ .syncStore) (hlog : log.step walOp = some log') :
    log'.sync = log.sync ∧ log'.syncedGeneration = log.syncedGeneration := by
  have heff := WriteAheadLog.step_effect hlog
  cases walOp with
  | append entry | flushRequest i =>
      obtain rfl : log' = _ := heff
      exact ⟨rfl, rfl⟩
  | flushLoad i =>
      obtain ⟨before, -, rfl⟩ := heff
      exact ⟨rfl, rfl⟩
  | flushReturn i =>
      obtain ⟨before, myGen, -, -, rfl⟩ := heff
      exact ⟨rfl, rfl⟩
  | syncSwap | syncWrite | syncStore => simp at hop

/-- Every step keeps the places of the sync thread and the destructor in order. -/
theorem LoopInv.step (h : LoopInv s.log.sync s.loop s.shutdown s.destructor) {op : SyncSignalsOp β ι}
    (hs : s.step op = some s') : LoopInv s'.log.sync s'.loop s'.shutdown s'.destructor := by
  cases Effect.of_step hs with
  | append _ hlog | flushRequest _ hlog | flushLoad _ hlog | passes _ _ hlog =>
      exact (sync_eq (by simp) hlog).1.symm ▸ h
  | appendFull _ hlog =>
      have hwake := h.wake
      rwa [← (sync_eq (by simp) hlog).1] at hwake
  | request | blocks | wait | wake => exact h
  | notify => exact h.wake
  | loopLeaves hpc hshut =>
      refine h.move (by simp [hpc]) (fun _ => ⟨true, rfl⟩) (fun _ => hshut) (by simp)
  | loopEnters hpc _ | loopWake hpc | loopSleeps hpc _ _ =>
      have hidle : s.log.sync = .idle := by
        by_contra hsync
        obtain ⟨last, hlast⟩ := h.syncing hsync
        exact absurd (hpc.symm.trans hlast) (by simp)
      exact h.move (by simp [hpc]) (fun hsync => absurd hidle hsync) (fun hlast => hlast.elim) (by simp [*])
  | loopPasses hpc | loopTimeout hpc _ =>
      exact h.move (by simp [hpc]) (fun _ => ⟨false, rfl⟩) (fun hlast => absurd hlast (by simp [IsLast])) (by simp)
  | @swapEmpty last log hpc _ hempty hlog =>
      obtain ⟨hidle, ⟨-, rfl⟩ | ⟨hsome, -⟩⟩ := WriteAheadLog.step_effect hlog
      · refine h.move (by simp [hpc]) (fun hsync => absurd hidle hsync) (fun hlast => h.leaves ?_) fun hsleeps => ?_
        · rw [hpc]
          exact isLast_next hlast
        · exact absurd hsleeps (next_ne_sleeping last)
      · exact absurd hempty hsome
  | @swap last log hpc _ _ hlog | @write last log hpc hlog =>
      refine h.move (by simp [hpc]) (fun _ => ⟨last, hpc⟩) (fun hlast => h.leaves hlast) fun hsleeps => ?_
      exact absurd (hpc.symm.trans hsleeps) (by simp)
  | @store last log hpc hlog =>
      obtain ⟨-, rfl⟩ := WriteAheadLog.step_effect hlog
      refine h.move (by simp [hpc]) (fun hsync => absurd rfl hsync) (fun hlast => h.leaves ?_) (by simp)
      rw [hpc]
      exact hlast
  | @notifyAll last hpc =>
      have hidle : s.log.sync = .idle := by
        by_contra hsync
        obtain ⟨last, hlast⟩ := h.syncing hsync
        exact absurd (hpc.symm.trans hlast) (by simp)
      refine h.move (by simp [hpc]) (fun hsync => absurd hidle hsync) (fun hlast => h.leaves ?_) fun hsleeps => ?_
      · rw [hpc]
        exact isLast_next hlast
      · exact absurd hsleeps (next_ne_sleeping last)
  | destroy hpc =>
      exact ⟨h.syncing, by simp, fun _ => rfl, fun _ => by simp, by simp⟩
  | destroyRequest hpc =>
      have hshut := h.called.mpr (by simp [hpc])
      exact ⟨h.syncing, by simp [hshut], h.leaves, fun _ => by simp, by simp⟩
  | destroyNotify hpc =>
      have hshut := h.called.mpr (by simp [hpc])
      have hwake := h.wake
      refine ⟨hwake.syncing, by simp [hshut], hwake.leaves, fun hsleeps => ?_, by simp⟩
      -- the notification has woken the sync thread up
      cases hloop : s.loop <;> simp [hloop, SyncLoopPc.wake] at hsleeps
  | join hpc hloop =>
      have hshut := h.called.mpr (by simp [hpc])
      exact ⟨h.syncing, by simp [hshut], h.leaves, by simp [hloop], fun _ => hloop⟩

/-- Every step keeps the callers' places and the mutex in order. -/
theorem CallerInv.step (h : CallerInv s.bufferMutex s.waitSet s.signals) {op : SyncSignalsOp β ι}
    (hs : s.step op = some s') : CallerInv s'.bufferMutex s'.waitSet s'.signals := by
  have hawake : ∀ i, s.signals i ≠ .waiting → i ∉ s.waitSet := fun i hpc hmem => hpc (h.asleep i hmem)
  have hattest : ∀ i, s.AtTest i → s.signals i ≠ .tested ∧ i ∉ s.waitSet := by
    rintro i (hpc | ⟨hpc, hmem⟩)
    · exact ⟨by simp [hpc], hawake i (by simp [hpc])⟩
    · exact ⟨by simp [hpc], hmem⟩
  cases Effect.of_step hs with
  | append | appendFull | flushRequest | loopLeaves | loopEnters | loopPasses | loopSleeps | loopTimeout | loopWake
  | swap | write | store | destroy | destroyRequest | destroyNotify | join => exact h
  | @flushLoad i _ hpc _ => exact h.move (by simp [hpc]) (hawake i (by simp [hpc])) (by simp)
  | @request i hpc => exact h.move (by simp [hpc]) (hawake i (by simp [hpc])) (by simp)
  | @notify i hpc => exact h.move (by simp [hpc]) (hawake i (by simp [hpc])) (by simp)
  | @passes i _ _ hpc _ => exact h.move (hattest i hpc).1 (hattest i hpc).2 (by simp)
  | @blocks i hmutex hpc _ =>
      rw [hmutex] at h
      exact h.lock (hattest i hpc).2
  | wait hpc => exact h.sleep hpc
  | wake _ => exact h.wake (Finset.erase_subset _ _)
  | swapEmpty | notifyAll => exact h.wake (Finset.empty_subset _)

/-- **One step.** -/
theorem Inv.step (h : Inv file₀ s) {op : SyncSignalsOp β ι} (hs : s.step op = some s') : Inv file₀ s' := by
  refine ⟨?_, h.loop.step hs, h.callers.step hs⟩
  rcases log_step hs with hlog | ⟨walOp, hlog⟩
  · exact hlog.symm ▸ h.bytes
  · exact h.bytes.step hlog

/-- A log keeps its invariant in every run. -/
theorem inv_of_exec {interval : Nat} {ops : List (SyncSignalsOp β ι)}
    (h : exec step (start ι interval file₀) ops = some s) : Inv file₀ s :=
  exec_invariant (inv_start interval file₀) (fun _ _ _ hi hs => hi.step hs) h

/-! ## D. The closed log

The records appended before the destructor's call are followed through the last `doSync`: first they are in one of the
two buffers, then in the file. That `doSync` runs after the loop, hence after the call. -/

/-- The last `doSync` has taken the first `n` records out of the buffer, or written them. -/
def Closing (file₀ : List β) (n : Nat) (s : SyncSignals β ι) : Prop :=
  n ≤ s.log.appended.length ∧
    match s.loop with
    | .syncing last => last = true → s.log.sync ≠ .idle → WriteAheadLog.Taken file₀ s.log n
    | .stored last => last = true → WriteAheadLog.Written file₀ s.log n
    | .exited => WriteAheadLog.Written file₀ s.log n
    | .testing | .checking | .sleeping => True

variable {n : Nat}

/-- What was taken out of the buffer stays so. -/
theorem taken_step {log log' : WriteAheadLog β ι} {walOp : WalOp β ι} (hn : n ≤ log.appended.length)
    (hswap : walOp ≠ .syncSwap) (hlog : log.step walOp = some log') (htaken : WriteAheadLog.Taken file₀ log n) :
    WriteAheadLog.Taken file₀ log' n := by
  obtain ⟨tail, htail⟩ := (WriteAheadLog.step_grows hlog).2
  have hbuffers : log'.file ++ log'.syncBuffer = log.file ++ log.syncBuffer := by
    have heff := WriteAheadLog.step_effect hlog
    cases walOp with
    | append entry | flushRequest i =>
        obtain rfl : log' = _ := heff
        rfl
    | flushLoad i =>
        obtain ⟨before, -, rfl⟩ := heff
        rfl
    | flushReturn i =>
        obtain ⟨before, myGen, -, -, rfl⟩ := heff
        rfl
    | syncSwap => exact absurd rfl hswap
    | syncWrite =>
        obtain ⟨-, rfl⟩ := heff
        exact List.append_nil _
    | syncStore =>
        obtain ⟨-, rfl⟩ := heff
        rfl
  unfold WriteAheadLog.Taken at htaken ⊢
  rwa [hbuffers, ← htail, List.take_append_of_le_length hn]

/-- A step of the log apart from a swap and a store, with the sync thread where it was. -/
theorem Closing.log (h : Closing file₀ n s) {log : WriteAheadLog β ι} {walOp : WalOp β ι} (hswap : walOp ≠ .syncSwap)
    (hidle : log.sync ≠ .idle → s.log.sync ≠ .idle) (hlog : s.log.step walOp = some log) :
    Closing file₀ n { s with log } := by
  obtain ⟨hn, hloop⟩ := h
  refine ⟨hn.trans (WriteAheadLog.step_grows hlog).2.length_le, ?_⟩
  cases hpc : s.loop with
  | syncing last =>
      simp only [hpc] at hloop ⊢
      exact fun hlast hsync => taken_step hn hswap hlog (hloop hlast (hidle hsync))
  | stored last =>
      simp only [hpc] at hloop ⊢
      exact fun hlast => (hloop hlast).step hn hlog
  | exited =>
      simp only [hpc] at hloop ⊢
      exact hloop.step hn hlog
  | testing | checking | sleeping => trivial

omit [DecidableEq ι] in
theorem Closing.wake (h : Closing file₀ n s) (hloop : s'.loop = s.loop.wake) (hlog : s'.log = s.log) :
    Closing file₀ n s' := by
  obtain ⟨hn, hrest⟩ := h
  refine ⟨hlog ▸ hn, ?_⟩
  rw [hloop, hlog]
  cases hpc : s.loop with
  | sleeping => trivial
  | testing | checking => trivial
  | syncing last | stored last | exited =>
      simp only [hpc] at hrest
      exact hrest

/-- What the last `doSync` has taken it does not lose again. -/
theorem Closing.step (h : Closing file₀ n s) (hinv : Inv file₀ s) {op : SyncSignalsOp β ι}
    (hs : s.step op = some s') : Closing file₀ n s' := by
  have hloop := h.2
  have hidle : (∀ last, s.loop ≠ .syncing last) → s.log.sync = .idle := by
    intro hpc
    by_contra hsync
    obtain ⟨last, hlast⟩ := hinv.loop.syncing hsync
    exact hpc last hlast
  cases Effect.of_step hs with
  | append _ hlog | flushRequest _ hlog | flushLoad _ hlog | passes _ _ hlog =>
      have hsync := (sync_eq (by simp) hlog).1
      exact h.log (by simp) (fun hne => hsync ▸ hne) hlog
  | appendFull _ hlog =>
      have hsync := (sync_eq (by simp) hlog).1
      exact (h.log (by simp) (fun hne => hsync ▸ hne) hlog).wake rfl rfl
  | request | blocks | wait | wake | destroy | destroyRequest | join => exact h
  | notify | destroyNotify => exact h.wake rfl rfl
  | loopLeaves hpc _ => exact ⟨h.1, fun _ hsync => absurd (hidle (by simp [hpc])) hsync⟩
  | loopPasses | loopTimeout => exact ⟨h.1, fun hlast => absurd hlast (by simp)⟩
  | loopEnters | loopSleeps | loopWake => exact ⟨h.1, trivial⟩
  | @swapEmpty last log hpc _ hempty hlog =>
      obtain ⟨hsync, ⟨-, rfl⟩ | ⟨hsome, -⟩⟩ := WriteAheadLog.step_effect hlog
      · refine ⟨h.1, ?_⟩
        cases last with
        | false => trivial
        | true =>
            have hbuffer : s.log.writeBuffer = [] := by
              rw [← List.length_eq_zero_iff, ← hinv.bytes.size]
              exact hempty
            have hwritten : WriteAheadLog.Written file₀ s.log n :=
              (hinv.bytes.taken hbuffer).written (hinv.bytes.synced (by simp [hsync]))
            exact hwritten
      · exact absurd hempty hsome
  | @swap last log hpc _ hsome hlog =>
      have hbytes := hinv.bytes.step hlog
      obtain ⟨-, ⟨hempty, -⟩ | ⟨-, rfl⟩⟩ := WriteAheadLog.step_effect hlog
      · exact absurd hempty hsome
      · refine ⟨h.1, ?_⟩
        simp only [hpc]
        exact fun _ _ => hbytes.taken rfl
  | @write last log hpc hlog =>
      have hswapped : s.log.sync = .swapped := (WriteAheadLog.step_effect hlog).1
      exact h.log (by simp) (fun _ => by simp [hswapped]) hlog
  | @store last log hpc hlog =>
      obtain ⟨hsync, rfl⟩ := WriteAheadLog.step_effect hlog
      simp only [hpc] at hloop
      refine ⟨h.1, fun hlast => ?_⟩
      have hwritten : WriteAheadLog.Written file₀ s.log n :=
        (hloop hlast (by simp [hsync])).written (hinv.bytes.synced (by simp [hsync]))
      exact hwritten
  | @notifyAll last hpc =>
      simp only [hpc] at hloop
      refine ⟨h.1, ?_⟩
      cases last with
      | false => trivial
      | true => exact hloop rfl

/-- **A closed log is complete.** Once the destructor has notified the sync thread, that thread does not sleep any more;
    and when the destructor has returned, everything that was appended before it was called is in the file, behind what
    the file held before. -/
theorem closed_log_complete (interval : Nat) (file₀ : List β) {ops further : List (SyncSignalsOp β ι)}
    {s t : SyncSignals β ι} (h : exec step (start ι interval file₀) ops = some s) (ht : exec step s further = some t) :
    (t.destructor = .joining → t.loop ≠ .sleeping) ∧
      (s.destructor = .notCalled → t.destructor = .returned →
        file₀ ++ s.log.appended.flatten <+: t.log.file) := by
  have hinv := inv_of_exec h
  have hinv' : Inv file₀ t := exec_invariant hinv (fun _ _ _ hi hs => hi.step hs) ht
  refine ⟨fun hjoining hsleeps => (hinv'.loop.heard hsleeps).1 hjoining, fun hcalled hreturned => ?_⟩
  -- before the destructor is called the sync thread is in its loop
  have hlast : ¬ IsLast s.loop := fun hlast => hinv.loop.called.mp (hinv.loop.leaves hlast) hcalled
  have hclosing : Closing file₀ s.log.appended.length s := by
    refine ⟨le_rfl, ?_⟩
    cases hloop : s.loop with
    | syncing last | stored last =>
        rw [hloop] at hlast
        exact fun htrue => absurd htrue hlast
    | exited =>
        rw [hloop] at hlast
        exact absurd trivial hlast
    | testing | checking | sleeping => trivial
  have hfinal := exec_invariant
    (I := fun u => Inv file₀ u ∧ Closing file₀ s.log.appended.length u ∧ s.log.appended <+: u.log.appended)
    ⟨hinv, hclosing, List.prefix_refl _⟩
    (fun u op v hu hs => by
      refine ⟨hu.1.step hs, hu.2.1.step hu.1 hs, hu.2.2.trans ?_⟩
      rcases log_step hs with hlog | ⟨walOp, hlog⟩
      · rw [hlog]
      · exact (WriteAheadLog.step_grows hlog).2) ht
  obtain ⟨-, ⟨-, hwritten⟩, tail, htail⟩ := hfinal
  simp only [hinv'.loop.joined hreturned, WriteAheadLog.Written, ← htail, List.take_left] at hwritten
  exact hwritten

/-- A log that held one byte, with a record of two that the destructor finds in the buffer. -/
def closingRun : List (SyncSignalsOp Nat Unit) :=
  [.loopTest, .loopCheck, .destroy, .destroyRequest, .destroyNotify, .loopCheck, .swap, .write, .store, .notifyAll,
    .loopTest, .swap, .join]

theorem closed_log_complete_closingRun : ∃ s t : SyncSignals Nat Unit,
    exec step (start Unit 10 [0]) [.append [1, 2]] = some s ∧ exec step s closingRun = some t ∧
      [0, 1, 2] <+: t.log.file := by
  have hrun : (exec step (start Unit 10 [0]) [.append [1, 2]]).bind (fun s : SyncSignals Nat Unit =>
      (exec step s closingRun).map fun t => (s.destructor, s.log.appended, t.destructor)) =
      some (.notCalled, [[1, 2]], .returned) := by decide
  obtain ⟨s, hs, hrest⟩ := Option.bind_eq_some_iff.mp hrun
  obtain ⟨t, ht, hfields⟩ := Option.map_eq_some_iff.mp hrest
  simp only [Prod.mk.injEq] at hfields
  obtain ⟨hcalled, happended, hreturned⟩ := hfields
  have hfile := (closed_log_complete 10 [0] hs ht).2 hcalled hreturned
  rw [happended] at hfile
  exact ⟨s, t, hs, ht, hfile⟩

end SyncSignals

end KvStorageEngine
