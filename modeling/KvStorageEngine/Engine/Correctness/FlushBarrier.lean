import KvStorageEngine.Engine.WriteAheadLog
import Mathlib.Data.List.Infix

/-!
# `Engine.Correctness.FlushBarrier` — what a returned flush stands for

Bytes keep their order on the way through the two buffers (`Inv.bytes`), so a flush may return as soon as the
file has grown past what had been appended when it was called. The generations say less than that: a `doSync`
that has already swapped the buffers credits every flush called before its store, also one that found new
records in the write buffer. `sound_of_clearFlush` says that this is the only way to return too early, and
`exists_unsound_of_flush` that every such call can.

`Inv.bytes` holds in every reachable state; the barrier needs the condition.
-/

namespace KvStorageEngine

open Run

namespace WriteAheadLog

variable {β ι : Type} [DecidableEq ι] {file₀ : List β} {s s' : WriteAheadLog β ι}

/-! ## A. The property and the condition

A flush that has returned has everything in the file that was appended before it was called. It returns too early
where the sync thread is between its swap and its store while the write buffer holds records that it has not taken. -/

/-- Everything appended before a flush that has returned is in the file. -/
def Sound (file₀ : List β) (s : WriteAheadLog β ι) : Prop :=
  ∀ i before, s.flushers i = .returned before → file₀ ++ (s.appended.take before).flatten <+: s.file

/-- No flush is called while a `doSync` is past its swap and records are waiting for the next one. -/
def ClearFlush (s : WriteAheadLog β ι) : WalOp β ι → Prop
  | .flushRequest _ => s.sync = .idle ∨ s.writeBuffer = []
  | .append _ | .flushLoad _ | .flushReturn _ | .syncSwap | .syncWrite | .syncStore => True

/-! ## B. Where the bytes are

File, sync buffer and write buffer, in this order, are what was in the file at the beginning and everything appended
since. -/

/-- The file and the two buffers hold what was appended, in order. -/
structure BytesInv (file₀ : List β) (s : WriteAheadLog β ι) : Prop where
  bytes : s.file ++ s.syncBuffer ++ s.writeBuffer = file₀ ++ s.appended.flatten
  size : s.writeBufferSize = s.writeBuffer.length
  synced : s.sync ≠ .swapped → s.syncBuffer = []
  credit : s.syncedGeneration ≤ s.syncGeneration

/-- What each step can do. -/
def StepEffect (s s' : WriteAheadLog β ι) : WalOp β ι → Prop
  | .append entry => s' = { s with
      writeBuffer := s.writeBuffer ++ entry
      writeBufferSize := s.writeBufferSize + entry.length
      appended := s.appended ++ [entry] }
  | .flushRequest i => s' = { s with syncGeneration := s.syncGeneration + 1 }.setPc i
      (.requested s.appended.length)
  | .flushLoad i => ∃ before, s.flushers i = .requested before ∧
      s' = s.setPc i (.waiting before s.syncGeneration)
  | .flushReturn i => ∃ before myGen, s.flushers i = .waiting before myGen ∧
      myGen ≤ s.syncedGeneration ∧ s' = s.setPc i (.returned before)
  | .syncSwap => s.sync = .idle ∧
      ((s.writeBufferSize = 0 ∧ s' = { s with syncedGeneration := s.syncGeneration }) ∨
        (s.writeBufferSize ≠ 0 ∧ s' = { s with
          writeBuffer := []
          syncBuffer := s.writeBuffer
          writeBufferSize := 0
          sync := .swapped }))
  | .syncWrite => s.sync = .swapped ∧ s' = { s with
      file := s.file ++ s.syncBuffer
      syncBuffer := []
      sync := .written }
  | .syncStore => s.sync = .written ∧ s' = { s with
      syncedGeneration := s.syncGeneration
      sync := .idle }

/-- Every step does what `StepEffect` says. -/
theorem step_effect {op : WalOp β ι} (h : s.step op = some s') : StepEffect s s' op := by
  cases op with
  | append entry => exact (Option.some.inj h).symm
  | flushRequest i =>
      cases hf : s.flushers i <;> simp only [step, hf] at h <;> try contradiction
      · exact (Option.some.inj h).symm
      · exact (Option.some.inj h).symm
  | flushLoad i =>
      cases hf : s.flushers i <;> simp only [step, hf] at h <;> try contradiction
      exact ⟨_, hf, (Option.some.inj h).symm⟩
  | flushReturn i =>
      cases hf : s.flushers i <;> simp only [step, hf] at h <;> try contradiction
      split_ifs at h with hg
      exact ⟨_, _, hf, hg, (Option.some.inj h).symm⟩
  | syncSwap =>
      cases hs : s.sync <;> simp only [step, hs] at h <;> try contradiction
      refine ⟨hs, ?_⟩
      by_cases hz : s.writeBufferSize = 0
      · rw [if_pos hz] at h
        exact Or.inl ⟨hz, by rw [← Option.some.inj h, hs]⟩
      · rw [if_neg hz] at h
        exact Or.inr ⟨hz, (Option.some.inj h).symm⟩
  | syncWrite =>
      cases hs : s.sync <;> simp only [step, hs] at h <;> try contradiction
      exact ⟨hs, (Option.some.inj h).symm⟩
  | syncStore =>
      cases hs : s.sync <;> simp only [step, hs] at h <;> try contradiction
      exact ⟨hs, (Option.some.inj h).symm⟩

/-- **Bytes keep their order** in every step. -/
theorem BytesInv.step (h : BytesInv file₀ s) {op : WalOp β ι} (hs : s.step op = some s') :
    BytesInv file₀ s' := by
  have heff := step_effect hs
  obtain ⟨hbytes, hsize, hsynced, hcredit⟩ := h
  cases op with
  | append entry =>
      obtain rfl : s' = _ := heff
      refine ⟨?_, ?_, hsynced, hcredit⟩
      · show s.file ++ s.syncBuffer ++ (s.writeBuffer ++ entry) = file₀ ++ (s.appended ++ [entry]).flatten
        rw [← List.append_assoc, hbytes]
        simp
      · show s.writeBufferSize + entry.length = (s.writeBuffer ++ entry).length
        rw [hsize, List.length_append]
  | flushRequest i =>
      obtain rfl : s' = _ := heff
      exact ⟨hbytes, hsize, hsynced, Nat.le_succ_of_le hcredit⟩
  | flushLoad i =>
      obtain ⟨before, -, rfl⟩ := heff
      exact ⟨hbytes, hsize, hsynced, hcredit⟩
  | flushReturn i =>
      obtain ⟨before, myGen, -, -, rfl⟩ := heff
      exact ⟨hbytes, hsize, hsynced, hcredit⟩
  | syncSwap =>
      obtain ⟨hidle, ⟨-, rfl⟩ | ⟨-, rfl⟩⟩ := heff
      · exact ⟨hbytes, hsize, hsynced, Nat.le_refl _⟩
      · refine ⟨?_, rfl, fun hne => absurd rfl hne, hcredit⟩
        have hempty := hsynced (by rw [hidle]; decide)
        rw [hempty, List.append_nil] at hbytes
        show s.file ++ s.writeBuffer ++ [] = _
        rw [List.append_nil, hbytes]
  | syncWrite =>
      obtain ⟨-, rfl⟩ := heff
      refine ⟨?_, hsize, fun _ => rfl, hcredit⟩
      show s.file ++ s.syncBuffer ++ [] ++ s.writeBuffer = _
      rw [List.append_nil, hbytes]
  | syncStore =>
      obtain ⟨hw, rfl⟩ := heff
      exact ⟨hbytes, hsize, fun _ => hsynced (by rw [hw]; decide), Nat.le_refl _⟩

omit [DecidableEq ι] in
theorem bytesInv_new (file₀ : List β) : BytesInv file₀ (new ι file₀) :=
  ⟨by simp [new], rfl, fun _ => rfl, Nat.le_refl _⟩

/-! ## C. The barrier

A flush waits until the generation it has asked for is reached. `Covered` says what that is worth: when the generation
is reached, the first `n` bytes are in the file. -/

/-- The first `n` records have left the write buffer. -/
def Taken (file₀ : List β) (s : WriteAheadLog β ι) (n : Nat) : Prop :=
  file₀ ++ (s.appended.take n).flatten <+: s.file ++ s.syncBuffer

/-- The first `n` records are in the file. -/
def Written (file₀ : List β) (s : WriteAheadLog β ι) (n : Nat) : Prop :=
  file₀ ++ (s.appended.take n).flatten <+: s.file

/-- What a call is waiting for, with the generation that lets it go: a `doSync` under way has taken its
    records, and once the generation is reached they are written. -/
def Covered (file₀ : List β) (s : WriteAheadLog β ι) (n gen : Nat) : Prop :=
  n ≤ s.appended.length ∧ (s.sync ≠ .idle → Taken file₀ s n) ∧
    (gen ≤ s.syncedGeneration → Written file₀ s n)

/-- What holds of a flush. -/
def PcInv (file₀ : List β) (s : WriteAheadLog β ι) : BarrierPc → Prop
  | .idle => True
  | .requested before => Covered file₀ s before s.syncGeneration
  | .waiting before myGen => myGen ≤ s.syncGeneration ∧ Covered file₀ s before myGen
  | .returned before => before ≤ s.appended.length ∧ Written file₀ s before

/-- The invariant of a run in which the flushes of the thread `i` are clear. -/
structure Inv (file₀ : List β) (i : ι) (s : WriteAheadLog β ι) : Prop extends BytesInv file₀ s where
  flusher : PcInv file₀ s (s.flushers i)

section Covered

variable {n gen : Nat}

omit [DecidableEq ι] in
/-- With nothing in the write buffer every record has left it. -/
theorem BytesInv.taken (h : BytesInv file₀ s) (hw : s.writeBuffer = []) : Taken file₀ s n := by
  have hbytes := h.bytes
  rw [hw, List.append_nil] at hbytes
  unfold Taken
  rw [hbytes]
  exact (List.prefix_append_right_inj file₀).mpr (List.take_prefix n _).flatten

omit [DecidableEq ι] in
/-- What was taken is written once the sync buffer is empty. -/
theorem Taken.written (h : Taken file₀ s n) (hs : s.syncBuffer = []) : Written file₀ s n := by
  unfold Taken at h
  rwa [hs, List.append_nil] at h

omit [DecidableEq ι] in
/-- A step that changes neither the appended records nor the buffers nor the generation reached. -/
theorem Covered.frame (h : Covered file₀ s n gen) (ha : s'.appended = s.appended) (hf : s'.file = s.file)
    (hb : s'.syncBuffer = s.syncBuffer) (hs : s'.sync = s.sync)
    (hg : s'.syncedGeneration = s.syncedGeneration) : Covered file₀ s' n gen := by
  unfold Covered Taken Written at h ⊢
  rw [ha, hf, hb, hs, hg]
  exact h

omit [DecidableEq ι] in
/-- Asking for a later generation only delays the return. -/
theorem Covered.later (h : Covered file₀ s n gen) {gen' : Nat} (hg : gen ≤ gen') : Covered file₀ s n gen' :=
  ⟨h.1, h.2.1, fun hle => h.2.2 (Nat.le_trans hg hle)⟩

omit [DecidableEq ι] in
/-- A new record comes after those a flush waits for. -/
theorem Covered.append (h : Covered file₀ s n gen) (entry : List β) : Covered file₀ { s with
      writeBuffer := s.writeBuffer ++ entry
      writeBufferSize := s.writeBufferSize + entry.length
      appended := s.appended ++ [entry] } n gen := by
  obtain ⟨hle, htaken, hwritten⟩ := h
  have htake : (s.appended ++ [entry]).take n = s.appended.take n := List.take_append_of_le_length hle
  refine ⟨?_, ?_, ?_⟩
  · rw [List.length_append]
    omega
  · intro hs
    show file₀ ++ ((s.appended ++ [entry]).take n).flatten <+: _
    rw [htake]
    exact htaken hs
  · intro hg
    show file₀ ++ ((s.appended ++ [entry]).take n).flatten <+: _
    rw [htake]
    exact hwritten hg

/-- The sync thread leaves the flushes where they are. -/
theorem sync_frame {op : WalOp β ι} (hop : op = .syncSwap ∨ op = .syncWrite ∨ op = .syncStore)
    (hs : s.step op = some s') : s'.flushers = s.flushers ∧ s'.syncGeneration = s.syncGeneration ∧
      s'.appended = s.appended := by
  have heff := step_effect hs
  rcases hop with rfl | rfl | rfl
  · obtain ⟨-, ⟨-, rfl⟩ | ⟨-, rfl⟩⟩ := heff <;> exact ⟨rfl, rfl, rfl⟩
  · obtain ⟨-, rfl⟩ := heff
    exact ⟨rfl, rfl, rfl⟩
  · obtain ⟨-, rfl⟩ := heff
    exact ⟨rfl, rfl, rfl⟩

/-- **One step** of the sync thread does what every waiting flush relies on. -/
theorem Covered.sync (h : Covered file₀ s n gen) (hb : BytesInv file₀ s) {op : WalOp β ι}
    (hop : op = .syncSwap ∨ op = .syncWrite ∨ op = .syncStore)
    (hs : s.step op = some s') : Covered file₀ s' n gen ∧ (Written file₀ s n → Written file₀ s' n) := by
  have heff := step_effect hs
  have hb' := hb.step hs
  obtain ⟨hle, htaken, hwritten⟩ := h
  rcases hop with rfl | rfl | rfl
  · obtain ⟨hidle, ⟨hzero, rfl⟩ | ⟨-, rfl⟩⟩ := heff
    · -- nothing to write: everything is in the file already
      have hempty : s.writeBuffer = [] := by
        rw [hb.size] at hzero
        exact List.eq_nil_of_length_eq_zero hzero
      have hall : Written file₀ s n := (hb.taken hempty).written (hb.synced (by rw [hidle]; decide))
      exact ⟨⟨hle, fun hne => absurd hidle hne, fun _ => hall⟩, fun hw => hw⟩
    · exact ⟨⟨hle, fun _ => hb'.taken rfl, hwritten⟩, fun hw => hw⟩
  · obtain ⟨hswapped, rfl⟩ := heff
    have hgrow : s.file <+: s.file ++ s.syncBuffer := List.prefix_append _ _
    refine ⟨⟨hle, ?_, fun hg => (hwritten hg).trans hgrow⟩, fun hw => hw.trans hgrow⟩
    intro _
    show _ <+: s.file ++ s.syncBuffer ++ []
    rw [List.append_nil]
    exact htaken (by rw [hswapped]; decide)
  · obtain ⟨hw, rfl⟩ := heff
    have hempty : s.syncBuffer = [] := hb.synced (by rw [hw]; decide)
    have htaken := htaken (by rw [hw]; decide)
    exact ⟨⟨hle, fun hne => absurd rfl hne, fun _ => htaken.written hempty⟩, fun hw => hw⟩

end Covered

section Step

variable {i : ι}

/-- What a step of another thread's flush leaves of this one. -/
theorem flushers_setPc_ne {j : ι} (hj : j ≠ i) (pc : BarrierPc) :
    (s.setPc j pc).flushers i = s.flushers i := Function.update_of_ne (Ne.symm hj) _ _

theorem flushers_setPc_self (pc : BarrierPc) : (s.setPc i pc).flushers i = pc := Function.update_self _ _ _

/-- **One step** keeps the invariant, as long as this thread calls `flush` only when it is clear. What the
    others do does not matter. -/
theorem Inv.step (h : Inv file₀ i s) {op : WalOp β ι} (hC : op = .flushRequest i → s.ClearFlush op)
    (hs : s.step op = some s') : Inv file₀ i s' := by
  refine ⟨h.toBytesInv.step hs, ?_⟩
  have heff := step_effect hs
  have hpc := h.flusher
  cases op with
  | append entry =>
      obtain rfl : s' = _ := heff
      show PcInv _ _ (s.flushers i)
      cases hf : s.flushers i with
      | idle => trivial
      | requested before =>
          rw [hf] at hpc
          exact hpc.append entry
      | waiting before myGen =>
          rw [hf] at hpc
          exact ⟨hpc.1, hpc.2.append entry⟩
      | returned before =>
          rw [hf] at hpc
          obtain ⟨hle, hw⟩ := hpc
          refine ⟨by simpa using Nat.le_succ_of_le hle, ?_⟩
          show file₀ ++ ((s.appended ++ [entry]).take before).flatten <+: _
          rw [List.take_append_of_le_length hle]
          exact hw
  | flushRequest j =>
      obtain rfl : s' = _ := heff
      have hcredit := h.credit
      by_cases hj : j = i
      · subst hj
        rw [flushers_setPc_self]
        refine ⟨Nat.le_refl _, fun hne => ?_, fun hle => ?_⟩
        · -- the `doSync` under way has taken every record there is
          exact h.taken ((hC rfl).resolve_left hne)
        · have hle : s.syncGeneration + 1 ≤ s.syncedGeneration := hle
          omega
      · rw [flushers_setPc_ne hj]
        show PcInv _ _ (s.flushers i)
        cases hf : s.flushers i with
        | idle => trivial
        | requested before =>
            rw [hf] at hpc
            exact (hpc.later (Nat.le_succ _)).frame rfl rfl rfl rfl rfl
        | waiting before myGen =>
            rw [hf] at hpc
            exact ⟨Nat.le_succ_of_le hpc.1, hpc.2.frame rfl rfl rfl rfl rfl⟩
        | returned before =>
            rw [hf] at hpc
            exact hpc
  | flushLoad j =>
      obtain ⟨before, hf, rfl⟩ := heff
      by_cases hj : j = i
      · subst hj
        rw [hf] at hpc
        rw [flushers_setPc_self]
        exact ⟨Nat.le_refl _, hpc⟩
      · rw [flushers_setPc_ne hj]
        exact hpc
  | flushReturn j =>
      obtain ⟨before, myGen, hf, hle, rfl⟩ := heff
      by_cases hj : j = i
      · subst hj
        rw [hf] at hpc
        rw [flushers_setPc_self]
        exact ⟨hpc.2.1, hpc.2.2.2 hle⟩
      · rw [flushers_setPc_ne hj]
        exact hpc
  | syncSwap | syncWrite | syncStore =>
      obtain ⟨hflushers, hgen, happended⟩ := sync_frame (by simp) hs
      rw [hflushers]
      cases hf : s.flushers i with
      | idle => trivial
      | requested before =>
          rw [hf] at hpc
          show Covered file₀ s' before s'.syncGeneration
          rw [hgen]
          exact (hpc.sync h.toBytesInv (by simp) hs).1
      | waiting before myGen =>
          rw [hf] at hpc
          exact ⟨hgen ▸ hpc.1, (hpc.2.sync h.toBytesInv (by simp) hs).1⟩
      | returned before =>
          rw [hf] at hpc
          -- a returned flush is covered by any generation that is reached
          have hcov : Covered file₀ s before s.syncGeneration :=
            ⟨hpc.1, fun _ => hpc.2.trans (List.prefix_append _ _), fun _ => hpc.2⟩
          exact ⟨happended ▸ hpc.1, (hcov.sync h.toBytesInv (by simp) hs).2 hpc.2⟩

end Step

/-! ## D. What is written stays written

The file grows only at its end, and so does what was appended. -/

/-- Both the file and the record of what was appended only grow. -/
theorem step_grows {op : WalOp β ι} (hs : s.step op = some s') :
    s.file <+: s'.file ∧ s.appended <+: s'.appended := by
  have heff := step_effect hs
  cases op with
  | append entry =>
      obtain rfl : s' = _ := heff
      exact ⟨List.prefix_refl _, List.prefix_append _ _⟩
  | flushRequest i =>
      obtain rfl : s' = _ := heff
      exact ⟨List.prefix_refl _, List.prefix_refl _⟩
  | flushLoad i =>
      obtain ⟨before, -, rfl⟩ := heff
      exact ⟨List.prefix_refl _, List.prefix_refl _⟩
  | flushReturn i =>
      obtain ⟨before, myGen, -, -, rfl⟩ := heff
      exact ⟨List.prefix_refl _, List.prefix_refl _⟩
  | syncSwap =>
      obtain ⟨-, ⟨-, rfl⟩ | ⟨-, rfl⟩⟩ := heff <;> exact ⟨List.prefix_refl _, List.prefix_refl _⟩
  | syncWrite =>
      obtain ⟨-, rfl⟩ := heff
      exact ⟨List.prefix_append _ _, List.prefix_refl _⟩
  | syncStore =>
      obtain ⟨-, rfl⟩ := heff
      exact ⟨List.prefix_refl _, List.prefix_refl _⟩

omit [DecidableEq ι] in
theorem Written.of_le {m n : Nat} (h : Written file₀ s n) (hmn : m ≤ n) : Written file₀ s m := by
  have htake : s.appended.take m <+: s.appended.take n := List.take_prefix_take_left hmn
  exact ((List.prefix_append_right_inj file₀).mpr htake.flatten).trans h

/-- What is written stays written, in every step. -/
theorem Written.step {n : Nat} (h : Written file₀ s n) (hn : n ≤ s.appended.length) {op : WalOp β ι}
    (hs : s.step op = some s') : Written file₀ s' n := by
  obtain ⟨hfile, happended⟩ := step_grows hs
  obtain ⟨tail, htail⟩ := happended
  unfold Written at h ⊢
  rw [← htail, List.take_append_of_le_length hn]
  exact h.trans hfile

/-- Only an append adds to what was appended. -/
theorem appended_step {op : WalOp β ι} (hop : ∀ entry, op ≠ .append entry) (hs : s.step op = some s') :
    s'.appended = s.appended := by
  have heff := step_effect hs
  cases op with
  | append entry => exact absurd rfl (hop entry)
  | flushRequest i =>
      obtain rfl : s' = _ := heff
      rfl
  | flushLoad i =>
      obtain ⟨before, -, rfl⟩ := heff
      rfl
  | flushReturn i =>
      obtain ⟨before, myGen, -, -, rfl⟩ := heff
      rfl
  | syncSwap | syncWrite | syncStore => exact (sync_frame (by simp) hs).2.2

/-- A flush under way, called when `n` records had been appended. -/
def CalledAt (n : Nat) : BarrierPc → Prop
  | .idle => False
  | .requested before | .waiting before _ | .returned before => before = n

/-- A call goes on being the call it is. -/
theorem calledAt_step {i : ι} {n : Nat} {op : WalOp β ι} (h : CalledAt n (s.flushers i))
    (hop : op ≠ .flushRequest i) (hs : s.step op = some s') : CalledAt n (s'.flushers i) := by
  have heff := step_effect hs
  cases op with
  | append entry =>
      obtain rfl : s' = _ := heff
      exact h
  | flushRequest j =>
      obtain rfl : s' = _ := heff
      rw [flushers_setPc_ne (fun hj => hop (congrArg _ hj))]
      exact h
  | flushLoad j =>
      obtain ⟨before, hf, rfl⟩ := heff
      by_cases hj : j = i
      · subst hj
        rw [hf] at h
        rw [flushers_setPc_self]
        exact h
      · rw [flushers_setPc_ne hj]
        exact h
  | flushReturn j =>
      obtain ⟨before, myGen, hf, -, rfl⟩ := heff
      by_cases hj : j = i
      · subst hj
        rw [hf] at h
        rw [flushers_setPc_self]
        exact h
      · rw [flushers_setPc_ne hj]
        exact h
  | syncSwap | syncWrite | syncStore =>
      rw [(sync_frame (by simp) hs).1]
      exact h

/-! ## E. Whole runs

The invariant of one caller along a run; the callers have nothing to do with each other. -/

omit [DecidableEq ι] in
theorem inv_new (file₀ : List β) (i : ι) : Inv file₀ i (new ι file₀) := ⟨bytesInv_new file₀, trivial⟩

/-- **The flush barrier.** When no flush is called while a `doSync` is past its swap and new records are
    waiting, every flush that has returned stands for a file with everything appended before it was called.
    In every run of any number of flushing threads, appends and `doSync` steps. -/
theorem sound_of_clearFlush {ops : List (WalOp β ι)} (h : exec step (new ι file₀) ops = some s)
    (hC : Meets step ClearFlush (new ι file₀) ops) : Sound file₀ s := by
  intro i before hi
  have hinv : Inv file₀ i s := exec_invariant_of_meets (I := Inv file₀ i) (inv_new file₀ i)
    (fun _ _ _ hinv hC hs => hinv.step (fun _ => hC) hs) hC h
  have hpc := hinv.flusher
  rw [hi] at hpc
  exact hpc.2

/-! ## F. Every unclear flush can return too early

The condition leaves out nothing more: a flush called in such a moment can be made to return before its bytes are
written. -/

/-- **A flush in the wrong moment**: called while a `doSync` is past its swap and records are waiting, it can
    return before they are written. -/
theorem exists_unsound_of_flush (h : BytesInv file₀ s) {i : ι} (hs : s.step (.flushRequest i) = some s')
    (hC : ¬ s.ClearFlush (.flushRequest i)) : ∃ ops t, exec step s' ops = some t ∧ ¬ Sound file₀ t := by
  unfold ClearFlush at hC
  rw [not_or] at hC
  obtain ⟨hsync, hwaiting⟩ := hC
  obtain rfl : s' = _ := step_effect hs
  obtain ⟨ops, t, hrun, hi, ha, hf⟩ : ∃ ops t,
      exec step ({ s with syncGeneration := s.syncGeneration + 1 }.setPc i (.requested s.appended.length)) ops
        = some t ∧ t.flushers i = .returned s.appended.length ∧ t.appended = s.appended ∧
      t.file = s.file ++ s.syncBuffer := by
    cases hpc : s.sync with
    | idle => exact absurd hpc hsync
    | swapped =>
        refine ⟨[.flushLoad i, .syncWrite, .syncStore, .flushReturn i], ?_⟩
        simp [exec_cons, step, setPc]
    | written =>
        refine ⟨[.flushLoad i, .syncStore, .flushReturn i], ?_⟩
        simp [exec_cons, step, setPc, h.synced (by rw [hpc]; decide)]
  -- the file is short of everything by the write buffer
  refine ⟨ops, t, hrun, ?_⟩
  intro hsound
  have hle := (hsound i _ hi).length_le
  rw [ha, hf, List.take_length, ← h.bytes] at hle
  simp only [List.length_append] at hle
  have := List.length_pos_iff.mpr hwaiting
  omega

/-! ## G. A flush that returns too early, and one that does not -/

/-- Record 0 is appended and a `doSync` takes it; then record 1 is appended and flushed, and the `doSync`
    credits that flush. -/
def earlyReturn : List (WalOp Nat Unit) :=
  [.append [0], .syncSwap, .append [1], .flushRequest (), .flushLoad (), .syncWrite, .syncStore,
    .flushReturn ()]

/-- The flush is called before the `doSync` begins. -/
def clearReturn : List (WalOp Nat Unit) :=
  [.append [0], .append [1], .flushRequest (), .syncSwap, .flushLoad (), .syncWrite, .syncStore,
    .flushReturn ()]

theorem not_sound_earlyReturn :
    ∃ s, exec step (new Unit []) earlyReturn = some s ∧ ¬ Sound [] s := by
  have hrun : (exec step (new Unit []) earlyReturn).map
      (fun s => (s.flushers (), s.appended, s.file)) = some (.returned 2, [[0], [1]], [0]) := by decide
  obtain ⟨s, hs, hfields⟩ := Option.map_eq_some_iff.mp hrun
  obtain ⟨hf, ha, hfile⟩ : s.flushers () = .returned 2 ∧ s.appended = [[0], [1]] ∧ s.file = [0] := by
    simpa using hfields
  refine ⟨s, hs, ?_⟩
  intro hsound
  have hprefix := hsound () 2 hf
  rw [ha, hfile] at hprefix
  exact absurd hprefix (by decide)

theorem sound_clearReturn : ∃ s, exec step (new Unit []) clearReturn = some s ∧ Sound [] s := by
  have hrun : (exec step (new Unit []) clearReturn).isSome := by decide
  obtain ⟨s, hs⟩ := Option.isSome_iff_exists.mp hrun
  refine ⟨s, hs, sound_of_clearFlush hs ?_⟩
  simp [clearReturn, Meets, ClearFlush, step, new, setPc]

end WriteAheadLog

end KvStorageEngine
