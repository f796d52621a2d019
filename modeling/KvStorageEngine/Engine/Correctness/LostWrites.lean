import KvStorageEngine.Engine.Correctness.FlushBarrier

/-!
# `Engine.Correctness.LostWrites` — writes of the log that fail

`doSync` looks at what `write` returns only to print an error. Whatever it was, the buffer is cleared and the
generation advanced, so the flush that waits for it returns and the writer thread reports its puts successful.

When every write is complete, and every flush is clear (`Engine.Correctness.FlushBarrier`), the file consists of whole
records at any time (`RecordsInv`), and of those appended before a flush once it has returned (`keeps_of_wholeWrites`).
A write that is not complete leaves a gap that every later flush returns over (`exists_not_keeps_of_lossy`).
-/

namespace KvStorageEngine

open Run WriteAheadLog

namespace AckedLog

variable {β ι : Type} [DecidableEq ι] {file₀ : List β} {s s' : AckedLog β ι}

/-! ## A. The property and the condition

The file is compared with the records as a list, so that a gap in front of a record counts as much as a missing end. -/

/-- The file consists of whole records, the first `n` appended and perhaps others of those appended. -/
def Kept (file₀ : List β) (log : WriteAheadLog β (Option ι)) (n : Nat) : Prop :=
  ∃ records : List (List β), List.Sublist records log.appended ∧ List.Sublist (log.appended.take n) records ∧
    log.file = file₀ ++ records.flatten

/-- What a returned flush and a reported put stand for. -/
def Keeps (file₀ : List β) (s : AckedLog β ι) : Prop :=
  (∀ i before, s.log.flushers i = .returned before → Kept file₀ s.log before) ∧
    (s.acked ≠ 0 → Kept file₀ s.log s.acked)

/-- Every write is complete, and every flush is clear. -/
def WholeWrites (s : AckedLog β ι) : AckedLogOp β ι → Prop
  | .log op => s.log.ClearFlush op
  | .writeShort _ | .writeFailed => False
  | .complete => True

/-! ## B. Steps

The steps of the log are those of `Engine.WriteAheadLog`; a short or a failed write is a step of its own, which leaves
the log as if it had written everything. -/

/-- What each step can do. -/
def StepEffect (s s' : AckedLog β ι) : AckedLogOp β ι → Prop
  | .log op => ∃ log, s.log.step op = some log ∧ s' = { s with log }
  | .writeShort n => s.log.sync = .swapped ∧ n < s.log.syncBuffer.length ∧ s' = { s with log := s.log.wrote n }
  | .writeFailed => s.log.sync = .swapped ∧ s' = { s with log := s.log.wrote 0 }
  | .complete => ∃ before, s.log.flushers none = .returned before ∧ s' = { s with acked := before }

/-- Every step does what `StepEffect` says. -/
theorem step_effect {op : AckedLogOp β ι} (h : s.step op = some s') : StepEffect s s' op := by
  cases op with
  | log op =>
      obtain ⟨log, hlog, rfl⟩ := Option.map_eq_some_iff.mp h
      exact ⟨log, hlog, rfl⟩
  | writeShort n =>
      cases hs : s.log.sync <;> simp only [step, hs] at h <;> try contradiction
      split_ifs at h with hn
      exact ⟨hs, hn, (Option.some.inj h).symm⟩
  | writeFailed =>
      cases hs : s.log.sync <;> simp only [step, hs] at h <;> try contradiction
      exact ⟨hs, (Option.some.inj h).symm⟩
  | complete =>
      cases hf : s.log.flushers none <;> simp only [step, hf] at h <;> try contradiction
      exact ⟨_, hf, (Option.some.inj h).symm⟩

/-! ## C. Whole records

The sync buffer always holds whole records, for `append` adds one under the lock under which the buffers are swapped.
So a complete write leaves the file with whole records. -/

/-- The file ends between two records, and so does the part of the bytes that the sync thread has taken. -/
structure RecordsInv (file₀ : List β) (log : WriteAheadLog β (Option ι)) : Prop where
  file : ∃ n ≤ log.appended.length, log.file = file₀ ++ (log.appended.take n).flatten
  taken : ∃ n ≤ log.appended.length, log.file ++ log.syncBuffer = file₀ ++ (log.appended.take n).flatten

section Records

variable {log log' : WriteAheadLog β (Option ι)}

omit [DecidableEq ι] in
/-- A part that ends between two records still does when others are appended. -/
theorem ends_append {bytes : List β} {appended : List (List β)}
    (h : ∃ n ≤ appended.length, bytes = file₀ ++ (appended.take n).flatten) (entry : List β) :
    ∃ n ≤ (appended ++ [entry]).length, bytes = file₀ ++ ((appended ++ [entry]).take n).flatten := by
  obtain ⟨n, hn, hbytes⟩ := h
  refine ⟨n, ?_, ?_⟩
  · rw [List.length_append]
    omega
  · rw [List.take_append_of_le_length hn]
    exact hbytes

omit [DecidableEq ι] in
theorem recordsInv_new (file₀ : List β) : RecordsInv file₀ (WriteAheadLog.new (Option ι) file₀) := by
  refine ⟨⟨0, Nat.le_refl _, ?_⟩, ⟨0, Nat.le_refl _, ?_⟩⟩ <;> simp [WriteAheadLog.new]

/-- Complete writes keep records whole. -/
theorem RecordsInv.step (h : RecordsInv file₀ log) (hbytes : BytesInv file₀ log) {op : WalOp β (Option ι)}
    (hs : log.step op = some log') : RecordsInv file₀ log' := by
  have heff := WriteAheadLog.step_effect hs
  cases op with
  | append entry =>
      obtain rfl : log' = _ := heff
      exact ⟨ends_append h.file entry, ends_append h.taken entry⟩
  | flushRequest i =>
      obtain rfl : log' = _ := heff
      exact ⟨h.file, h.taken⟩
  | flushLoad i =>
      obtain ⟨before, -, rfl⟩ := heff
      exact ⟨h.file, h.taken⟩
  | flushReturn i =>
      obtain ⟨before, myGen, -, -, rfl⟩ := heff
      exact ⟨h.file, h.taken⟩
  | syncSwap =>
      obtain ⟨hidle, ⟨-, rfl⟩ | ⟨-, rfl⟩⟩ := heff
      · exact ⟨h.file, h.taken⟩
      · -- all that was appended is in the file or in the buffer that was swapped
        refine ⟨h.file, log.appended.length, Nat.le_refl _, ?_⟩
        have hall := hbytes.bytes
        rw [hbytes.synced (by rw [hidle]; decide), List.append_nil] at hall
        show log.file ++ log.writeBuffer = _
        rw [hall, List.take_length]
  | syncWrite =>
      obtain ⟨-, rfl⟩ := heff
      refine ⟨h.taken, ?_⟩
      show ∃ n ≤ log.appended.length, log.file ++ log.syncBuffer ++ [] = _
      rw [List.append_nil]
      exact h.taken
  | syncStore =>
      obtain ⟨-, rfl⟩ := heff
      exact ⟨h.file, h.taken⟩

omit [DecidableEq ι] in
/-- Where the first `n` records are written, they are kept. -/
theorem RecordsInv.kept (h : RecordsInv file₀ log) {n : Nat} (hw : Written file₀ log n) : Kept file₀ log n := by
  obtain ⟨k, -, hfile⟩ := h.file
  by_cases hkn : n ≤ k
  · exact ⟨log.appended.take k, List.take_sublist _ _, (List.take_prefix_take_left hkn).sublist, hfile⟩
  · -- the records between are empty
    refine ⟨log.appended.take n, List.take_sublist _ _, List.Sublist.refl _, ?_⟩
    have hprefix : (log.appended.take k).flatten <+: (log.appended.take n).flatten :=
      (List.take_prefix_take_left (by omega)).flatten
    unfold Written at hw
    rw [hfile, List.prefix_append_right_inj] at hw
    rw [hfile, hw.eq_of_length_le hprefix.length_le]

end Records

/-! ## D. Whole runs

The file has whole records at any time; which ones a returned flush may count on comes from the generation it waited
for. -/

/-- The invariant of a run with complete writes and clear flushes. -/
structure DiskInv (file₀ : List β) (s : AckedLog β ι) : Prop where
  flushers : ∀ i, Inv file₀ i s.log
  records : RecordsInv file₀ s.log
  acked : s.acked ≤ s.log.appended.length ∧ (s.acked ≠ 0 → Written file₀ s.log s.acked)

omit [DecidableEq ι] in
theorem diskInv_new (file₀ : List β) : DiskInv file₀ (new ι file₀) := by
  exact ⟨fun i => inv_new file₀ i, recordsInv_new file₀, Nat.le_refl _, fun h => absurd rfl h⟩

/-- **One step.** -/
theorem DiskInv.step (h : DiskInv file₀ s) {op : AckedLogOp β ι} (hC : WholeWrites s op) (hs : s.step op = some s') :
    DiskInv file₀ s' := by
  have heff := step_effect hs
  cases op with
  | log op =>
      obtain ⟨log, hlog, rfl⟩ := heff
      refine ⟨fun i => (h.flushers i).step (fun _ => hC) hlog, h.records.step (h.flushers none).toBytesInv hlog, ?_⟩
      exact ⟨h.acked.1.trans (step_grows hlog).2.length_le, fun hne => (h.acked.2 hne).step h.acked.1 hlog⟩
  | writeShort n => exact absurd hC id
  | writeFailed => exact absurd hC id
  | complete =>
      obtain ⟨before, hf, rfl⟩ := heff
      have hpc := (h.flushers none).flusher
      rw [hf] at hpc
      exact ⟨h.flushers, h.records, hpc.1, fun _ => hpc.2⟩

/-- **What is reported is in the file.** In every run in which all writes are complete and all flushes clear, the file
    of a returned flush has every record appended before, and the one of a reported put has its record; and it has
    nothing but whole records. -/
theorem keeps_of_wholeWrites {ops : List (AckedLogOp β ι)} (h : exec step (new ι file₀) ops = some s)
    (hC : Meets step WholeWrites (new ι file₀) ops) : Keeps file₀ s := by
  have hinv : DiskInv file₀ s := exec_invariant_of_meets (diskInv_new file₀) (fun _ _ _ hi hC hs => hi.step hC hs) hC h
  constructor
  · intro i before hi
    have hpc := (hinv.flushers i).flusher
    rw [hi] at hpc
    exact hinv.records.kept hpc.2
  · exact fun hne => hinv.records.kept (hinv.acked.2 hne)

/-- A run with a complete write: two puts of one batch are reported. -/
def wholeWrite : List (AckedLogOp Nat Unit) :=
  [.log (.append [0, 1]), .log (.append [2, 3]), .log (.flushRequest none), .log (.flushLoad none), .log .syncSwap,
    .log .syncWrite, .log .syncStore, .log (.flushReturn none), .complete]

theorem keeps_wholeWrite : ∃ s, exec step (new Unit []) wholeWrite = some s ∧ s.acked = 2 ∧ Keeps [] s := by
  have hrun : (exec step (new Unit []) wholeWrite).map (·.acked) = some 2 := by decide
  obtain ⟨s, hs, hacked⟩ := Option.map_eq_some_iff.mp hrun
  refine ⟨s, hs, hacked, keeps_of_wholeWrites hs ?_⟩
  simp [wholeWrite, Meets, WholeWrites, ClearFlush, step, WriteAheadLog.step, new, WriteAheadLog.new, setPc]

/-! ## E. Every write that is not complete can be reported

No condition weaker than `WholeWrites` would do: from every reachable state, a write that loses something can be
followed by the return of a flush that takes it for written. -/

/-- A flush called behind a write of `n` bytes, up to its return. -/
theorem exists_return_of_wrote {log : WriteAheadLog β (Option ι)} (acked n : Nat) {i : Option ι}
    (hsize : log.writeBufferSize = log.writeBuffer.length)
    (hi : log.flushers i = .idle ∨ ∃ before, log.flushers i = .returned before) :
    ∃ ops t, exec step ⟨log.wrote n, acked⟩ ops = some t ∧ t.log.flushers i = .returned log.appended.length ∧
      t.log.appended = log.appended ∧ t.log.file = log.file ++ log.syncBuffer.take n ++ log.writeBuffer := by
  by_cases hzero : log.writeBuffer.length = 0
  · refine ⟨[.log .syncStore, .log (.flushRequest i), .log (.flushLoad i), .log .syncSwap, .log (.flushReturn i)], ?_⟩
    have hnil : log.writeBuffer = [] := List.eq_nil_of_length_eq_zero hzero
    rcases hi with hi | ⟨before, hi⟩
    · simp [exec_cons, step, WriteAheadLog.step, setPc, wrote, hi, hsize, hnil]
    · simp [exec_cons, step, WriteAheadLog.step, setPc, wrote, hi, hsize, hnil]
  · refine ⟨[.log .syncStore, .log (.flushRequest i), .log (.flushLoad i), .log .syncSwap, .log .syncWrite,
      .log .syncStore, .log (.flushReturn i)], ?_⟩
    rcases hi with hi | ⟨before, hi⟩
    · simp [exec_cons, step, WriteAheadLog.step, setPc, wrote, hi, hsize, hzero]
    · simp [exec_cons, step, WriteAheadLog.step, setPc, wrote, hi, hsize, hzero]

/-- **A write that is not complete**: after it, any flush that is called returns over the gap. -/
theorem exists_not_keeps_of_lossy (h : DiskInv file₀ s) (hne : s.log.syncBuffer ≠ []) {op : AckedLogOp β ι}
    (hop : op = .writeFailed ∨ ∃ n, op = .writeShort n) (hs : s.step op = some s') {i : Option ι}
    (hi : s.log.flushers i = .idle ∨ ∃ before, s.log.flushers i = .returned before) :
    ∃ ops t, exec step s' ops = some t ∧ ¬ Keeps file₀ t := by
  have heff := step_effect hs
  obtain ⟨n, hn, rfl⟩ : ∃ n < s.log.syncBuffer.length, s' = ⟨s.log.wrote n, s.acked⟩ := by
    rcases hop with rfl | ⟨n, rfl⟩
    · exact ⟨0, List.length_pos_iff.mpr hne, heff.2⟩
    · exact ⟨n, heff.2⟩
  have hbytes := (h.flushers none).toBytesInv
  obtain ⟨ops, t, hrun, hreturned, happended, hfile⟩ := exists_return_of_wrote s.acked n hbytes.size hi
  refine ⟨ops, t, hrun, ?_⟩
  intro hkeeps
  obtain ⟨records, hsub, hall, hwhole⟩ := hkeeps.1 i _ hreturned
  rw [happended] at hsub hall
  rw [List.take_length] at hall
  obtain rfl := hsub.antisymm hall
  rw [hfile, ← hbytes.bytes] at hwhole
  have hlength := congrArg List.length hwhole
  simp only [List.length_append, List.length_take] at hlength
  omega

/-! ## F. Two runs -/

/-- The write fails. -/
def failedWrite : List (AckedLogOp Nat Unit) :=
  [.log (.append [0, 1]), .log (.flushRequest none), .log (.flushLoad none), .log .syncSwap, .writeFailed,
    .log .syncStore, .log (.flushReturn none), .complete]

/-- The write stops in the first record; the next batch is written behind that. -/
def shortWrite : List (AckedLogOp Nat Unit) :=
  [.log (.append [0, 1]), .log (.flushRequest none), .log (.flushLoad none), .log .syncSwap, .writeShort 1,
    .log .syncStore, .log (.flushReturn none), .complete, .log (.append [2, 3]), .log (.flushRequest none),
    .log (.flushLoad none), .log .syncSwap, .log .syncWrite, .log .syncStore, .log (.flushReturn none), .complete]

/-- Both report every put, one with an empty file and one with a file that begins with half a record. -/
theorem not_keeps_failedWrite :
    (∃ s, exec step (new Unit []) failedWrite = some s ∧ s.acked = 1 ∧ s.log.file = [] ∧ ¬ Keeps [] s) ∧
      ∃ s, exec step (new Unit []) shortWrite = some s ∧ s.acked = 2 ∧ s.log.file = [0, 2, 3] ∧ ¬ Keeps [] s := by
  have hfailed : (exec step (new Unit []) failedWrite).map (fun s => (s.acked, s.log.appended, s.log.file))
      = some (1, [[0, 1]], []) := by decide
  have hshort : (exec step (new Unit []) shortWrite).map (fun s => (s.acked, s.log.appended, s.log.file))
      = some (2, [[0, 1], [2, 3]], [0, 2, 3]) := by decide
  obtain ⟨s, hs, hfields⟩ := Option.map_eq_some_iff.mp hfailed
  obtain ⟨t, ht, hfields'⟩ := Option.map_eq_some_iff.mp hshort
  simp only [Prod.mk.injEq] at hfields hfields'
  obtain ⟨hacked, happended, hfile⟩ := hfields
  obtain ⟨hacked', happended', hfile'⟩ := hfields'
  refine ⟨⟨s, hs, hacked, hfile, ?_⟩, t, ht, hacked', hfile', ?_⟩
  · intro hkeeps
    obtain ⟨records, hsub, hall, hwhole⟩ := hkeeps.2 (by rw [hacked]; decide)
    rw [hacked, happended] at hall
    rw [happended] at hsub
    obtain rfl := hsub.antisymm hall
    rw [hfile] at hwhole
    exact absurd hwhole (by decide)
  · intro hkeeps
    obtain ⟨records, hsub, hall, hwhole⟩ := hkeeps.2 (by rw [hacked']; decide)
    rw [hacked', happended'] at hall
    rw [happended'] at hsub
    obtain rfl := hsub.antisymm hall
    rw [hfile'] at hwhole
    exact absurd hwhole (by decide)

end AckedLog

end KvStorageEngine
