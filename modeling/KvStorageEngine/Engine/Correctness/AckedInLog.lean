import KvStorageEngine.Engine.Correctness.FlushBarrier
import KvStorageEngine.Engine.Lifetime

/-!
# `Engine.Correctness.AckedInLog` — an acknowledged write is in the log's file

The writer thread completes a batch only after its flush of the log has returned. When that flush is a barrier,
every acknowledged write has reached the file the log has open (`LogInv.acked_file`), whatever the rotations and
the flush thread do meanwhile. Whether a path still leads to this file is another matter.

`WriterInv` follows a batch through the writer thread. Every step of another thread leaves it alone
(`LogInv.frame`) or is a step of the log (`LogInv.logStep`).

Layout of the file:
* **A** — what a step of the system can do.
* **B** — the invariant.
* **C** — steps.
* **D** — what the file holds.
-/

namespace KvStorageEngine

open WriteAheadLog

variable [Platform]

namespace Lifetime

variable {κ : Type} [DecidableEq κ] {s s' : Lifetime κ} {log₀ : List LogRecord} {first : Nat}

/-! ## A. What a step can do -/

/-- What each step can do. -/
def StepEffect (s s' : Lifetime κ) : LifetimeOp κ → Prop
  | .popBatch batch => s.writer = .idle ∧ batch ≠ [] ∧ s' = { s with writer := .applying batch }
  | .update => ∃ request batch, s.writer = .applying (request :: batch) ∧ s' = { s with
      engine := { s.engine with memtable := s.engine.memtable.apply request s.engine.seqNumber }
      writer := .updated request batch
      written := s.written ++ [⟨request, s.engine.seqNumber⟩] }
  | .append => ∃ request batch log, s.writer = .updated request batch ∧
      s.log.step (.append [⟨request, s.engine.seqNumber⟩]) = some log ∧
      s' = { s with log, writer := .appended request batch }
  | .advance => ∃ request batch, s.writer = .appended request batch ∧ s' = { s with
      engine := { s.engine with seqNumber := s.engine.seqNumber + 1 }.invalidate request.key
      writer := .applying batch }
  | .flushLog => ∃ log, s.writer = .applying [] ∧ s.log.step (.flushRequest .batch) = some log ∧
      s' = { s with log, writer := .flushing }
  | .checkFlush => ∃ before, s.writer = .flushing ∧ s.log.flushers .batch = .returned before ∧
      (s' = { s with writer := .completing } ∨
        ∃ log, s.log.step (.flushRequest (.checkFlush none)) = some log ∧
          s' = { s with writer := .checking, log }.setPc none .flushing)
  | .complete => s.writer = .completing ∧ s' = { s with
      acked := s.acked + 1
      writer := if s.acked + 1 = s.written.length then .idle else .completing }
  | .flush t => ∃ log, s.log.step (.flushRequest (.checkFlush (some t))) = some log ∧
      s' = { s with log }.setPc (some t) .flushing
  | .rotateCopy t => s.callers t = .flushing ∧ s' = { s with
      rotation := .copied (MemTable.copyOf s.engine.memtable.snapshot) }.setPc t .rotating
  | .rotateClear t => s.callers t = .rotating ∧ ∃ imm, s.rotation = .copied imm ∧ s' = { s with
      engine := { s.engine with memtable := s.engine.memtable.clear }
      rotation := .cleared imm }
  | .rotatePublish t => s.callers t = .rotating ∧ ∃ imm, s.rotation = .cleared imm ∧ s' = { s with
      engine := { s.engine with immutableMemtable := some imm }
      rotation := .idle }.setPc t .unlinking
  | .unlink t => s.callers t = .unlinking ∧ s' = { s with
      linked := false
      writer := if t = none then .completing else s.writer }.setPc t .idle
  | .flushWrite => s.flusher = .idle ∧ ∃ imm, s.engine.immutableMemtable = some imm ∧
      ((imm.snapshot.isEmpty = true ∧ s' = { s with flusher := .saved }) ∨
        (imm.snapshot.isEmpty = false ∧
          let id := s.engine.flushCounter + 1
          let sst := SSTable.flush imm.snapshot (sstableDir s.engine.dataDir) id
          s' = { s with
            engine := { s.engine with flushCounter := id }
            dir := s.dir.writeTable sst
            flusher := .written sst }))
  | .flushInstall => ∃ sst, s.flusher = .written sst ∧
      let m := sst.meta s.engine.flushCounter (s.engine.seqNumber - 1) 0
      s' = { s with
        engine := { s.engine with
          version := StorageEngine.installFlushed s.engine.version.copyFrom sst m }
        flusher := .installed }
  | .flushSave => s.flusher = .installed ∧ s' = { s with
      engine := s.engine.clearCache
      dir := s.dir.saveMetadata s.engine
      flusher := .saved }
  | .flushReset => s.flusher = .saved ∧
      s' = { s with engine := s.engine.resetImmutable, flusher := .idle }
  | .log op => (∀ entry, op ≠ .append entry) ∧ (∀ i, op ≠ .flushRequest i) ∧
      ∃ log, s.log.step op = some log ∧ s' = { s with log }

/-- Entering `checkFlush` is a request of the log. -/
theorem enterCheckFlush_eq_some {t : Option κ} (h : s.enterCheckFlush t = some s') :
    ∃ log, s.log.step (.flushRequest (.checkFlush t)) = some log ∧
      s' = { s with log }.setPc t .flushing := by
  unfold enterCheckFlush at h
  cases hpc : s.callers t <;> simp only [hpc] at h <;> try contradiction
  obtain ⟨log, hlog, rfl⟩ := Option.map_eq_some_iff.mp h
  exact ⟨log, hlog, rfl⟩

/-- Every step does what `StepEffect` says. -/
theorem step_effect {op : LifetimeOp κ} (h : s.step op = some s') : StepEffect s s' op := by
  cases op with
  | popBatch batch =>
      cases hpc : s.writer <;> simp only [step, hpc] at h <;> try contradiction
      split_ifs at h with hbatch
      exact ⟨hpc, fun hnil => hbatch (Or.inl hnil), (Option.some.inj h).symm⟩
  | update =>
      unfold step at h
      dsimp only at h
      split at h <;> try contradiction
      rename_i request batch hpc
      exact ⟨request, batch, hpc, (Option.some.inj h).symm⟩
  | append =>
      cases hpc : s.writer <;> simp only [step, hpc] at h <;> try contradiction
      obtain ⟨log, hlog, rfl⟩ := Option.map_eq_some_iff.mp h
      exact ⟨_, _, log, hpc, hlog, rfl⟩
  | advance =>
      cases hpc : s.writer <;> simp only [step, hpc] at h <;> try contradiction
      exact ⟨_, _, hpc, (Option.some.inj h).symm⟩
  | flushLog =>
      unfold step at h
      dsimp only at h
      split at h <;> try contradiction
      rename_i hpc
      obtain ⟨log, hlog, rfl⟩ := Option.map_eq_some_iff.mp h
      exact ⟨log, hpc, hlog, rfl⟩
  | checkFlush =>
      unfold step at h
      dsimp only at h
      split at h <;> try contradiction
      rename_i before hpc hlog
      refine ⟨before, hpc, hlog, ?_⟩
      split_ifs at h
      · exact Or.inr (enterCheckFlush_eq_some h)
      · exact Or.inl (Option.some.inj h).symm
  | complete =>
      cases hpc : s.writer <;> simp only [step, hpc] at h <;> try contradiction
      exact ⟨hpc, (Option.some.inj h).symm⟩
  | flush t => exact enterCheckFlush_eq_some h
  | rotateCopy t =>
      unfold step at h
      dsimp only at h
      split at h <;> try contradiction
      rename_i hpc _ _ _
      exact ⟨hpc, (Option.some.inj h).symm⟩
  | rotateClear t =>
      unfold step at h
      dsimp only at h
      split at h <;> try contradiction
      rename_i imm hpc hrot
      exact ⟨hpc, imm, hrot, (Option.some.inj h).symm⟩
  | rotatePublish t =>
      unfold step at h
      dsimp only at h
      split at h <;> try contradiction
      rename_i imm hpc hrot
      exact ⟨hpc, imm, hrot, (Option.some.inj h).symm⟩
  | unlink t =>
      cases hpc : s.callers t <;> simp only [step, hpc] at h <;> try contradiction
      exact ⟨hpc, (Option.some.inj h).symm⟩
  | flushWrite =>
      unfold step at h
      dsimp only at h
      split at h <;> try contradiction
      rename_i imm hpc himm
      refine ⟨hpc, imm, himm, ?_⟩
      split_ifs at h with hempty
      · exact Or.inl ⟨hempty, (Option.some.inj h).symm⟩
      · exact Or.inr ⟨by simpa using hempty, (Option.some.inj h).symm⟩
  | flushInstall =>
      cases hpc : s.flusher <;> simp only [step, hpc] at h <;> try contradiction
      exact ⟨_, hpc, (Option.some.inj h).symm⟩
  | flushSave =>
      cases hpc : s.flusher <;> simp only [step, hpc] at h <;> try contradiction
      exact ⟨hpc, (Option.some.inj h).symm⟩
  | flushReset =>
      cases hpc : s.flusher <;> simp only [step, hpc] at h <;> try contradiction
      exact ⟨hpc, (Option.some.inj h).symm⟩
  | log op =>
      -- appends and requests are excluded, the other steps all go the same way
      cases op <;> simp only [step] at h <;> try contradiction
      all_goals
        obtain ⟨log, hlog, rfl⟩ := Option.map_eq_some_iff.mp h
        exact ⟨by simp, by simp, log, hlog, rfl⟩

/-! ## B. The invariant

The writer thread updates the memtable before it appends to the log, so between the two the log is one request behind.
A batch is acknowledged only when a flush has returned that was called with all of it in the log. -/

/-- Between two requests: everything written is in the log, and the next sequence number is unused. -/
def InStep (first : Nat) (log : WriteAheadLog LogRecord (LogCaller κ)) (next : Nat)
    (written : List LogRecord) : Prop :=
  log.appended = written.map ([·]) ∧ next = first + written.length

/-- Where the writer thread is, with the log, the next sequence number, the writes and how many of them are
    acknowledged. -/
def WriterInv (log₀ : List LogRecord) (first : Nat) (log : WriteAheadLog LogRecord (LogCaller κ))
    (next : Nat) (written : List LogRecord) (acked : Nat) : WriterPc → Prop
  | .idle => InStep first log next written
  | .applying batch => InStep first log next written ∧ (batch = [] → acked < written.length)
  | .updated request _ => ∃ before, written = before ++ [⟨request, next⟩] ∧ InStep first log next before
  | .appended _ _ => InStep first log (next + 1) written ∧ acked < written.length
  | .flushing => InStep first log next written ∧ acked < written.length ∧
      CalledAt written.length (log.flushers .batch)
  | .checking | .completing => InStep first log next written ∧ acked < written.length ∧
      Written log₀ log written.length

/-- The invariant of a life that began with `log₀` in the log and `first` as the next sequence number. -/
structure LogInv (log₀ : List LogRecord) (first : Nat) (s : Lifetime κ) : Prop where
  barrier : WriteAheadLog.Inv log₀ .batch s.log
  acked_le : s.acked ≤ s.log.appended.length
  acked_file : Written log₀ s.log s.acked
  seqs : ∀ i r, s.written[i]? = some r → r.seqNumber = first + i
  writer : WriterInv log₀ first s.log s.engine.seqNumber s.written s.acked s.writer
  checking : s.callers none ≠ .idle → s.writer = .checking

/-! ## C. Steps

A step of another thread either leaves the log alone, or is a step of the log with which nothing is appended. -/

section Steps

variable {log log' : WriteAheadLog LogRecord (LogCaller κ)} {next acked : Nat}
  {written : List LogRecord} {pc : WriterPc} {op : WalOp LogRecord (LogCaller κ)}

omit [Platform] [DecidableEq κ] in
theorem InStep.length_eq (h : InStep first log next written) : log.appended.length = written.length := by
  rw [h.1, List.length_map]

omit [Platform] in
/-- An append puts the next record into the log. -/
theorem InStep.append (h : InStep first log next written) {request : WriteRequest}
    (hs : log.step (.append [⟨request, next⟩]) = some log') :
    InStep first log' (next + 1) (written ++ [⟨request, next⟩]) := by
  constructor
  · rw [WriteAheadLog.step_effect hs, List.map_append, ← h.1]
    rfl
  · rw [List.length_append, h.2]
    rfl

omit [Platform] in
/-- The next record is numbered like the ones before. -/
theorem seqs_concat (h : ∀ i r, written[i]? = some r → r.seqNumber = first + i) {r : LogRecord}
    (hr : r.seqNumber = first + written.length) (i : Nat) (r' : LogRecord)
    (hget : (written ++ [r])[i]? = some r') : r'.seqNumber = first + i := by
  rcases Nat.lt_trichotomy i written.length with hi | rfl | hi
  · exact h i r' (by rwa [List.getElem?_append_left hi] at hget)
  · rw [List.getElem?_concat_length] at hget
    obtain rfl := Option.some.inj hget
    exact hr
  · rw [List.getElem?_eq_none (by rw [List.length_append]; exact hi)] at hget
    exact absurd hget (by simp)

omit [Platform] in
/-- A step inside the log, or a flush that is not the writer's. -/
theorem WriterInv.logStep (h : WriterInv log₀ first log next written acked pc)
    (happend : ∀ entry, op ≠ .append entry) (hrequest : op ≠ .flushRequest .batch)
    (hs : log.step op = some log') : WriterInv log₀ first log' next written acked pc := by
  have hstep : ∀ {n ws}, InStep first log n ws → InStep first log' n ws := fun hin =>
    ⟨(appended_step happend hs).trans hin.1, hin.2⟩
  cases pc with
  | idle => exact hstep h
  | applying batch => exact ⟨hstep h.1, h.2⟩
  | updated request batch =>
      obtain ⟨before, hwritten, hin⟩ := h
      exact ⟨before, hwritten, hstep hin⟩
  | appended request batch => exact ⟨hstep h.1, h.2⟩
  | flushing => exact ⟨hstep h.1, h.2.1, calledAt_step h.2.2 hrequest hs⟩
  | checking | completing => exact ⟨hstep h.1, h.2.1, h.2.2.step h.1.length_eq.ge hs⟩

omit [DecidableEq κ] in
/-- A step of another thread that leaves the log alone. -/
theorem LogInv.frame (h : LogInv log₀ first s) (hlog : s'.log = s.log) (hwriter : s'.writer = s.writer)
    (hwritten : s'.written = s.written) (hacked : s'.acked = s.acked)
    (hnext : s'.engine.seqNumber = s.engine.seqNumber)
    (hcall : s'.callers none ≠ .idle → s.callers none ≠ .idle) : LogInv log₀ first s' := by
  obtain ⟨hbarrier, hle, hfile, hseqs, hpc, hchecking⟩ := h
  rw [← hlog] at hbarrier hfile
  rw [← hacked] at hle hfile
  rw [← hlog] at hle
  rw [← hwritten] at hseqs
  rw [← hlog, ← hnext, ← hwritten, ← hacked, ← hwriter] at hpc
  exact ⟨hbarrier, hle, hfile, hseqs, hpc, fun hne => hwriter.trans (hchecking (hcall hne))⟩

/-- A step of another thread in the log. -/
theorem LogInv.logStep (h : LogInv log₀ first s) (happend : ∀ entry, op ≠ .append entry)
    (hrequest : op ≠ .flushRequest .batch) (hs : s.log.step op = some log') :
    LogInv log₀ first { s with log := log' } := by
  obtain ⟨hbarrier, hle, hfile, hseqs, hpc, hchecking⟩ := h
  refine ⟨hbarrier.step (fun he => absurd he hrequest) hs, ?_, hfile.step hle hs, hseqs,
    hpc.logStep happend hrequest hs, hchecking⟩
  show s.acked ≤ log'.appended.length
  rw [appended_step happend hs]
  exact hle

theorem callers_setPc_self {t : Option κ} {pc : CheckFlushPc} : (s.setPc t pc).callers t = pc :=
  Function.update_self _ _ _

theorem callers_setPc_ne {t : Option κ} {pc : CheckFlushPc} (ht : t ≠ none) :
    (s.setPc t pc).callers none = s.callers none := Function.update_of_ne (Ne.symm ht) _ _

/-- The callers of `checkFlush`, seen from the writer thread. -/
theorem callers_none_setPc {t : Option κ} {pc : CheckFlushPc} (ht : s.callers t ≠ .idle)
    (h : (s.setPc t pc).callers none ≠ .idle) : s.callers none ≠ .idle := by
  by_cases hnone : t = none
  · exact hnone ▸ ht
  · rwa [callers_setPc_ne hnone] at h

/-- **One step** keeps the invariant, as long as the writer thread flushes its batch only when that is clear. -/
theorem LogInv.step (h : LogInv log₀ first s) {op : LifetimeOp κ}
    (hC : op = .flushLog → s.log.ClearFlush (.flushRequest .batch)) (hs : s.step op = some s') :
    LogInv log₀ first s' := by
  have heff := step_effect hs
  have hpc := h.writer
  have hle := h.acked_le
  -- a busy writer thread that is not in `checkFlush` is not rotating
  have hnotChecking : s.writer ≠ .checking → s.callers none = .idle := fun hne =>
    by_contra fun hcall => hne (h.checking hcall)
  cases op with
  | popBatch batch =>
      obtain ⟨hidle, hne, rfl⟩ := heff
      rw [hidle] at hpc
      have hcall := hnotChecking (by rw [hidle]; decide)
      exact ⟨h.barrier, hle, h.acked_file, h.seqs, ⟨hpc, fun hnil => absurd hnil hne⟩,
        fun hne => absurd hcall hne⟩
  | update =>
      obtain ⟨request, batch, happlying, rfl⟩ := heff
      rw [happlying] at hpc
      have hcall := hnotChecking (by rw [happlying]; simp)
      exact ⟨h.barrier, hle, h.acked_file, seqs_concat h.seqs hpc.1.2, ⟨s.written, rfl, hpc.1⟩,
        fun hne => absurd hcall hne⟩
  | append =>
      obtain ⟨request, batch, log, hupdated, hlog, rfl⟩ := heff
      rw [hupdated] at hpc
      obtain ⟨before, hwritten, hin⟩ := hpc
      have hcall := hnotChecking (by rw [hupdated]; simp)
      have hin' := hin.append hlog
      rw [← hwritten] at hin'
      have hlt : s.acked < s.written.length := by
        rw [hwritten, List.length_append, ← hin.length_eq]
        exact Nat.lt_succ_of_le hle
      refine ⟨h.barrier.step (by simp) hlog, ?_, h.acked_file.step hle hlog, h.seqs, ⟨hin', hlt⟩,
        fun hne => absurd hcall hne⟩
      show s.acked ≤ log.appended.length
      rw [hin'.length_eq]
      exact hlt.le
  | advance =>
      obtain ⟨request, batch, happended, rfl⟩ := heff
      rw [happended] at hpc
      have hcall := hnotChecking (by rw [happended]; simp)
      exact ⟨h.barrier, hle, h.acked_file, h.seqs, ⟨hpc.1, fun _ => hpc.2⟩, fun hne => absurd hcall hne⟩
  | flushLog =>
      obtain ⟨log, happlying, hlog, rfl⟩ := heff
      rw [happlying] at hpc
      obtain ⟨hin, howed⟩ := hpc
      have hcall := hnotChecking (by rw [happlying]; simp)
      have happended : log.appended = s.log.appended := appended_step (by simp) hlog
      refine ⟨h.barrier.step (fun _ => hC rfl) hlog, by rw [happended]; exact hle,
        h.acked_file.step hle hlog, h.seqs, ⟨⟨happended.trans hin.1, hin.2⟩, howed rfl, ?_⟩,
        fun hne => absurd hcall hne⟩
      rw [WriteAheadLog.step_effect hlog, flushers_setPc_self]
      exact hin.length_eq
  | checkFlush =>
      obtain ⟨before, hflushing, hreturned, hcases⟩ := heff
      rw [hflushing] at hpc
      obtain ⟨hin, howed, hcalled⟩ := hpc
      rw [hreturned] at hcalled
      obtain rfl : before = s.written.length := hcalled
      have hcall := hnotChecking (by rw [hflushing]; decide)
      -- the flush has returned, and it was called when everything was in the log
      have hwritten : Written log₀ s.log s.written.length := by
        have hpc := h.barrier.flusher
        rw [hreturned] at hpc
        exact hpc.2
      rcases hcases with rfl | ⟨log, hlog, rfl⟩
      · exact ⟨h.barrier, hle, h.acked_file, h.seqs, ⟨hin, howed, hwritten⟩, fun hne => absurd hcall hne⟩
      · have hchecking : WriterInv log₀ first s.log s.engine.seqNumber s.written s.acked .checking :=
          ⟨hin, howed, hwritten⟩
        have hlogInv := h.logStep (by simp) (by simp) hlog
        exact ⟨hlogInv.barrier, hlogInv.acked_le, hlogInv.acked_file, h.seqs,
          hchecking.logStep (by simp) (by simp) hlog, fun _ => rfl⟩
  | complete =>
      obtain ⟨hcompleting, rfl⟩ := heff
      rw [hcompleting] at hpc
      obtain ⟨hin, howed, hwritten⟩ := hpc
      have hcall := hnotChecking (by rw [hcompleting]; decide)
      refine ⟨h.barrier, ?_, hwritten.of_le howed, h.seqs, ?_, fun hne => absurd hcall hne⟩
      · show s.acked + 1 ≤ s.log.appended.length
        rw [hin.length_eq]
        exact howed
      · show WriterInv log₀ first s.log _ s.written _ (if _ then _ else _)
        split_ifs with hlast
        · exact hin
        · exact ⟨hin, Nat.lt_of_le_of_ne howed hlast, hwritten⟩
  | flush t =>
      obtain ⟨log, hlog, rfl⟩ := heff
      refine (h.logStep (by simp) (by simp) hlog).frame rfl rfl rfl rfl rfl fun hne => ?_
      rwa [callers_setPc_ne (by simp)] at hne
  | rotateCopy t =>
      obtain ⟨ht, rfl⟩ := heff
      exact h.frame rfl rfl rfl rfl rfl fun hne => callers_none_setPc (by rw [ht]; decide) hne
  | rotateClear t =>
      obtain ⟨-, imm, -, rfl⟩ := heff
      exact h.frame rfl rfl rfl rfl rfl fun hne => hne
  | rotatePublish t =>
      obtain ⟨ht, imm, -, rfl⟩ := heff
      exact h.frame rfl rfl rfl rfl rfl fun hne => callers_none_setPc (by rw [ht]; decide) hne
  | unlink t =>
      obtain ⟨ht, rfl⟩ := heff
      by_cases hnone : t = none
      · subst hnone
        have hchecking := h.checking (by rw [ht]; decide)
        rw [hchecking] at hpc
        exact ⟨h.barrier, hle, h.acked_file, h.seqs, hpc, fun hne => absurd callers_setPc_self hne⟩
      · refine h.frame rfl (if_neg hnone) rfl rfl rfl fun hne => ?_
        rwa [callers_setPc_ne hnone] at hne
  | flushWrite =>
      obtain ⟨-, imm, -, ⟨-, rfl⟩ | ⟨-, rfl⟩⟩ := heff
      · exact h.frame rfl rfl rfl rfl rfl fun hne => hne
      · exact h.frame rfl rfl rfl rfl rfl fun hne => hne
  | flushInstall =>
      obtain ⟨sst, -, rfl⟩ := heff
      exact h.frame rfl rfl rfl rfl rfl fun hne => hne
  | flushSave =>
      obtain ⟨-, rfl⟩ := heff
      exact h.frame rfl rfl rfl rfl rfl fun hne => hne
  | flushReset =>
      obtain ⟨-, rfl⟩ := heff
      exact h.frame rfl rfl rfl rfl rfl fun hne => hne
  | log op =>
      obtain ⟨happend, hrequest, log, hlog, rfl⟩ := heff
      exact h.logStep happend (hrequest _) hlog

end Steps

/-! ## D. The file

What is in the file is a beginning of what was written, and at least as long as what is acknowledged. -/

omit [Platform] [DecidableEq κ] in
/-- What is in the log is the first of what was written. -/
theorem WriterInv.exists_appended {log : WriteAheadLog LogRecord (LogCaller κ)} {next acked : Nat}
    {written : List LogRecord} {pc : WriterPc} (h : WriterInv log₀ first log next written acked pc) :
    ∃ records, records <+: written ∧ log.appended = records.map ([·]) := by
  cases pc with
  | idle => exact ⟨written, List.prefix_refl _, h.1⟩
  | updated request batch =>
      obtain ⟨before, rfl, hin⟩ := h
      exact ⟨before, List.prefix_append _ _, hin.1⟩
  | applying batch => exact ⟨written, List.prefix_refl _, h.1.1⟩
  | appended request batch => exact ⟨written, List.prefix_refl _, h.1.1⟩
  | flushing => exact ⟨written, List.prefix_refl _, h.1.1⟩
  | checking => exact ⟨written, List.prefix_refl _, h.1.1⟩
  | completing => exact ⟨written, List.prefix_refl _, h.1.1⟩

omit [DecidableEq κ] in
/-- The file holds the writes in their order, -/
theorem LogInv.file_prefix (h : LogInv log₀ first s) : s.log.file <+: log₀ ++ s.written := by
  obtain ⟨records, hprefix, happended⟩ := h.writer.exists_appended
  have hbytes := h.barrier.bytes
  rw [happended, ← List.flatMap_def, List.flatMap_singleton'] at hbytes
  have hfile : s.log.file <+: log₀ ++ records := by
    rw [← hbytes, List.append_assoc]
    exact List.prefix_append _ _
  exact hfile.trans ((List.prefix_append_right_inj log₀).mpr hprefix)

end Lifetime

end KvStorageEngine
