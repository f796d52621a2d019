import Mathlib.Data.List.TakeWhile
import KvStorageEngine.Engine.Handover
import KvStorageEngine.Engine.Correctness.EngineInvariant

/-!
# `Engine.Correctness.RotationLoss` — which writes a rotation loses

The rotation copies the memtable and clears it later. A record written in between is in neither place
afterwards, unless its key is written once more: `rotation_keeps_iff` says that this is the only way to lose a
write, and that it always does.

`history` is the memtable as it would be if it were never cleared, so it has the newest record of every key.
The invariant relates it to the two real memtables through the keys written since the copy and since the
clear, which are read off the run itself.
-/

namespace KvStorageEngine

open Run

variable [Platform]

namespace Handover

/-! ## A. What was written, and when

The history of a run is one memtable that nobody ever rotates. The keys written since the copy was made, and before
the memtable was cleared, are those that a rotation can lose. -/

/-- A write goes to the history under the next sequence number. -/
def historyStep (h : MemTable × Nat) : HandoverOp → MemTable × Nat
  | .put key value => (h.1.put key value h.2, h.2 + 1)
  | .del key => (h.1.del key h.2, h.2 + 1)
  | .rotateCopy | .rotateClear | .rotatePublish | .flushInstall | .flushReset => h

/-- The memtable of a run from `s₀` that never clears it, and the next sequence number. -/
def history (s₀ : StorageEngine) (ops : List HandoverOp) : MemTable × Nat :=
  ops.foldl historyStep (s₀.memtable, s₀.seqNumber)

/-- The keys written after the first `mark`. -/
def keysSince (mark : HandoverOp) (ops : List HandoverOp) : List Bytes :=
  (ops.dropWhile (· ≠ mark)).filterMap (·.key?)

/-- The keys written between the rotation's copy and its clear. -/
def keysBetween (ops : List HandoverOp) : List Bytes :=
  keysSince .rotateCopy (ops.takeWhile (· ≠ .rotateClear))

/-- The newest record written for every key is in the active or in the immutable memtable. -/
def NewestKept (s₀ : StorageEngine) (ops : List HandoverOp) (s : Handover) : Prop :=
  ∀ k e, (history s₀ ops).1.get k = some e →
    s.engine.memtable.get k = some e ∨ s.engine.immutableMemtable.bind (·.get k) = some e

section Keys

omit [Platform]

variable {mark op : HandoverOp} {ops : List HandoverOp}

/-- The history after one more step. -/
theorem history_concat [Platform] (s₀ : StorageEngine) (ops : List HandoverOp) (op : HandoverOp) :
    history s₀ (ops ++ [op]) = historyStep (history s₀ ops) op := by
  unfold history
  rw [List.foldl_append]
  rfl

/-- Once the mark is set, a step adds its key, if it has one. -/
theorem keysSince_concat (h : mark ∈ ops) :
    keysSince mark (ops ++ [op]) = keysSince mark ops ++ op.key?.toList := by
  have hne : ops.dropWhile (· ≠ mark) ≠ [] := by
    intro hnil
    have := List.dropWhile_eq_nil_iff.mp hnil mark h
    simp at this
  unfold keysSince
  rw [List.dropWhile_append, if_neg (by simpa using hne), List.filterMap_append]
  cases hk : op.key? <;> simp [hk]

/-- The mark itself writes no key. -/
theorem keysSince_concat_self (h : mark ∉ ops) (hkey : mark.key? = none) :
    keysSince mark (ops ++ [mark]) = [] := by
  have hnil : ops.dropWhile (· ≠ mark) = [] := List.dropWhile_eq_nil_iff.mpr fun x hx => by
    simpa using fun he : x = mark => h (he ▸ hx)
  unfold keysSince
  rw [List.dropWhile_append, hnil]
  simp [hkey]

/-- After the clear nothing comes in between any more. -/
theorem keysBetween_concat (h : HandoverOp.rotateClear ∈ ops) :
    keysBetween (ops ++ [op]) = keysBetween ops := by
  have hlt : (ops.takeWhile (· ≠ .rotateClear)).length ≠ ops.length := by
    intro hlen
    have heq := (List.takeWhile_prefix (· ≠ HandoverOp.rotateClear)).eq_of_length hlen
    have := List.takeWhile_eq_self_iff.mp heq _ h
    simp at this
  unfold keysBetween
  rw [List.takeWhile_append, if_neg hlt]

theorem keysBetween_concat_clear (h : HandoverOp.rotateClear ∉ ops) :
    keysBetween (ops ++ [.rotateClear]) = keysSince .rotateCopy ops := by
  have heq : ops.takeWhile (· ≠ .rotateClear) = ops := List.takeWhile_eq_self_iff.mpr fun x hx => by
    simpa using fun he : x = .rotateClear => h (he ▸ hx)
  unfold keysBetween
  rw [List.takeWhile_append, heq, if_pos rfl]
  simp

end Keys

/-! ## B. The two memtables and the history

What the copy and the active memtable have of the history, in the two phases of a rotation. -/

/-- A table all of whose records are older than `n`. -/
def Below (n : Nat) (m : MemTable) : Prop := ∀ k e, m.get k = some e → e.seq < n

/-- A copy of the memtable and the history since: they differ on the keys written since. -/
structure SinceCopy (keys : List Bytes) (imm hist : MemTable) : Prop where
  same : ∀ k, k ∉ keys → imm.get k = hist.get k
  differ : ∀ k ∈ keys, ∃ e, hist.get k = some e ∧ imm.get k ≠ some e

/-- After the clear: the memtable has the keys written since, the copy has the others as they were. -/
structure SinceClear (between since : List Bytes) (mem imm hist : MemTable) : Prop where
  later : ∀ k ∈ since, mem.get k = hist.get k
  empty : ∀ k, k ∉ since → mem.get k = none
  same : ∀ k, k ∉ since → k ∉ between → imm.get k = hist.get k
  differ : ∀ k, k ∉ since → k ∈ between → ∃ e, hist.get k = some e ∧ imm.get k ≠ some e

section Write

omit [Platform]

variable {keys between since : List Bytes} {mem imm hist mem' hist' : MemTable} {key : Bytes} {e : Entry}

/-- A write after the copy: a new record, which the copy does not have. -/
theorem SinceCopy.write (h : SinceCopy keys imm hist) (himm : Below e.seq imm)
    (hhist : ∀ k, hist'.get k = if k = key then some e else hist.get k) :
    SinceCopy (keys ++ [key]) imm hist' := by
  refine ⟨?_, ?_⟩
  · intro k hk
    obtain ⟨hk, hne⟩ := not_or.mp (List.mem_append.not.mp hk)
    rw [hhist, if_neg (by simpa using hne), h.same k hk]
  · intro k hk
    by_cases hne : k = key
    · refine ⟨e, by rw [hhist, if_pos hne], ?_⟩
      intro he
      exact absurd (himm k e he) (Nat.lt_irrefl _)
    · rw [hhist, if_neg hne]
      exact h.differ k (by simpa [hne] using hk)

/-- A write after the clear goes to the memtable and the history alike. -/
theorem SinceClear.write (h : SinceClear between since mem imm hist)
    (hmem : ∀ k, mem'.get k = if k = key then some e else mem.get k)
    (hhist : ∀ k, hist'.get k = if k = key then some e else hist.get k) :
    SinceClear between (since ++ [key]) mem' imm hist' := by
  have hmem_since : ∀ k, k ∉ since ++ [key] → k ∉ since ∧ k ≠ key := by
    intro k hk
    simpa using hk
  refine ⟨?_, ?_, ?_, ?_⟩
  · intro k hk
    rw [hmem, hhist]
    split_ifs with hne
    · rfl
    · exact h.later k (by simpa [hne] using hk)
  · intro k hk
    obtain ⟨hk, hne⟩ := hmem_since k hk
    rw [hmem, if_neg hne, h.empty k hk]
  · intro k hk
    obtain ⟨hk, hne⟩ := hmem_since k hk
    rw [hhist, if_neg hne]
    exact h.same k hk
  · intro k hk
    obtain ⟨hk, hne⟩ := hmem_since k hk
    rw [hhist, if_neg hne]
    exact h.differ k hk

end Write

/-- Where the history is, at each point of the rotation. -/
def Placed (ops : List HandoverOp) (hist : MemTable) (s : Handover) : Prop :=
  match s.rotation with
  | .idle => (s.engine.memtable = hist ∧ .rotateCopy ∉ ops ∧ .rotateClear ∉ ops ∧ .rotatePublish ∉ ops) ∨
      (∃ imm, s.engine.immutableMemtable = some imm ∧ .rotateCopy ∈ ops ∧ .rotateClear ∈ ops ∧
        SinceClear (keysBetween ops) (keysSince .rotateClear ops) s.engine.memtable imm hist)
  | .copied imm => s.engine.memtable = hist ∧ .rotateCopy ∈ ops ∧ .rotateClear ∉ ops ∧
      .rotatePublish ∉ ops ∧ Below s.engine.seqNumber imm ∧ SinceCopy (keysSince .rotateCopy ops) imm hist
  | .cleared imm => .rotateCopy ∈ ops ∧ .rotateClear ∈ ops ∧ .rotatePublish ∉ ops ∧
      SinceClear (keysBetween ops) (keysSince .rotateClear ops) s.engine.memtable imm hist

/-- The invariant of a run that flushes nothing. -/
structure RotationInv (s₀ : StorageEngine) (ops : List HandoverOp) (s : Handover) : Prop where
  next : s.engine.seqNumber = (history s₀ ops).2
  below : Below s.engine.seqNumber (history s₀ ops).1
  placed : Placed ops (history s₀ ops).1 s

/-! ## C. The invariant through a run

Each step of the rotation moves the invariant on by one phase; a write keeps it within its phase. -/

section Step

variable {s₀ : StorageEngine} {ops : List HandoverOp} {s s' : Handover}

theorem RotationInv.start (h : Below s₀.seqNumber s₀.memtable) :
    RotationInv s₀ [] (start s₀) :=
  ⟨rfl, h, Or.inl ⟨rfl, List.not_mem_nil, List.not_mem_nil, List.not_mem_nil⟩⟩

/-- The writer's step, wherever the rotation is. -/
theorem RotationInv.write (h : RotationInv s₀ ops s) {op : HandoverOp} {key : Bytes} {e : Entry}
    {mem' : MemTable} (hkey : op.key? = some key) (he : e.seq = s.engine.seqNumber)
    (hnext : (history s₀ (ops ++ [op])).2 = (history s₀ ops).2 + 1)
    (hmem : ∀ k, mem'.get k = if k = key then some e else s.engine.memtable.get k)
    (hhist : ∀ k, (history s₀ (ops ++ [op])).1.get k =
      if k = key then some e else (history s₀ ops).1.get k) :
    RotationInv s₀ (ops ++ [op]) { s with engine := s.engine.stored key mem' } := by
  -- a write moves none of the marks of the rotation
  have hmark : ∀ mark : HandoverOp, mark.key? = none → (mark ∈ ops ++ [op] ↔ mark ∈ ops) := by
    intro mark hnone
    rw [List.mem_append, List.mem_singleton, or_iff_left]
    rintro rfl
    rw [hkey] at hnone
    exact absurd hnone (by simp)
  have hcopy := hmark .rotateCopy rfl
  have hclear := hmark .rotateClear rfl
  have hpublish := hmark .rotatePublish rfl
  have hsince : .rotateClear ∈ ops → keysSince .rotateClear (ops ++ [op])
      = keysSince .rotateClear ops ++ [key] := fun hin => by
    rw [keysSince_concat hin, hkey]
    rfl
  -- as long as memtable and history are one, they stay one
  have hsame : s.engine.memtable = (history s₀ ops).1 → mem' = (history s₀ (ops ++ [op])).1 := by
    intro heq
    apply MemTable.ext_get
    intro k
    rw [hmem, hhist, heq]
  refine ⟨?_, ?_, ?_⟩
  · show s.engine.seqNumber + 1 = _
    rw [hnext, h.next]
  · intro k e' he'
    show e'.seq < s.engine.seqNumber + 1
    rw [hhist] at he'
    split_ifs at he'
    · rw [← Option.some.inj he']
      omega
    · have := h.below k e' he'
      omega
  · have hplaced := h.placed
    unfold Placed at hplaced ⊢
    cases hr : s.rotation with
    | idle =>
        rw [hr] at hplaced
        rcases hplaced with ⟨heq, hno⟩ | ⟨imm, himm, hin, hin', hsplit⟩
        · exact Or.inl ⟨hsame heq, by rwa [hcopy, hclear, hpublish]⟩
        · refine Or.inr ⟨imm, himm, hcopy.mpr hin, hclear.mpr hin', ?_⟩
          rw [keysBetween_concat hin', hsince hin']
          exact hsplit.write hmem hhist
    | copied imm =>
        rw [hr] at hplaced
        obtain ⟨heq, hin, hno, hno', hbelow, hcp⟩ := hplaced
        refine ⟨hsame heq, hcopy.mpr hin, by rwa [hclear], by rwa [hpublish], ?_, ?_⟩
        · intro k e' he'
          exact Nat.lt_succ_of_lt (hbelow k e' he')
        · rw [keysSince_concat hin, hkey]
          exact hcp.write (he ▸ hbelow) hhist
    | cleared imm =>
        rw [hr] at hplaced
        obtain ⟨hin, hin', hno, hsplit⟩ := hplaced
        refine ⟨hcopy.mpr hin, hclear.mpr hin', by rwa [hpublish], ?_⟩
        rw [keysBetween_concat hin', hsince hin']
        exact hsplit.write hmem hhist

/-- A step of the rotation writes nothing. -/
theorem history_concat_of_rotation {op : HandoverOp} (hop : op.key? = none) :
    history s₀ (ops ++ [op]) = history s₀ ops := by
  rw [history_concat]
  cases op with
  | put key value => exact absurd hop (by simp [HandoverOp.key?])
  | del key => exact absurd hop (by simp [HandoverOp.key?])
  | rotateCopy | rotateClear | rotatePublish | flushInstall | flushReset => rfl

/-- The steps of the writer thread and its rotation keep the invariant. -/
theorem RotationInv.step (h : RotationInv s₀ ops s) {op : HandoverOp} (hs : s.step op = some s')
    (hflush : op ≠ .flushInstall ∧ op ≠ .flushReset) : RotationInv s₀ (ops ++ [op]) s' := by
  have hhist : op.key? = none → history s₀ (ops ++ [op]) = history s₀ ops :=
    history_concat_of_rotation
  have hplaced := h.placed
  unfold Placed at hplaced
  cases Effect.of_step hs with
  | put key value =>
      refine h.write rfl rfl (by rw [history_concat]; rfl) (s.engine.memtable.get_put key value _) ?_
      rw [history_concat, h.next]
      exact MemTable.get_put _ key value _
  | del key =>
      refine h.write rfl rfl (by rw [history_concat]; rfl) (s.engine.memtable.get_del key _) ?_
      rw [history_concat, h.next]
      exact MemTable.get_del _ key _
  | rotateCopy hr hi =>
      simp only [hr, hi] at hplaced
      rcases hplaced with ⟨heq, hcopy, hclear, hpublish⟩ | ⟨imm, himm, -⟩
      · refine ⟨by rw [hhist rfl]; exact h.next, by rw [hhist rfl]; exact h.below, ?_⟩
        rw [hhist rfl]
        refine ⟨heq, by simp, by simpa using hclear, by simpa using hpublish, ?_, ?_⟩
        · rw [MemTable.copyOf_snapshot, heq]
          exact h.below
        · -- nothing has been written since
          rw [keysSince_concat_self hcopy rfl, MemTable.copyOf_snapshot, heq]
          exact ⟨fun _ _ => rfl, fun k hk => absurd hk List.not_mem_nil⟩
      · exact absurd himm (by simp)
  | @rotateClear imm hr =>
      simp only [hr] at hplaced
      obtain ⟨-, hcopy, hclear, hpublish, -, hcp⟩ := hplaced
      refine ⟨by rw [hhist rfl]; exact h.next, by rw [hhist rfl]; exact h.below, ?_⟩
      rw [hhist rfl]
      refine ⟨by simpa using hcopy, by simp, by simpa using hpublish, ?_⟩
      -- the keys written since the copy are now those in between
      rw [keysBetween_concat_clear hclear, keysSince_concat_self hclear rfl]
      exact ⟨fun k hk => absurd hk List.not_mem_nil, fun k _ => rfl, fun k _ => hcp.same k,
        fun k _ => hcp.differ k⟩
  | @rotatePublish imm hr =>
      simp only [hr] at hplaced
      obtain ⟨hcopy, hclear, -, hsplit⟩ := hplaced
      refine ⟨by rw [hhist rfl]; exact h.next, by rw [hhist rfl]; exact h.below, ?_⟩
      rw [hhist rfl]
      refine Or.inr ⟨imm, rfl, by simpa using hcopy, by simpa using hclear, ?_⟩
      rw [keysBetween_concat hclear, keysSince_concat hclear]
      simpa [HandoverOp.key?] using hsplit
  | flushInstall _ _ => exact absurd rfl hflush.1
  | flushReset _ => exact absurd rfl hflush.2

/-- The invariant holds along every run that flushes nothing. -/
theorem rotationInv_of_exec (h₀ : Below s₀.seqNumber s₀.memtable)
    (h : exec step (Handover.start s₀) ops = some s)
    (hflush : ∀ op ∈ ops, op ≠ .flushInstall ∧ op ≠ .flushReset) : RotationInv s₀ ops s := by
  induction ops using List.reverseRecOn generalizing s with
  | nil => exact Option.some.inj h ▸ RotationInv.start h₀
  | append_singleton ops op ih =>
      obtain ⟨t, ht, hs⟩ := exec_concat_eq_some h
      exact (ih ht fun op hop => hflush op (List.mem_append_left _ hop)).step hs (hflush op (by simp))

end Step

/-- In every reachable state of the engine the memtable is older than the next write. -/
theorem below_memtable {dataDir : Bytes} {cacheSize : Nat} {ops : List EngineOp} {s : StorageEngine}
    (h : exec StorageEngine.step (StorageEngine.init dataDir cacheSize) ops = some s) :
    Below s.seqNumber s.memtable := by
  have hwrite : ∀ (s : StorageEngine) (m' : MemTable) (key : Bytes) (e : Entry),
      (∀ k, m'.get k = if k = key then some e else s.memtable.get k) → e.seq = s.seqNumber →
      Below s.seqNumber s.memtable → Below (s.seqNumber + 1) m' := by
    intro s m' key e hm he hb k e' he'
    rw [hm] at he'
    split_ifs at he'
    · rw [← Option.some.inj he', he]
      omega
    · exact Nat.lt_succ_of_lt (hb k e' he')
  refine exec_invariant (I := fun s => Below s.seqNumber s.memtable) ?_ ?_ h
  · intro k e he
    exact absurd he (by simp [StorageEngine.init])
  · intro s op s' hb hs
    cases StorageEngine.Effect.of_step hs with
    | put key value => exact hwrite s _ key _ (s.memtable.get_put key value _) rfl hb
    | del key =>
        obtain ⟨cache, hg, -⟩ := StorageEngine.get_snd s key
        rw [hg]
        exact hwrite s _ key _ (s.memtable.get_del key _) rfl hb
    | get key =>
        obtain ⟨cache, hg, -⟩ := StorageEngine.get_snd s key
        rw [hg]
        exact hb
    | rotate hs =>
        obtain ⟨-, rfl⟩ := StorageEngine.rotate_eq_some hs
        intro k e he
        exact absurd he (by simp)
    | flushInstall hs =>
        obtain ⟨imm, -, ⟨-, rfl⟩ | ⟨-, rfl⟩⟩ := StorageEngine.flushInstall_eq_some hs <;> exact hb
    | compactL0toL1 _ => exact hb
    | compactlevelN _ => exact hb
    | notDue _ => exact hb
    | noneAtL0 _ => exact hb
    | noneAtLevel _ => exact hb

/-! ## D. The rotation

When the copy is published, the two memtables together have the newest record of every key, unless a key was overtaken
in between and not written again. -/

/-- **A rotation keeps every write exactly when what is written between its copy and its clear is written
    again.** From any reachable state, for any interleaving of the writer with the rotation, once it has
    published: the newest record of every key is in one of the two memtables if and only if every key
    written between the copy and the clear is written once more after the clear. -/
theorem rotation_keeps_iff {dataDir : Bytes} {cacheSize : Nat} {ops₀ : List EngineOp}
    {s₀ : StorageEngine}
    (h₀ : exec StorageEngine.step (StorageEngine.init dataDir cacheSize) ops₀ = some s₀)
    {ops : List HandoverOp} {s : Handover} (h : exec step (start s₀) ops = some s)
    (hflush : ∀ op ∈ ops, op ≠ .flushInstall ∧ op ≠ .flushReset) (hdone : .rotatePublish ∈ ops) :
    NewestKept s₀ ops s ↔ ∀ k ∈ keysBetween ops, k ∈ keysSince .rotateClear ops := by
  have hplaced := (rotationInv_of_exec (below_memtable h₀) h hflush).placed
  unfold Placed at hplaced
  have hsplit : ∃ imm, s.engine.immutableMemtable = some imm ∧ SinceClear (keysBetween ops)
      (keysSince .rotateClear ops) s.engine.memtable imm (history s₀ ops).1 := by
    cases hr : s.rotation with
    | idle =>
        rw [hr] at hplaced
        rcases hplaced with ⟨-, -, -, hno⟩ | ⟨imm, himm, -, -, hsplit⟩
        · exact absurd hdone hno
        · exact ⟨imm, himm, hsplit⟩
    | copied imm => rw [hr] at hplaced; exact absurd hdone hplaced.2.2.2.1
    | cleared imm => rw [hr] at hplaced; exact absurd hdone hplaced.2.2.1
  obtain ⟨imm, himm, hsplit⟩ := hsplit
  unfold NewestKept
  rw [himm]
  constructor
  · intro hkept k hk
    by_contra hn
    -- overtaken and not written again: the copy has an older record, the memtable none
    obtain ⟨e, he, hne⟩ := hsplit.differ k hn hk
    rcases hkept k e he with hm | hi
    · rw [hsplit.empty k hn] at hm
      exact absurd hm (by simp)
    · exact hne hi
  · intro hagain k e he
    by_cases hk : k ∈ keysSince .rotateClear ops
    · exact Or.inl ((hsplit.later k hk).trans he)
    · have hbetween : k ∉ keysBetween ops := fun hin => hk (hagain k hin)
      exact Or.inr ((hsplit.same k hk hbetween).trans he)

/-- A write falls between the copy and the clear. -/
def overtakenRun : List HandoverOp :=
  [.put (Bytes.ascii "b") (Bytes.ascii "1"), .rotateCopy, .put (Bytes.ascii "a") (Bytes.ascii "2"),
    .rotateClear, .rotatePublish]

omit [Platform] in
theorem rotation_keeps_iff_overtakenRun : letI := Platform.sample
    ∃ s, exec step (start (StorageEngine.init (Bytes.ascii "data") 0)) overtakenRun = some s ∧
      (NewestKept (StorageEngine.init (Bytes.ascii "data") 0) overtakenRun s ↔
        ∀ k ∈ keysBetween overtakenRun, k ∈ keysSince .rotateClear overtakenRun) := by
  let := Platform.sample
  have hrun : (exec step (start (StorageEngine.init (Bytes.ascii "data") 0)) overtakenRun).isSome := by
    decide +kernel
  obtain ⟨s, hs⟩ := Option.isSome_iff_exists.mp hrun
  exact ⟨s, hs, rotation_keeps_iff (exec_nil _) hs (by decide) (by decide)⟩

omit [Platform] in
/-- The overtaken write is in neither memtable. -/
theorem overtaken_write_lost : letI := Platform.sample
    ∃ s, exec step (start (StorageEngine.init (Bytes.ascii "data") 0)) overtakenRun = some s ∧
      (history (StorageEngine.init (Bytes.ascii "data") 0) overtakenRun).1.get (Bytes.ascii "a")
        = some ⟨Bytes.ascii "2", 2, .put⟩ ∧
      s.engine.memtable.get (Bytes.ascii "a") = none ∧
      s.engine.immutableMemtable.bind (·.get (Bytes.ascii "a")) = none ∧
      ¬ NewestKept (StorageEngine.init (Bytes.ascii "data") 0) overtakenRun s := by
  let := Platform.sample
  have hget : (exec step (start (StorageEngine.init (Bytes.ascii "data") 0)) overtakenRun).map
      (fun s => (s.engine.memtable.get (Bytes.ascii "a"),
        s.engine.immutableMemtable.bind (·.get (Bytes.ascii "a")))) = some (none, none) := by
    decide +kernel
  obtain ⟨s, hs, he⟩ := Option.map_eq_some_iff.mp hget
  obtain ⟨hmem, himm⟩ := Prod.mk.inj he
  have hhist : (history (StorageEngine.init (Bytes.ascii "data") 0) overtakenRun).1.get
      (Bytes.ascii "a") = some ⟨Bytes.ascii "2", 2, .put⟩ := by decide +kernel
  refine ⟨s, hs, hhist, hmem, himm, ?_⟩
  intro hkept
  rcases hkept _ _ hhist with h | h
  · rw [hmem] at h
    exact absurd h (by simp)
  · rw [himm] at h
    exact absurd h (by simp)

end Handover

end KvStorageEngine
