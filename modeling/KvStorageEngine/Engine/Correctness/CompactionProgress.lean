import KvStorageEngine.Engine.Correctness.CompactionInputs
import KvStorageEngine.Engine.Correctness.EngineInvariant

/-!
# `Engine.Correctness.CompactionProgress` — whether a compaction of level 0 gets rid of its inputs

`compactL0toL1` merges level 0 with what it overlaps in level 1, and gives up when nothing is left of the merge. Then
its inputs stay: tombstones that have nothing newer than them on their keys are merged again by every later compaction,
and level 0 keeps its four files.

Where something is left, the compaction installs a version without its inputs, whatever the flush thread has installed
in the meantime. They come back only with a version that the flush thread copied before that and installs after it
(`progress_iff`).
-/

namespace KvStorageEngine

open Run TableVersion

variable [Platform] {v : TableVersion}

/-! ## A. One compaction, with the flush thread beside it

The compaction thread plans, writes, copies, edits and installs; in between the flush thread may do anything.
`KeepsOut` is the condition on its steps. -/

/-- The thread is between two rounds. -/
def VersionPc.isIdle : VersionPc → Bool
  | .idle => true
  | .planned _ _ | .written _ | .copied _ _ _ | .edited _ _ _ => false

namespace VersionSystem

/-- The two threads on an engine at rest. -/
def ofEngine (e : StorageEngine) : VersionSystem :=
  { init e.dataDir with current := e.version, flushCounter := e.flushCounter }

/-- The steps while one compaction runs, after it has read the version: no other one begins. -/
def stepOn (s : VersionSystem) : VersionOp → Option VersionSystem
  | .compactRead _ => none
  | op => s.step op

/-- No input is in the version any more, and if no flush was installed meanwhile, level 0 needs no compaction. -/
def Progress (v : TableVersion) (ops : List VersionOp) (t : VersionSystem) : Prop :=
  (∀ m ∈ inputMetas v, Gone t.current m.id) ∧ (VersionOp.install .flush ∉ ops → shouldCompactUnlocked 0 t.current = false)

/-- No table that is installed has the id of an input, and what the flush thread installs after the compaction it has
    copied after it. -/
def KeepsOut (v : TableVersion) (s : VersionSystem) : VersionOp → Prop
  | .install .compaction => ∀ c copiedAt newVersion, s.pc .compaction = .edited c copiedAt newVersion →
      ∀ m ∈ inputMetas v, m.id ≠ c.newMeta.id
  | .install .flush => s.pc .compaction = .idle → ∀ c copiedAt newVersion, s.pc .flush = .edited c copiedAt newVersion →
      copiedAt = s.installs ∧ ∀ m ∈ inputMetas v, m.id ≠ c.newMeta.id
  | .flushWrite _ _ | .compactRead _ | .compactWrite _ | .copy _ | .edit _ => True

end VersionSystem

namespace VersionSystem

/-! ## B. The flush thread

What it holds in every reachable state: a table of its own to add, and a version that is the current one with or
without that table, as long as nothing has been installed since it copied. -/

/-- The change of a flush. -/
structure AddsOwn (dataDir : Bytes) (c : Change) : Prop where
  kind : c.kind = .flush
  remove : c.idsToRemove = []
  path : c.sst.path = sstablePath (sstableDir dataDir) c.newMeta.id

theorem AddsOwn.wf {dataDir : Bytes} {c : Change} (h : AddsOwn dataDir c) : c.Wf := fun _ => h.remove

/-- A flush brings a table back only by its own id. -/
theorem AddsOwn.gone_edit_iff {dataDir : Bytes} {c : Change} (h : AddsOwn dataDir c) {id : Nat} :
    Gone (c.edit v) id ↔ Gone v id ∧ id ≠ c.newMeta.id ∧ ¬ idPattern id <:+: dataDir := by
  unfold Change.edit
  rw [h.kind]
  exact gone_installFlushed_iff h.path

/-- Where the flush thread is. -/
def FlushPc (s : VersionSystem) : VersionPc → Prop
  | .idle => True
  | .planned _ _ => False
  | .written c => AddsOwn s.dataDir c
  | .copied c copiedAt v => AddsOwn s.dataDir c ∧ copiedAt ≤ s.installs ∧ (copiedAt = s.installs → v = s.current.copyFrom)
  | .edited c copiedAt v => AddsOwn s.dataDir c ∧ copiedAt ≤ s.installs ∧
      (copiedAt = s.installs → v = c.edit s.current.copyFrom)

/-- The flush thread's part of the state. -/
def FlushInv (s : VersionSystem) : Prop := FlushPc s (s.pc .flush)

/-- A version that a thread holds. -/
def InHand (pc : VersionPc) (v : TableVersion) : Prop :=
  ∃ c copiedAt, pc = .copied c copiedAt v ∨ pc = .edited c copiedAt v

/-- The flush thread holds no version that is out of date. -/
def UpToDate (s : VersionSystem) : Prop :=
  ∀ c copiedAt v, s.pc .flush = .copied c copiedAt v ∨ s.pc .flush = .edited c copiedAt v → copiedAt = s.installs

/-- What the flush thread holds, it holds until something is installed. -/
theorem FlushPc.frame {s s' : VersionSystem} {pc : VersionPc} (h : FlushPc s pc) (hd : s'.dataDir = s.dataDir)
    (hn : s.installs ≤ s'.installs) (hc : s'.installs = s.installs → s'.current = s.current) : FlushPc s' pc := by
  cases pc with
  | idle => trivial
  | planned plan kind => exact h
  | written c =>
      unfold FlushPc at h ⊢
      rwa [hd]
  | copied c copiedAt v =>
      obtain ⟨hadds, hle, hv⟩ := h
      refine ⟨hd ▸ hadds, hle.trans hn, ?_⟩
      intro heq
      have hsame : s'.installs = s.installs := by omega
      rw [hc hsame]
      exact hv (heq.trans hsame)
  | edited c copiedAt v =>
      obtain ⟨hadds, hle, hv⟩ := h
      refine ⟨hd ▸ hadds, hle.trans hn, ?_⟩
      intro heq
      have hsame : s'.installs = s.installs := by omega
      rw [hc hsame]
      exact hv (heq.trans hsame)

/-- The thread that takes a step. -/
def opThread : VersionOp → VersionThread
  | .flushWrite _ _ => .flush
  | .compactRead _ | .compactWrite _ => .compaction
  | .copy th | .edit th | .install th => th

/-- What a step of `th` does to where it is, to the version and to the count of the versions. -/
inductive Moves (s s' : VersionSystem) (th : VersionThread) : VersionOp → Prop where
  | flushWrite {snapshot maxSeq} (hth : th = .flush) (hcur : s'.current = s.current) (hn : s'.installs = s.installs)
      {c : Change} (hc : AddsOwn s.dataDir c) (hpc : s.pc .flush = .idle) (hpc' : s'.pc .flush = .written c) :
      Moves s s' th (.flushWrite snapshot maxSeq)
  | compactWrite {maxSeq} (hth : th = .compaction) (hcur : s'.current = s.current) (hn : s'.installs = s.installs)
      (plan : CompactionPlan) {c : Change} (hpc : s.pc .compaction = .planned plan c.kind)
      (hids : c.idsToRemove = plan.idsToRemove) (hlevel : c.newMeta.level = plan.targetLevel)
      (hpath : c.sst.path = sstablePath (sstableDir s.dataDir) c.newMeta.id) (hpc' : s'.pc .compaction = .written c) :
      Moves s s' th (.compactWrite maxSeq)
  | copy (hcur : s'.current = s.current) (hn : s'.installs = s.installs) {c : Change} (hpc : s.pc th = .written c)
      (hpc' : s'.pc th = .copied c s.installs s.current.copyFrom) : Moves s s' th (.copy th)
  | edit (hcur : s'.current = s.current) (hn : s'.installs = s.installs) {c : Change} {copiedAt : Nat} {v : TableVersion}
      (hpc : s.pc th = .copied c copiedAt v) (hpc' : s'.pc th = .edited c copiedAt (c.edit v)) : Moves s s' th (.edit th)
  | install {c : Change} {copiedAt : Nat} {v : TableVersion} (hcur : s'.current = v) (hn : s'.installs = s.installs + 1)
      (hpc : s.pc th = .edited c copiedAt v) (hpc' : s'.pc th = .idle) : Moves s s' th (.install th)

/-- The change that `write` leaves a thread with. -/
def writtenChange (s : VersionSystem) (data : SortedMap Bytes Entry) (maxSeq level : Nat) (idsToRemove : List Nat)
    (kind : EditKind) : Change :=
  let sst := SSTable.flush data (sstableDir s.dataDir) (s.flushCounter + 1)
  ⟨sst, sst.meta (s.flushCounter + 1) maxSeq level, idsToRemove, kind⟩

theorem write_pc (s : VersionSystem) (th : VersionThread) (data : SortedMap Bytes Entry) (maxSeq level : Nat)
    (idsToRemove : List Nat) (kind : EditKind) : (s.write th data maxSeq level idsToRemove kind).pc th =
      .written (s.writtenChange data maxSeq level idsToRemove kind) := Function.update_self ..

/-- A step moves one thread. -/
theorem moves_of_stepOn {s s' : VersionSystem} {op : VersionOp} (hs : s.stepOn op = some s') :
    Moves s s' (opThread op) op ∧ s'.dataDir = s.dataDir ∧ ∀ th ≠ opThread op, s'.pc th = s.pc th := by
  cases op with
  | flushWrite snapshot maxSeq =>
      have heff : StepEffect s s' (.flushWrite snapshot maxSeq) := step_effect hs
      obtain ⟨hpc, rfl⟩ := heff
      refine ⟨.flushWrite rfl ?_ ?_ ?_ hpc (write_pc s ..), rfl, fun th hth => Function.update_of_ne hth ..⟩
      · rfl
      · rfl
      · exact ⟨rfl, rfl, rfl⟩
  | compactRead level => exact absurd hs (by simp [stepOn])
  | compactWrite maxSeq =>
      have heff : StepEffect s s' (.compactWrite maxSeq) := step_effect hs
      obtain ⟨plan, kind, hpc, rfl⟩ := heff
      refine ⟨.compactWrite rfl ?_ ?_ plan ?_ ?_ ?_ ?_ (write_pc s ..), rfl, fun th hth => Function.update_of_ne hth ..⟩
      · rfl
      · rfl
      · exact hpc
      · rfl
      · rfl
      · rfl
  | copy th =>
      have heff : StepEffect s s' (.copy th) := step_effect hs
      obtain ⟨c, hpc, rfl⟩ := heff
      refine ⟨.copy ?_ ?_ hpc (Function.update_self ..), rfl, fun th' hth => Function.update_of_ne hth ..⟩
      · rfl
      · rfl
  | edit th =>
      have heff : StepEffect s s' (.edit th) := step_effect hs
      obtain ⟨c, copiedAt, v, hpc, rfl⟩ := heff
      refine ⟨.edit ?_ ?_ hpc (Function.update_self ..), rfl, fun th' hth => Function.update_of_ne hth ..⟩
      · rfl
      · rfl
  | install th =>
      have heff : StepEffect s s' (.install th) := step_effect hs
      obtain ⟨c, copiedAt, v, hpc, rfl⟩ := heff
      refine ⟨.install ?_ ?_ hpc (Function.update_self ..), rfl, fun th' hth => Function.update_of_ne hth ..⟩
      · rfl
      · rfl

/-- The current version changes by an install only. -/
theorem Moves.installs_le {s s' : VersionSystem} {th : VersionThread} {op : VersionOp} (h : Moves s s' th op) :
    s.installs ≤ s'.installs ∧ (s'.installs = s.installs → s'.current = s.current) := by
  cases h with
  | install hcur hn hpc hpc' => exact ⟨by omega, fun heq => by omega⟩
  | flushWrite hth hcur hn | compactWrite hth hcur hn | copy hcur hn | edit hcur hn =>
      exact ⟨hn.ge, fun _ => hcur⟩

theorem Moves.current_eq {s s' : VersionSystem} {th : VersionThread} {op : VersionOp} (h : Moves s s' th op)
    (hop : ∀ th, op ≠ .install th) : s'.current = s.current := by
  cases h with
  | install => exact absurd rfl (hop th)
  | flushWrite _ hcur | compactWrite _ hcur | copy hcur | edit hcur => exact hcur

/-- The flush thread keeps its invariant. -/
theorem FlushInv.stepOn {s s' : VersionSystem} (h : FlushInv s) {op : VersionOp} (hs : s.stepOn op = some s') :
    FlushInv s' := by
  obtain ⟨hmoves, hd, hother⟩ := moves_of_stepOn hs
  obtain ⟨hle, hsame⟩ := hmoves.installs_le
  unfold FlushInv at h ⊢
  by_cases hth : opThread op = .flush
  · rw [hth] at hmoves
    cases hmoves with
    | compactWrite hcompact => exact absurd hcompact (by decide)
    | flushWrite hflush hcur hn hc hpc hpc' =>
        rw [hpc']
        unfold FlushPc
        rwa [hd]
    | copy hcur hn hpc hpc' =>
        rw [hpc] at h
        rw [hpc']
        exact ⟨hd ▸ h, hn.ge, fun _ => by rw [hcur]⟩
    | edit hcur hn hpc hpc' =>
        rw [hpc] at h
        rw [hpc']
        obtain ⟨hadds, hat, hv⟩ := h
        exact ⟨hd ▸ hadds, hn ▸ hat, fun heq => by rw [hcur, hv (heq.trans hn)]⟩
    | install hcur hn hpc hpc' =>
        rw [hpc']
        trivial
  · rw [hother .flush (Ne.symm hth)]
    exact h.frame hd hle hsame

/-! ## C. The compaction

From its reading on it holds the plan, then its table, and then a copy of the version it found when it copied. -/

/-- The change of a compaction of level 0 with the inputs `ids`. -/
structure Removes (dataDir : Bytes) (ids : List Nat) (c : Change) : Prop where
  kind : c.kind = .L0toL1
  remove : c.idsToRemove = ids
  level : c.newMeta.level = 1
  path : c.sst.path = sstablePath (sstableDir dataDir) c.newMeta.id

theorem Removes.wf {dataDir : Bytes} {ids : List Nat} {c : Change} (h : Removes dataDir ids c) : c.Wf := by
  intro hk
  rw [h.kind] at hk
  exact absurd hk (by decide)

/-- The compaction's edit is its installation. -/
theorem Removes.edit_eq {dataDir : Bytes} {ids : List Nat} {c : Change} (h : Removes dataDir ids c) :
    c.edit v = v.installMerged ids c.sst c.newMeta := by
  unfold Change.edit
  rw [h.kind, h.remove]
  rfl

/-- Where the compaction is; `P` holds of the version it has copied. -/
def Underway (dataDir : Bytes) (ids : List Nat) (P : TableVersion → Prop) : VersionPc → Prop
  | .idle => False
  | .planned plan kind => kind = .L0toL1 ∧ plan.idsToRemove = ids ∧ plan.targetLevel = 1
  | .written c => Removes dataDir ids c
  | .copied c _ v => Removes dataDir ids c ∧ P v
  | .edited c _ v => Removes dataDir ids c ∧ ∃ v₀, v = c.edit v₀ ∧ P v₀

/-- Steps lead from one place to the next, the last one to the version without the inputs. -/
theorem Underway.stepOn {dataDir : Bytes} {ids : List Nat} {P : TableVersion → Prop} {s s' : VersionSystem}
    {op : VersionOp} (h : Underway dataDir ids P (s.pc .compaction)) (hdir : s.dataDir = dataDir)
    (hP : P s.current.copyFrom) (hs : s.stepOn op = some s') :
    Underway dataDir ids P (s'.pc .compaction) ∧ op ≠ .install .compaction ∨
      op = .install .compaction ∧ s'.pc .compaction = .idle ∧ s'.pc .flush = s.pc .flush ∧
        ∃ c copiedAt v₀, s.pc .compaction = .edited c copiedAt (c.edit v₀) ∧ Removes dataDir ids c ∧ P v₀ ∧
          s'.current = c.edit v₀ := by
  obtain ⟨hmoves, -, hother⟩ := moves_of_stepOn hs
  by_cases hth : opThread op = .compaction
  · rw [hth] at hmoves
    cases hmoves with
    | flushWrite hflush => exact absurd hflush (by decide)
    | compactWrite _ hcur hn plan hpc hids hlevel hpath hpc' =>
        rw [hpc] at h
        obtain ⟨hkind, hplan, htarget⟩ := h
        refine Or.inl ⟨?_, by simp⟩
        rw [hpc']
        exact ⟨hkind, hids.trans hplan, hlevel.trans htarget, hdir ▸ hpath⟩
    | copy hcur hn hpc hpc' =>
        rw [hpc] at h
        refine Or.inl ⟨?_, by simp⟩
        rw [hpc']
        exact ⟨h, hP⟩
    | edit hcur hn hpc hpc' =>
        rw [hpc] at h
        refine Or.inl ⟨?_, by simp⟩
        rw [hpc']
        exact ⟨h.1, _, rfl, h.2⟩
    | install hcur hn hpc hpc' =>
        rw [hpc] at h
        obtain ⟨hremoves, v₀, rfl, hv⟩ := h
        exact Or.inr ⟨rfl, hpc', hother .flush (by rw [hth]; decide), _, _, v₀, hpc, hremoves, hv, hcur⟩
  · refine Or.inl ⟨?_, ?_⟩
    · rw [hother .compaction (Ne.symm hth)]
      exact h
    · rintro rfl
      exact hth rfl

/-- Once the compaction has ended only the flush thread moves. -/
theorem flushMoves_of_idle {s s' : VersionSystem} {op : VersionOp} (hidle : s.pc .compaction = .idle)
    (hs : s.stepOn op = some s') : Moves s s' .flush op ∧ s'.pc .compaction = .idle := by
  obtain ⟨hmoves, -, hother⟩ := moves_of_stepOn hs
  cases hth : opThread op with
  | flush =>
      rw [hth] at hmoves
      exact ⟨hmoves, (hother .compaction (by rw [hth]; decide)).trans hidle⟩
  | compaction =>
      rw [hth] at hmoves
      cases hmoves with
      | flushWrite hflush => exact absurd hflush (by decide)
      | compactWrite _ _ _ plan hpc | copy _ _ hpc | edit _ _ hpc | install _ _ hpc =>
          rw [hidle] at hpc
          exact absurd hpc (by simp)

/-! ## D. Where the inputs go

The compaction's installation puts them out whatever the flush thread has done so far, and its later installations
bring them back only from an older copy. -/

/-- An input that can be told from every other table. -/
def Removable (dataDir : Bytes) (v : TableVersion) : Prop :=
  ∀ m ∈ inputMetas v, (v.findSSTableById m.id).isSome ∧ ¬ idPattern m.id <:+: dataDir

/-- With a put to write, the compaction sets out to remove its inputs. -/
theorem underway_of_put {s u : VersionSystem} (P : TableVersion → Prop) (hidle : s.pc .compaction = .idle)
    (hne : s.current.level 0 ≠ []) (hseq : DistinctSeqs s.current) (hput : SomePutLeft s.current) (hread : s.step (.compactRead 0) = some u) :
    ∃ plan, u = s.setPc .compaction (.planned plan .L0toL1) ∧
      Underway s.dataDir (inputIds s.current) P (u.pc .compaction) := by
  obtain ⟨plan, hplan, hids, htarget⟩ := exists_planL0toL1 hne hseq hput
  have hu : u = s.setPc .compaction (.planned plan .L0toL1) := by
    simp only [step, hidle, if_pos, hplan] at hread
    exact (Option.some.inj hread).symm
  refine ⟨plan, hu, ?_⟩
  rw [hu]
  show Underway _ _ _ (Function.update s.pc .compaction _ .compaction)
  rw [Function.update_self]
  exact ⟨rfl, hids, htarget⟩

/-- Without one it gives up. -/
theorem eq_of_no_put {s u : VersionSystem} (hne : s.current.level 0 ≠ []) (hseq : DistinctSeqs s.current)
    (hnone : ¬ SomePutLeft s.current) (hread : s.step (.compactRead 0) = some u) : u = s := by
  obtain ⟨-, rfl | ⟨plan, hp, -⟩⟩ := step_effect hread
  · rfl
  · rw [if_pos rfl, planL0toL1_eq_none hne hseq hnone] at hp
    exact absurd hp (by simp)

/-- The state of a run in which the inputs stay out. -/
structure Removing (dataDir : Bytes) (v : TableVersion) (s : VersionSystem) : Prop where
  flush : FlushInv s
  dir : s.dataDir = dataDir
  inputs : Underway dataDir (inputIds v) (fun _ => True) (s.pc .compaction) ∨
    s.pc .compaction = .idle ∧ ∀ m ∈ inputMetas v, Gone s.current m.id

/-- As long as the flush thread installs no older copy, the inputs go and stay out. -/
theorem Removing.stepOn {dataDir : Bytes} {s s' : VersionSystem} (h : Removing dataDir v s) (hall : Removable dataDir v)
    {op : VersionOp} (hkeeps : KeepsOut v s op) (hs : s.stepOn op = some s') : Removing dataDir v s' := by
  obtain ⟨-, hdir, -⟩ := moves_of_stepOn hs
  refine ⟨h.flush.stepOn hs, hdir.trans h.dir, ?_⟩
  rcases h.inputs with hunder | ⟨hidle, hgone⟩
  · rcases hunder.stepOn h.dir trivial hs with ⟨hunder, -⟩ | ⟨rfl, hidle, -, c, copiedAt, v₀, hpc, hc, -, hcur⟩
    · exact Or.inl hunder
    · refine Or.inr ⟨hidle, ?_⟩
      intro m hm
      rw [hcur, hc.edit_eq, gone_installMerged_iff hc.path (mem_inputIds.mpr ⟨m, hm, rfl, (hall m hm).1⟩)]
      exact ⟨hkeeps c copiedAt _ hpc m hm, (hall m hm).2⟩
  · obtain ⟨hmoves, hidle'⟩ := flushMoves_of_idle hidle hs
    refine Or.inr ⟨hidle', ?_⟩
    cases hmoves with
    | compactWrite hcompact => exact absurd hcompact (by decide)
    | flushWrite _ hcur | copy hcur | edit hcur =>
        rw [hcur]
        exact hgone
    | @install c copiedAt w hcur hn hpc hpc' =>
        obtain ⟨hfresh, hids⟩ := hkeeps hidle c copiedAt w hpc
        have hflush := h.flush
        unfold FlushInv at hflush
        rw [hpc] at hflush
        obtain ⟨hadds, -, hw⟩ := hflush
        intro m hm
        rw [hcur, hw hfresh, hadds.gone_edit_iff]
        exact ⟨hgone m hm, hids m hm, h.dir ▸ (hall m hm).2⟩

/-- The state of a run without a flush: until the compaction has ended the version is the one it has read. -/
def Undisturbed (dataDir : Bytes) (v : TableVersion) (s : VersionSystem) : Prop :=
  s.dataDir = dataDir ∧ (s.current = v ∧ Underway dataDir (inputIds v) (· = v.copyFrom) (s.pc .compaction) ∨
    s.pc .compaction = .idle ∧ s.current.level 0 = [])

/-- And without any install of the flush thread they go in any case. -/
theorem Undisturbed.stepOn {dataDir : Bytes} {s s' : VersionSystem} (h : Undisturbed dataDir v s)
    (hall : Removable dataDir v) {op : VersionOp} (hop : op ≠ .install .flush) (hs : s.stepOn op = some s') :
    Undisturbed dataDir v s' := by
  obtain ⟨hmoves, hdir, -⟩ := moves_of_stepOn hs
  obtain ⟨hd, h⟩ := h
  refine ⟨hdir.trans hd, ?_⟩
  rcases h with ⟨hcur, hunder⟩ | ⟨hidle, hempty⟩
  · rcases hunder.stepOn hd (by rw [hcur]) hs with ⟨hunder, hnot⟩ | ⟨-, hidle, -, c, copiedAt, v₀, -, hc, rfl, hcur'⟩
    · refine Or.inl ⟨?_, hunder⟩
      rw [← hcur]
      apply hmoves.current_eq
      rintro (_ | _) rfl
      · exact hop rfl
      · exact hnot rfl
    · refine Or.inr ⟨hidle, ?_⟩
      rw [hcur', hc.edit_eq, level_installMerged, if_neg (by rw [hc.level]; decide), List.filter_eq_nil_iff]
      intro m hm
      have hin := mem_inputMetas_of_level (v := v) hm
      have hmem := mem_inputIds.mpr ⟨m, hin, rfl, (hall m hin).1⟩
      simpa using hmem
  · obtain ⟨hmoves, hidle'⟩ := flushMoves_of_idle hidle hs
    refine Or.inr ⟨hidle', ?_⟩
    cases hmoves with
    | compactWrite hcompact => exact absurd hcompact (by decide)
    | flushWrite _ hcur | copy hcur | edit hcur =>
        rw [hcur]
        exact hempty
    | install => exact absurd rfl hop

/-! ## E. Where the inputs come back

A version in which an input is stays one under all that the flush thread does. So it is enough to find, in a run that
violates the condition, one step after which the flush thread has nothing but such versions. -/

/-- A version has all files of another. -/
def Contains (v w : TableVersion) : Prop := ∀ m ∈ v.metas, m ∈ w.metas

/-- The flush thread turns versions with a property into versions with this property, if its edit does. -/
theorem flush_keeps {Q : TableVersion → Prop} {s s' : VersionSystem} {op : VersionOp} (hf : FlushInv s)
    (hcopy : ∀ w, Q w → Q w.copyFrom) (hedit : ∀ c w, AddsOwn s.dataDir c → Q w → Q (c.edit w))
    (hcur : Q s.current) (hheld : ∀ w, InHand (s.pc .flush) w → Q w) (hmoves : Moves s s' .flush op) :
    Q s'.current ∧ ∀ w, InHand (s'.pc .flush) w → Q w := by
  unfold FlushInv at hf
  cases hmoves with
  | compactWrite hcompact => exact absurd hcompact (by decide)
  | flushWrite _ hsame _ _ _ hpc' =>
      rw [hsame, hpc']
      exact ⟨hcur, by rintro w ⟨c, n, h | h⟩ <;> cases h⟩
  | copy hsame _ _ hpc' =>
      rw [hsame, hpc']
      refine ⟨hcur, ?_⟩
      rintro w ⟨c, n, h | h⟩
      · cases h
        exact hcopy _ hcur
      · cases h
  | edit hsame _ hpc hpc' =>
      rw [hpc] at hf
      rw [hsame, hpc']
      refine ⟨hcur, ?_⟩
      rintro w ⟨c, n, h | h⟩
      · cases h
      · cases h
        exact hedit _ _ hf.1 (hheld _ ⟨_, _, Or.inl hpc⟩)
  | install hnew _ hpc hpc' =>
      rw [hnew, hpc']
      exact ⟨hheld _ ⟨_, _, Or.inr hpc⟩, by rintro w ⟨c, n, h | h⟩ <;> cases h⟩

/-- A flush loses none of the files. -/
theorem Contains.edit {w : TableVersion} (h : Contains v w) {dataDir : Bytes} {c : Change} (hc : AddsOwn dataDir c) :
    Contains v (c.edit w) := by
  intro m hm
  refine (c.mem_metas_edit hc.wf).mpr (Or.inl ⟨h m hm, ?_⟩)
  rw [hc.remove]
  exact List.not_mem_nil

/-- The state before the compaction's installation: nothing has been removed. -/
structure Before (dataDir : Bytes) (v : TableVersion) (s : VersionSystem) : Prop where
  flush : FlushInv s
  dir : s.dataDir = dataDir
  under : Underway dataDir (inputIds v) (Contains v) (s.pc .compaction)
  current : Contains v s.current
  held : ∀ w, InHand (s.pc .flush) w → Contains v w

/-- The state after it: an old copy of the flush thread has all the inputs. -/
structure After (v : TableVersion) (s : VersionSystem) : Prop where
  flush : FlushInv s
  idle : s.pc .compaction = .idle
  held : ∀ c copiedAt w, s.pc .flush = .copied c copiedAt w ∨ s.pc .flush = .edited c copiedAt w →
    copiedAt = s.installs ∨ Contains v w

/-- An input is there, and in all that the flush thread may install. -/
structure Back (v : TableVersion) (s : VersionSystem) : Prop where
  flush : FlushInv s
  idle : s.pc .compaction = .idle
  input : ∃ m ∈ inputMetas v, ¬ Gone s.current m.id ∧ ∀ w, InHand (s.pc .flush) w → ¬ Gone w m.id

/-- Inputs that are back stay back, -/
theorem Back.stepOn {s s' : VersionSystem} (h : Back v s) {op : VersionOp} (hs : s.stepOn op = some s') : Back v s' := by
  obtain ⟨hmoves, hidle⟩ := flushMoves_of_idle h.idle hs
  obtain ⟨m, hm, hcur, hheld⟩ := h.input
  refine ⟨h.flush.stepOn hs, hidle, m, hm, ?_⟩
  exact flush_keeps (Q := fun w => ¬ Gone w m.id) h.flush (fun w hw => hw)
    (fun c w hc hw hgone => hw (hc.gone_edit_iff.mp hgone).1) hcur hheld hmoves

theorem not_gone_of_mem {w : TableVersion} {m : SSTableMeta} {id : Nat} (hm : m ∈ w.metas) (hid : m.id = id) :
    ¬ Gone w id := fun h => h.1 m hm hid

/-- A compaction that gives up leaves everything where it is. -/
theorem Back.of_contains {s : VersionSystem} (hne : v.level 0 ≠ []) (hf : FlushInv s) (hidle : s.pc .compaction = .idle)
    (hcur : Contains v s.current) (hheld : ∀ w, InHand (s.pc .flush) w → Contains v w) : Back v s := by
  obtain ⟨m, hm⟩ := List.exists_mem_of_ne_nil _ hne
  have hmeta := mem_metas_of_level hm
  exact ⟨hf, hidle, m, mem_inputMetas_of_level hm, not_gone_of_mem (hcur m hmeta) rfl,
    fun w hw => not_gone_of_mem (hheld w hw m hmeta) rfl⟩

/-- also behind the compaction's own end. -/
theorem After.stepOn {s s' : VersionSystem} (h : After v s) {op : VersionOp} (hs : s.stepOn op = some s') :
    After v s' := by
  obtain ⟨hmoves, hidle⟩ := flushMoves_of_idle h.idle hs
  refine ⟨h.flush.stepOn hs, hidle, ?_⟩
  cases hmoves with
  | compactWrite hcompact => exact absurd hcompact (by decide)
  | flushWrite _ hsame _ _ _ hpc' =>
      rw [hpc']
      rintro c n w (h | h) <;> cases h
  | copy hsame hn _ hpc' =>
      rw [hpc', hn]
      rintro c n w (h | h)
      · cases h
        exact Or.inl rfl
      · cases h
  | edit hsame hn hpc hpc' =>
      rw [hpc', hn]
      rintro c n w (heq | heq)
      · cases heq
      · cases heq
        have hf := h.flush
        unfold FlushInv at hf
        rw [hpc] at hf
        exact (h.held _ _ _ (Or.inl hpc)).imp_right fun hc => hc.edit hf.1
  | install hnew _ hpc hpc' =>
      rw [hpc']
      rintro c n w (h | h) <;> cases h

/-- The step out of `Before` is the compaction's installation. -/
theorem Before.stepOn {dataDir : Bytes} {s s' : VersionSystem} (h : Before dataDir v s) {op : VersionOp}
    (hs : s.stepOn op = some s') :
    Before dataDir v s' ∧ op ≠ .install .compaction ∨ op = .install .compaction ∧ FlushInv s' ∧
      s'.pc .compaction = .idle ∧ (∀ w, InHand (s'.pc .flush) w → Contains v w) ∧
      ∃ c copiedAt v₀, s.pc .compaction = .edited c copiedAt (c.edit v₀) ∧ Removes dataDir (inputIds v) c ∧
        Contains v v₀ ∧ s'.current = c.edit v₀ := by
  obtain ⟨hmoves, hdir, hother⟩ := moves_of_stepOn hs
  have hf := h.flush.stepOn hs
  rcases h.under.stepOn h.dir h.current hs with ⟨hunder, hnot⟩ | ⟨rfl, hidle, hpc, hrest⟩
  · refine Or.inl ⟨?_, hnot⟩
    cases hth : opThread op with
    | flush =>
        rw [hth] at hmoves
        obtain ⟨hcur, hheld⟩ := flush_keeps (Q := Contains v) h.flush (fun w hw => hw) (fun c w hc hw => hw.edit hc)
          h.current h.held hmoves
        exact ⟨hf, hdir.trans h.dir, hunder, hcur, hheld⟩
    | compaction =>
        have hsame : s'.current = s.current := by
          apply hmoves.current_eq
          rintro (_ | _) rfl
          · exact absurd hth (by decide)
          · exact hnot rfl
        refine ⟨hf, hdir.trans h.dir, hunder, ?_, ?_⟩
        · rw [hsame]
          exact h.current
        · rw [hother .flush (by rw [hth]; decide)]
          exact h.held
  · refine Or.inr ⟨rfl, hf, hidle, ?_, hrest⟩
    rw [hpc]
    exact h.held

/-- An input that cannot be removed is back at once. -/
theorem Before.back_of_not_removable {dataDir : Bytes} {s s' : VersionSystem} (h : Before dataDir v s)
    (hbad : ¬ Removable dataDir v) {op : VersionOp} (hs : s.stepOn op = some s') :
    Before dataDir v s' ∨ Back v s' := by
  rcases h.stepOn hs with ⟨hbefore, -⟩ | ⟨-, hf, hidle, hheld, c, copiedAt, v₀, -, hc, hv₀, hcur⟩
  · exact Or.inl hbefore
  · obtain ⟨m, hm, hno⟩ : ∃ m ∈ inputMetas v, ¬ ((v.findSSTableById m.id).isSome ∧ ¬ idPattern m.id <:+: dataDir) := by
      simpa [Removable] using hbad
    have hmeta := mem_metas_of_mem_inputMetas hm
    refine Or.inr ⟨hf, hidle, m, hm, ?_, fun w hw => not_gone_of_mem (hheld w hw m hmeta) rfl⟩
    rw [hcur]
    by_cases hsome : (v.findSSTableById m.id).isSome
    · rw [hc.edit_eq, gone_installMerged_iff hc.path (mem_inputIds.mpr ⟨m, hm, rfl, hsome⟩)]
      exact fun hgone => hno ⟨hsome, hgone.2⟩
    · -- metadata without a table is not among the ids that are removed
      refine not_gone_of_mem ((c.mem_metas_edit hc.wf).mpr (Or.inl ⟨hv₀ m hmeta, ?_⟩)) rfl
      rw [hc.remove, mem_inputIds]
      rintro ⟨-, -, -, hfound⟩
      exact hsome hfound

/-- A violation of the condition brings an input back. -/
theorem back_of_not_keepsOut {dataDir : Bytes} {s s' : VersionSystem} (hne : v.level 0 ≠ [])
    (h : Before dataDir v s ∨ After v s) {op : VersionOp} (hs : s.stepOn op = some s') (hviolates : ¬ KeepsOut v s op) :
    Back v s' := by
  rcases h with h | h
  · rcases h.stepOn hs with ⟨-, hnot⟩ | ⟨rfl, hf, hidle, hheld, c, copiedAt, v₀, hpc, hc, hv₀, hcur⟩
    · -- no other step can violate it before the compaction's installation
      exfalso
      apply hviolates
      cases op with
      | install th =>
          cases th with
          | compaction => exact absurd rfl hnot
          | flush =>
              intro hidle
              have hunder := h.under
              rw [hidle] at hunder
              exact hunder.elim
      | flushWrite | compactRead | compactWrite | copy | edit => trivial
    · unfold KeepsOut at hviolates
      push Not at hviolates
      obtain ⟨c', n, w, hpc', m, hm, hid⟩ := hviolates
      obtain ⟨rfl, -, -⟩ := VersionPc.edited.inj (hpc.symm.trans hpc')
      have hmeta := mem_metas_of_mem_inputMetas hm
      refine ⟨hf, hidle, m, hm, ?_, fun w hw => not_gone_of_mem (hheld w hw m hmeta) rfl⟩
      rw [hcur]
      exact not_gone_of_mem ((c.mem_metas_edit hc.wf).mpr (Or.inr rfl)) hid.symm
  · obtain ⟨hmoves, hidle⟩ := flushMoves_of_idle h.idle hs
    cases hmoves with
    | compactWrite hcompact => exact absurd hcompact (by decide)
    | flushWrite | copy | edit => exact absurd trivial hviolates
    | @install c n w hnew hn hpc hpc' =>
        have hnone : ∀ w', ¬ InHand (s'.pc .flush) w' := by
          rw [hpc']
          rintro w' ⟨c, n, h | h⟩ <;> cases h
        have hf := h.flush.stepOn hs
        rcases h.held c n w (Or.inr hpc) with hfresh | hold
        · -- a fresh copy, but the table has an input's id
          have hadds := h.flush
          unfold FlushInv at hadds
          rw [hpc] at hadds
          obtain ⟨hadds, -, hw⟩ := hadds
          obtain ⟨m, hm, hid⟩ : ∃ m ∈ inputMetas v, m.id = c.newMeta.id := by
            by_contra hnot
            push Not at hnot
            apply hviolates
            intro _ c' n' w' hpc''
            obtain ⟨rfl, rfl, -⟩ := VersionPc.edited.inj (hpc.symm.trans hpc'')
            exact ⟨hfresh, hnot⟩
          refine ⟨hf, hidle, m, hm, ?_, fun w' hw' => absurd hw' (hnone w')⟩
          rw [hnew, hw hfresh]
          exact not_gone_of_mem ((c.mem_metas_edit hadds.wf).mpr (Or.inr rfl)) hid.symm
        · exact Back.of_contains hne hf hidle (hnew ▸ hold) fun w' hw' => absurd hw' (hnone w')

/-! ## F. Progress

A compaction that gives up leaves level 0 as it was, and one that goes on installs a version without the inputs that
the condition lets it remove. -/

theorem contains_of_inHand {s : VersionSystem} (hf : FlushInv s) (hup : UpToDate s) {w : TableVersion}
    (hw : InHand (s.pc .flush) w) : Contains s.current w := by
  have hself : Contains s.current s.current.copyFrom := fun m hm => hm
  unfold FlushInv at hf
  obtain ⟨c, n, hpc | hpc⟩ := hw
  · rw [hpc] at hf
    obtain ⟨-, -, hcopy⟩ := hf
    rw [hcopy (hup c n w (Or.inl hpc))]
    exact hself
  · rw [hpc] at hf
    obtain ⟨hadds, -, hedit⟩ := hf
    rw [hedit (hup c n w (Or.inr hpc))]
    exact hself.edit hadds

/-- What puts the inputs out, and keeps them out. -/
theorem progress_of_keepsOut {s u t : VersionSystem} {ops : List VersionOp} (hidle : s.pc .compaction = .idle)
    (hflush : FlushInv s) (hne : s.current.level 0 ≠ []) (hseq : DistinctSeqs s.current) (hput : SomePutLeft s.current)
    (hall : Removable s.dataDir s.current) (hread : s.step (.compactRead 0) = some u) (hrun : exec stepOn u ops = some t)
    (hmeets : Meets stepOn (KeepsOut s.current) u ops) (hdone : t.pc .compaction = .idle) :
    Progress s.current ops t := by
  have hstart : ∀ P, ∃ plan, u = s.setPc .compaction (.planned plan .L0toL1) ∧
      Underway s.dataDir (inputIds s.current) P (u.pc .compaction) :=
    fun P => underway_of_put P hidle hne hseq hput hread
  refine ⟨?_, ?_⟩
  · obtain ⟨plan, rfl, hunder⟩ := hstart fun _ => True
    have hbegin : Removing s.dataDir s.current (s.setPc .compaction (.planned plan .L0toL1)) :=
      ⟨hflush.frame rfl (Nat.le_refl _) (fun _ => rfl), rfl, Or.inl hunder⟩
    have hend := exec_invariant_of_meets hbegin (fun _ _ _ h hkeeps hs => h.stepOn hall hkeeps hs) hmeets hrun
    rcases hend.inputs with hunder | ⟨-, hgone⟩
    · rw [hdone] at hunder
      exact hunder.elim
    · exact hgone
  · intro hnoFlush
    obtain ⟨plan, rfl, hunder⟩ := hstart (· = s.current.copyFrom)
    have hbegin : Undisturbed s.dataDir s.current (s.setPc .compaction (.planned plan .L0toL1)) :=
      ⟨rfl, Or.inl ⟨rfl, hunder⟩⟩
    have hquiet : ∀ op ∈ ops, ∀ _ : VersionSystem, op ≠ .install .flush := by
      rintro op hop - rfl
      exact hnoFlush hop
    have hend := exec_invariant_of_meets (C := fun _ op => op ≠ VersionOp.install .flush) hbegin
      (fun _ _ _ h hop hs => h.stepOn hall hop hs) (meets_of_forall hquiet _) hrun
    rcases hend.2 with ⟨-, hunder⟩ | ⟨-, hempty⟩
    · rw [hdone] at hunder
      exact hunder.elim
    · unfold shouldCompactUnlocked
      rw [hempty]
      rfl

/-- What has to be the case where the inputs are out in the end. -/
theorem keepsOut_of_progress {s u t : VersionSystem} {ops : List VersionOp} (hidle : s.pc .compaction = .idle)
    (hflush : FlushInv s) (hup : UpToDate s) (hne : s.current.level 0 ≠ []) (hseq : DistinctSeqs s.current)
    (hread : s.step (.compactRead 0) = some u) (hrun : exec stepOn u ops = some t)
    (hdone : t.pc .compaction = .idle) (h : Progress s.current ops t) :
    SomePutLeft s.current ∧ Removable s.dataDir s.current ∧ Meets stepOn (KeepsOut s.current) u ops := by
  have hnotBack : ¬ Back s.current t := by
    rintro ⟨-, -, m, hm, hstays, -⟩
    exact hstays (h.1 m hm)
  have hself : Contains s.current s.current := fun m hm => hm
  have hput : SomePutLeft s.current := by
    by_contra hnone
    obtain rfl := eq_of_no_put hne hseq hnone hread
    have hback := Back.of_contains hne hflush hidle hself fun w hw => contains_of_inHand hflush hup hw
    exact hnotBack (exec_invariant hback (fun _ _ _ h hs => h.stepOn hs) hrun)
  obtain ⟨plan, rfl, hunder⟩ := underway_of_put (Contains s.current) hidle hne hseq hput hread
  have hbegin : Before s.dataDir s.current (s.setPc .compaction (.planned plan .L0toL1)) :=
    ⟨hflush.frame rfl (Nat.le_refl _) (fun _ => rfl), rfl, hunder, hself, fun w hw => contains_of_inHand hflush hup hw⟩
  refine ⟨hput, ?_, ?_⟩
  · by_contra hbad
    have hend := exec_invariant (I := fun s' => Before s.dataDir s.current s' ∨ Back s.current s') (Or.inl hbegin)
      (fun _ _ _ h hs => h.elim (fun h => h.back_of_not_removable hbad hs) (fun h => Or.inr (h.stepOn hs))) hrun
    rcases hend with hbefore | hback
    · have hunder := hbefore.under
      rw [hdone] at hunder
      exact hunder.elim
    · exact hnotBack hback
  · refine meets_of_trap (I := fun s' => Before s.dataDir s.current s' ∨ After s.current s') (T := Back s.current)
      (Or.inl hbegin) ?_ (fun _ _ _ h hs hC => back_of_not_keepsOut hne h hs hC) (fun _ _ _ _ h hs => h.stepOn hs)
      hrun hnotBack
    rintro s₁ op s₂ (h | h) hs
    · rcases h.stepOn hs with ⟨hbefore, -⟩ | ⟨-, hf, hidle, hheld, -⟩
      · exact Or.inl hbefore
      · exact Or.inr ⟨hf, hidle, fun c n w hpc => Or.inr (hheld w ⟨c, n, hpc⟩)⟩
    · exact Or.inr (h.stepOn hs)

/-- **A compaction of level 0 makes progress** if it finds a put that nothing newer of its inputs covers, every input
    has its table and a name of its own, no table installed meanwhile takes an input's id, and the flush thread installs
    no version after the compaction that it copied before. Where the flush thread holds no outdated copy when the
    compaction begins, it makes progress only then. -/
theorem progress_iff {s u t : VersionSystem} {ops : List VersionOp} (hidle : s.pc .compaction = .idle)
    (hflush : FlushInv s) (h : 4 ≤ (s.current.level 0).length) (hseq : DistinctSeqs s.current)
    (hread : s.step (.compactRead 0) = some u) (hrun : exec stepOn u ops = some t) (hdone : t.pc .compaction = .idle) :
    (SomePutLeft s.current ∧ Removable s.dataDir s.current ∧ Meets stepOn (KeepsOut s.current) u ops →
      Progress s.current ops t) ∧
    (UpToDate s → (Progress s.current ops t ↔
      SomePutLeft s.current ∧ Removable s.dataDir s.current ∧ Meets stepOn (KeepsOut s.current) u ops)) := by
  have hne : s.current.level 0 ≠ [] := by
    intro hnil
    rw [hnil] at h
    exact absurd h (by decide)
  have hif : SomePutLeft s.current ∧ Removable s.dataDir s.current ∧ Meets stepOn (KeepsOut s.current) u ops →
      Progress s.current ops t := by
    rintro ⟨hput, hall, hmeets⟩
    exact progress_of_keepsOut hidle hflush hne hseq hput hall hread hrun hmeets hdone
  exact ⟨hif, fun hup => ⟨keepsOut_of_progress hidle hflush hup hne hseq hread hrun hdone, hif⟩⟩

/-! ## G. Versions that an engine reaches

In an engine's own versions most of the condition holds anyway; without a flush thread beside it, what decides is
whether the merge leaves anything. -/

/-- A compaction with nothing beside it, from its plan on. -/
def aloneOps (maxSeq : Nat) : List VersionOp :=
  [.compactWrite maxSeq, .copy .compaction, .edit .compaction, .install .compaction]

/-- A compaction with nothing beside it. -/
theorem exec_aloneOps (s : VersionSystem) (plan : CompactionPlan) (maxSeq : Nat) :
    let u := s.setPc .compaction (.planned plan .L0toL1)
    let c := s.writtenChange plan.mergedData maxSeq plan.targetLevel plan.idsToRemove .L0toL1
    ∃ t, exec stepOn u (aloneOps maxSeq) = some t ∧ t.pc .compaction = .idle ∧ t.current = c.edit s.current.copyFrom := by
  exact ⟨_, rfl, rfl, rfl⟩

/-- Every run from the empty store keeps the flush thread's part of the state. -/
theorem flushInv_of_exec {dataDir : Bytes} {ops : List VersionOp} {s : VersionSystem}
    (h : exec step (init dataDir) ops = some s) : FlushInv s := by
  have hinit : FlushInv (init dataDir) := trivial
  refine exec_invariant hinit ?_ h
  intro s op s' hf hs
  cases op with
  | compactRead level =>
      obtain ⟨-, rfl | ⟨plan, -, rfl⟩⟩ := step_effect hs
      · exact hf
      · exact hf.frame rfl (Nat.le_refl _) fun _ => rfl
  | flushWrite snapshot maxSeq =>
      have hs : s.stepOn (.flushWrite snapshot maxSeq) = some s' := hs
      exact hf.stepOn hs
  | compactWrite maxSeq =>
      have hs : s.stepOn (.compactWrite maxSeq) = some s' := hs
      exact hf.stepOn hs
  | copy th =>
      have hs : s.stepOn (.copy th) = some s' := hs
      exact hf.stepOn hs
  | edit th =>
      have hs : s.stepOn (.edit th) = some s' := hs
      exact hf.stepOn hs
  | install th =>
      have hs : s.stepOn (.install th) = some s' := hs
      exact hf.stepOn hs

/-- In a reachable engine, with nothing beside the compaction, it is the put alone that decides. -/
theorem gone_compactL0toL1_iff {dataDir : Bytes} (hdir : ExactIds dataDir) {cacheSize : Nat} {ops : List EngineOp}
    {e : StorageEngine} (h : exec StorageEngine.step (StorageEngine.init dataDir cacheSize) ops = some e)
    (hne : e.version.level 0 ≠ []) :
    (∀ m ∈ inputMetas e.version, Gone e.compactL0toL1.version m.id) ↔ SomePutLeft e.version := by
  obtain ⟨hinv, rfl⟩ := StorageEngine.inv_of_exec hdir h
  have hseq := distinctSeqs_of_aged hinv.toOrdered.version_aged
  constructor
  · intro hgone
    by_contra hnone
    obtain ⟨m, hm⟩ := List.exists_mem_of_ne_nil _ hne
    unfold StorageEngine.compactL0toL1 at hgone
    rw [planL0toL1_eq_none hne hseq hnone] at hgone
    exact (hgone m (mem_inputMetas_of_level hm)).1 m (mem_metas_of_level hm) rfl
  · intro hput m hm
    obtain ⟨plan, hplan, hids, htarget⟩ := exists_planL0toL1 hne hseq hput
    obtain ⟨t, ht, hdone, hcur⟩ := exec_aloneOps (ofEngine e) plan (e.seqNumber - 1)
    have hversion : e.compactL0toL1.version = t.current := by
      rw [hcur]
      unfold StorageEngine.compactL0toL1
      rw [hplan]
      rfl
    have hmeta := mem_metas_of_mem_inputMetas hm
    obtain ⟨sst, hsst⟩ := hinv.wf.findSSTableById_isSome hdir hmeta
    have hle := hinv.wf.ids_le m hmeta
    have hc : Removes e.dataDir (inputIds e.version) ((ofEngine e).writtenChange plan.mergedData (e.seqNumber - 1)
        plan.targetLevel plan.idsToRemove .L0toL1) := ⟨rfl, hids, htarget, rfl⟩
    rw [hversion, hcur, hc.edit_eq, gone_installMerged_iff hc.path (mem_inputIds.mpr ⟨m, hm, rfl, by rw [hsst]; rfl⟩)]
    refine ⟨?_, hdir m.id⟩
    show m.id ≠ e.flushCounter + 1
    omega

/-- Four flushes: two puts, a tombstone for one of them, and another put. -/
def fourFlushes : List EngineOp :=
  [.put (Bytes.ascii "a") (Bytes.ascii "1"), .checkFlush true, .flushInstall,
    .put (Bytes.ascii "b") (Bytes.ascii "2"), .checkFlush true, .flushInstall,
    .del (Bytes.ascii "a"), .checkFlush true, .flushInstall,
    .put (Bytes.ascii "c") (Bytes.ascii "3"), .checkFlush true, .flushInstall]

/-- A compaction with a fifth flush beside it, which writes its table before the compaction and copies after it. -/
def compactedBesideFlush : List VersionOp :=
  [VersionOp.flushWrite (SortedMap.empty.insert (Bytes.ascii "d") ⟨Bytes.ascii "4", 5, .put⟩) 5] ++ aloneOps 5 ++
    [VersionOp.copy .flush, VersionOp.edit .flush, VersionOp.install .flush]

omit [Platform] in
theorem progress_iff_fourFlushes : letI := Platform.sample
    ∃ e u t, exec StorageEngine.step (StorageEngine.init (Bytes.ascii "data") 0) fourFlushes = some e ∧
      (ofEngine e).step (.compactRead 0) = some u ∧ exec stepOn u compactedBesideFlush = some t ∧
      (SomePutLeft e.version ∧ Removable e.dataDir e.version ∧
          Meets stepOn (KeepsOut e.version) u compactedBesideFlush → Progress e.version compactedBesideFlush t) ∧
      (UpToDate (ofEngine e) → (Progress e.version compactedBesideFlush t ↔ SomePutLeft e.version ∧
        Removable e.dataDir e.version ∧ Meets stepOn (KeepsOut e.version) u compactedBesideFlush)) := by
  let := Platform.sample
  have hrun : (exec StorageEngine.step (StorageEngine.init (Bytes.ascii "data") 0) fourFlushes).map
      (fun e => ((e.version.level 0).length, ((ofEngine e).step (.compactRead 0)).map
        fun u => (exec stepOn u compactedBesideFlush).map fun t => (t.pc .compaction).isIdle)) =
      some (4, some (some true)) := by
    decide +kernel
  obtain ⟨e, he, hrest⟩ := Option.map_eq_some_iff.mp hrun
  obtain ⟨hlevel, hrest⟩ := Prod.mk.inj hrest
  obtain ⟨u, hu, hrest⟩ := Option.map_eq_some_iff.mp hrest
  obtain ⟨t, ht, hidle⟩ := Option.map_eq_some_iff.mp hrest
  have hdone : t.pc .compaction = .idle := by
    revert hidle
    cases t.pc .compaction <;> simp [VersionPc.isIdle]
  obtain ⟨hinv, -⟩ := StorageEngine.inv_of_exec exactIds_data he
  have hflush : FlushInv (ofEngine e) := trivial
  exact ⟨e, u, t, he, hu, ht, progress_iff (s := ofEngine e) rfl hflush hlevel.ge
    (distinctSeqs_of_aged hinv.toOrdered.version_aged) hu ht hdone⟩

/-- Four flushes of tombstones. -/
def fourTombstones : List EngineOp :=
  [.del (Bytes.ascii "a"), .checkFlush true, .flushInstall, .del (Bytes.ascii "b"), .checkFlush true, .flushInstall,
    .del (Bytes.ascii "a"), .checkFlush true, .flushInstall, .del (Bytes.ascii "c"), .checkFlush true, .flushInstall]

omit [Platform] in
/-- After them level 0 needs a compaction, gets one, and needs one as before. -/
theorem fourTombstones_stay : letI := Platform.sample
    ∃ e t, exec StorageEngine.step (StorageEngine.init (Bytes.ascii "data") 0) fourTombstones = some e ∧
      4 ≤ (e.version.level 0).length ∧ (ofEngine e).step (.compactRead 0) = some t ∧ ¬ Progress e.version [] t := by
  let := Platform.sample
  have hrun : (exec StorageEngine.step (StorageEngine.init (Bytes.ascii "data") 0) fourTombstones).map
      (fun e => ((e.version.level 0).length, ((ofEngine e).step (.compactRead 0)).map
        fun t => shouldCompactUnlocked 0 t.current)) = some (4, some true) := by
    decide +kernel
  obtain ⟨e, he, hrest⟩ := Option.map_eq_some_iff.mp hrun
  obtain ⟨hlevel, hrest⟩ := Prod.mk.inj hrest
  obtain ⟨t, ht, hshould⟩ := Option.map_eq_some_iff.mp hrest
  refine ⟨e, t, he, hlevel.ge, ht, ?_⟩
  intro hprogress
  have hfalse := hprogress.2 List.not_mem_nil
  rw [hshould] at hfalse
  exact absurd hfalse (by decide)

end VersionSystem

end KvStorageEngine
