import KvStorageEngine.Engine.VersionThreads
import KvStorageEngine.Engine.Correctness.CompactionCorrect
import KvStorageEngine.Lib.Run

/-!
# `Engine.Correctness.VersionUpdates` — no lost version update

Read, copy and update keeps every installed table as long as nobody else installs between a thread's copy
and its install. Nothing in the code prevents that, and when it happens the other thread's table is gone:
`noLostUpdate_iff_fresh` says the two are the same thing, run by run.

The invariant `Inv` is about ids only and holds in every reachable state, stale installs included: what the
threads hold is made of installed tables, except for the one table each of them is about to add. From it
come both directions of the step: a fresh install adds and removes exactly what its change says
(`noLost_of_fresh`), a stale one drops the last table installed in between (`not_noLost_of_stale`).
-/

namespace KvStorageEngine

open Run TableVersion

variable [Platform]

/-! ## A. What the edits do

A flush and a compaction edit their copies in the same way: some tables go, one comes. -/

/-- The flush thread removes nothing. -/
def Change.Wf (c : Change) : Prop := c.kind = .flush → c.idsToRemove = []

/-- The tables after an edit: those that are not removed, and the new one. -/
theorem Change.sstables_edit (c : Change) (hc : c.Wf) (v : TableVersion) :
    (c.edit v).sstables = (v.removeSSTablesByIds c.idsToRemove).sstables ++ [c.sst] := by
  unfold Change.edit
  cases hk : c.kind with
  | flush =>
      show v.sstables ++ [c.sst] = v.sstables.filter _ ++ [c.sst]
      rw [hc hk, List.filter_eq_self.mpr (by simp)]
  | L0toL1 => rfl
  | levelN => rfl

/-- The levels after an edit. -/
theorem Change.mem_level_edit (c : Change) (hc : c.Wf) (v : TableVersion) {i : Nat} {m : SSTableMeta} :
    m ∈ (c.edit v).level i ↔
      (m ∈ v.level i ∧ m.id ∉ c.idsToRemove) ∨ (i = c.newMeta.level ∧ m = c.newMeta) := by
  have hmerged : m ∈ (v.installMerged c.idsToRemove c.sst c.newMeta).level i ↔
      (m ∈ v.level i ∧ m.id ∉ c.idsToRemove) ∨ (i = c.newMeta.level ∧ m = c.newMeta) := by
    rw [(level_installMerged_perm v c.idsToRemove c.sst c.newMeta i).mem_iff, level_addSSTable,
      level_removeSSTablesByIds]
    split_ifs with hi
    · simp [hi]
    · simp [hi]
  unfold Change.edit
  cases hk : c.kind with
  | flush =>
      show m ∈ (v.addSSTable c.sst c.newMeta).level i ↔ _
      rw [level_addSSTable, hc hk]
      split_ifs with hi
      · simp [hi]
      · simp [hi]
  | L0toL1 => exact hmerged
  | levelN =>
      rw [editLevelN_eq]
      exact hmerged

/-! ## B. The property and the condition

No install undoes another one, and when that is so: the copy that a thread installs was made after the other thread's
last install. -/

namespace VersionSystem

/-- Every installed table is in the current version until a compaction that merged it is installed, and a
    removed table is not. -/
structure NoLostUpdate (s : VersionSystem) : Prop where
  kept : ∀ x ∈ s.installed, x.2.id ∉ s.removed →
    x.1 ∈ s.current.sstables ∧ x.2 ∈ s.current.level x.2.level
  gone : ∀ id ∈ s.removed, (∀ t ∈ s.current.sstables, t.path ≠ sstablePath (sstableDir s.dataDir) id) ∧
    ∀ i, ∀ m ∈ s.current.level i, m.id ≠ id

/-- A version is installed only while the version it was copied from is current. -/
def FreshInstall (s : VersionSystem) : VersionOp → Prop
  | .install th => ∀ c copiedAt v, s.pc th = .edited c copiedAt v → copiedAt = s.installs
  | .flushWrite _ _ | .compactRead _ | .compactWrite _ | .copy _ | .edit _ => True

/-! ## C. Ids

The two threads draw their ids from one counter. What a copy is made of are tables that some install has put there,
and the ids that are still to be installed are none of theirs. -/

/-- The ids ever installed. -/
def ids (s : VersionSystem) : List Nat := s.installed.map (·.2.id)

/-- A version made of tables with the given ids. -/
structure MadeOf (dataDir : Bytes) (ids : List Nat) (v : TableVersion) : Prop where
  tables : ∀ t ∈ v.sstables, ∃ id ∈ ids, t.path = sstablePath (sstableDir dataDir) id
  metas : ∀ i, ∀ m ∈ v.level i, m.id ∈ ids

theorem MadeOf.mono {dataDir : Bytes} {ids ids' : List Nat} {v : TableVersion}
    (h : MadeOf dataDir ids v) (hsub : ∀ id ∈ ids, id ∈ ids') : MadeOf dataDir ids' v := by
  refine ⟨?_, fun i m hm => hsub _ (h.metas i m hm)⟩
  intro t ht
  obtain ⟨id, hid, hp⟩ := h.tables t ht
  exact ⟨id, hsub id hid, hp⟩

/-- A thread's change: a new id, and ids to remove that were installed. -/
structure ChangeInv (s : VersionSystem) (c : Change) : Prop where
  wf : c.Wf
  fresh : c.newMeta.id ∉ s.ids
  le : c.newMeta.id ≤ s.flushCounter
  path : c.sst.path = sstablePath (sstableDir s.dataDir) c.newMeta.id
  remove : ∀ id ∈ c.idsToRemove, id ∈ s.ids

/-- A thread's copy is current, or something was installed since that neither the copy nor the change
    knows. -/
structure CopyInv (s : VersionSystem) (c : Change) (copiedAt : Nat) (v : TableVersion) : Prop where
  madeOf : MadeOf s.dataDir s.ids v
  le : copiedAt ≤ s.installs
  current : copiedAt = s.installs → v = s.current.copyFrom
  missed : copiedAt < s.installs → ∃ x ∈ s.installed, x.2.id ∉ s.removed ∧ x.2.id ∉ c.idsToRemove ∧
    ∀ i, ∀ m ∈ v.level i, m.id ≠ x.2.id

/-- What a thread holds. -/
def PcInv (s : VersionSystem) : VersionPc → Prop
  | .idle => True
  | .planned plan kind => (∀ id ∈ plan.idsToRemove, id ∈ s.ids) ∧ kind ≠ .flush
  | .written c => ChangeInv s c
  | .copied c copiedAt v => ChangeInv s c ∧ CopyInv s c copiedAt v
  | .edited c copiedAt v => ChangeInv s c ∧ ∃ v₀, v = c.edit v₀ ∧ CopyInv s c copiedAt v₀

/-- The id a thread is about to install. -/
def pendingId : VersionPc → Option Nat
  | .idle | .planned _ _ => none
  | .written c | .copied c _ _ | .edited c _ _ => some c.newMeta.id

/-- The invariant of every reachable state. -/
structure Inv (s : VersionSystem) : Prop where
  current : MadeOf s.dataDir s.ids s.current
  paths : ∀ x ∈ s.installed, x.1.path = sstablePath (sstableDir s.dataDir) x.2.id
  ids_le : ∀ id ∈ s.ids, id ≤ s.flushCounter
  removed : ∀ id ∈ s.removed, id ∈ s.ids
  pcs : ∀ th, PcInv s (s.pc th)
  apart : ∀ th th' id, pendingId (s.pc th) = some id → pendingId (s.pc th') = some id → th = th'

/-- The id of a change that is not installed yet is new, and drawn from the counter. -/
theorem PcInv.pending {s : VersionSystem} {pc : VersionPc} {id : Nat} (h : PcInv s pc)
    (hp : pendingId pc = some id) : id ∉ s.ids ∧ id ≤ s.flushCounter := by
  cases pc with
  | idle => exact absurd hp (by simp [pendingId])
  | planned plan kind => exact absurd hp (by simp [pendingId])
  | written c => exact Option.some.inj hp ▸ ⟨h.fresh, h.le⟩
  | copied c copiedAt v => exact Option.some.inj hp ▸ ⟨h.1.fresh, h.1.le⟩
  | edited c copiedAt v => exact Option.some.inj hp ▸ ⟨h.1.fresh, h.1.le⟩

/-- A step of a thread that installs nothing leaves the other thread's view as it was. -/
theorem PcInv.frame {s s' : VersionSystem} {pc : VersionPc} (h : PcInv s pc)
    (hd : s'.dataDir = s.dataDir) (hi : s'.installed = s.installed) (hr : s'.removed = s.removed)
    (hn : s'.installs = s.installs) (hc : s'.current = s.current)
    (hf : s.flushCounter ≤ s'.flushCounter) : PcInv s' pc := by
  have hids : s'.ids = s.ids := by rw [ids, hi]; rfl
  have hchange : ∀ c, ChangeInv s c → ChangeInv s' c := fun c hc =>
    ⟨hc.wf, hids ▸ hc.fresh, hc.le.trans hf, hd ▸ hc.path, hids ▸ hc.remove⟩
  have hcopy : ∀ c n v, CopyInv s c n v → CopyInv s' c n v := fun c n v hcp =>
    ⟨hids ▸ hd ▸ hcp.madeOf, hn ▸ hcp.le, fun he => hc ▸ hcp.current (hn ▸ he),
      fun hlt => by rw [hi, hr]; exact hcp.missed (hn ▸ hlt)⟩
  cases pc with
  | idle => trivial
  | planned plan kind => exact ⟨hids ▸ h.1, h.2⟩
  | written c => exact hchange c h
  | copied c copiedAt v => exact ⟨hchange c h.1, hcopy c copiedAt v h.2⟩
  | edited c copiedAt v =>
      obtain ⟨hch, v₀, hv, hcp⟩ := h
      exact ⟨hchange c hch, v₀, hv, hcopy c copiedAt v₀ hcp⟩

/-- A thread moves on without installing. -/
theorem Inv.advance {s s' : VersionSystem} (h : Inv s) {th : VersionThread} {pc : VersionPc}
    (hd : s'.dataDir = s.dataDir) (hi : s'.installed = s.installed) (hr : s'.removed = s.removed)
    (hn : s'.installs = s.installs) (hc : s'.current = s.current)
    (hf : s.flushCounter ≤ s'.flushCounter) (hpcs : s'.pc = Function.update s.pc th pc)
    (hpc : PcInv s' pc)
    (hapart : ∀ th' ≠ th, ∀ id, pendingId pc = some id → pendingId (s.pc th') ≠ some id) : Inv s' := by
  have hids : s'.ids = s.ids := by rw [ids, hi]; rfl
  refine ⟨?_, ?_, ?_, ?_, ?_, ?_⟩
  · rw [hd, hids, hc]
    exact h.current
  · rw [hi, hd]
    exact h.paths
  · intro id hid
    rw [hids] at hid
    exact (h.ids_le id hid).trans hf
  · rw [hr, hids]
    exact h.removed
  · intro th'
    rw [hpcs]
    by_cases hth : th' = th
    · rw [hth, Function.update_self]
      exact hpc
    · rw [Function.update_of_ne hth]
      exact (h.pcs th').frame hd hi hr hn hc hf
  · intro th₁ th₂ id h₁ h₂
    rw [hpcs] at h₁ h₂
    -- of two threads with one id, one may be the one that has moved
    by_cases ht₁ : th₁ = th <;> by_cases ht₂ : th₂ = th
    · rw [ht₁, ht₂]
    · rw [ht₁, Function.update_self] at h₁
      rw [Function.update_of_ne ht₂] at h₂
      exact absurd h₂ (hapart th₂ ht₂ id h₁)
    · rw [ht₂, Function.update_self] at h₂
      rw [Function.update_of_ne ht₁] at h₁
      exact absurd h₁ (hapart th₁ ht₁ id h₂)
    · rw [Function.update_of_ne ht₁] at h₁
      rw [Function.update_of_ne ht₂] at h₂
      exact h.apart th₁ th₂ id h₁ h₂

/-- Writing the output takes the next id, which nobody has. -/
theorem Inv.write {s : VersionSystem} (h : Inv s) (th : VersionThread) (data : SortedMap Bytes Entry)
    (maxSeq level : Nat) {idsToRemove : List Nat} {kind : EditKind}
    (hkind : kind = .flush → idsToRemove = []) (hids : ∀ id ∈ idsToRemove, id ∈ s.ids) :
    Inv (s.write th data maxSeq level idsToRemove kind) := by
  refine h.advance rfl rfl rfl rfl rfl (Nat.le_succ _) rfl ?_ ?_
  · refine ⟨hkind, ?_, Nat.le_refl _, rfl, hids⟩
    intro hmem
    have hle : s.flushCounter + 1 ≤ s.flushCounter := h.ids_le _ hmem
    omega
  · intro th' _ id hid hid'
    have hle := ((h.pcs th').pending hid').2
    obtain rfl : s.flushCounter + 1 = id := Option.some.inj hid
    omega

/-- The ids a plan removes are ids of the version it was made from. -/
theorem plan_ids {v : TableVersion} {level : Nat} {plan : CompactionPlan}
    (h : (if level = 0 then planL0toL1 v else planLevelN v level) = some plan) :
    ∀ id ∈ plan.idsToRemove, ∃ i, ∃ m ∈ v.level i, m.id = id := by
  -- the ids of the tables that some metadata names are ids of that metadata
  have hof : ∀ (metas : List SSTableMeta) (id : Nat), id ∈ (v.tablesOf metas).map (·.1) →
      ∃ m ∈ metas, m.id = id := by
    intro metas id hid
    obtain ⟨p, hp, rfl⟩ := List.mem_map.mp hid
    obtain ⟨m, hm, hmp⟩ := List.mem_filterMap.mp hp
    obtain ⟨t, -, rfl⟩ := Option.map_eq_some_iff.mp hmp
    exact ⟨m, hm, rfl⟩
  intro id hid
  split_ifs at h with h0
  · obtain ⟨d, -⟩ := planL0toL1_drawn h
    rw [(mergePlan_eq_some d.plan_eq).2.1] at hid
    obtain ⟨m, hm, rfl⟩ := hof _ id hid
    rcases List.mem_append.mp hm with hm | hm
    · exact ⟨0, m, d.sub m hm, rfl⟩
    · exact ⟨1, m, List.mem_of_mem_filter hm, rfl⟩
  · unfold planLevelN at h
    rw [if_neg h0] at h
    split at h
    · exact absurd h (by simp)
    · rename_i src rest hl
      split at h
      · exact absurd h (by simp)
      · rw [(mergePlan_eq_some h).2.1, List.map_cons] at hid
        rcases List.mem_cons.mp hid with rfl | hid
        · exact ⟨level, src, hl ▸ List.mem_cons_self, rfl⟩
        · obtain ⟨m, hm, rfl⟩ := hof _ id hid
          exact ⟨level + 1, m, List.mem_of_mem_filter hm, rfl⟩

/-- What a version becomes by an edit is made of the same tables and the new one. -/
theorem ChangeInv.madeOf_edit {s : VersionSystem} {c : Change} (hc : ChangeInv s c) {v : TableVersion}
    (hv : MadeOf s.dataDir s.ids v) : MadeOf s.dataDir (s.ids ++ [c.newMeta.id]) (c.edit v) := by
  refine ⟨?_, ?_⟩
  · intro t ht
    rw [c.sstables_edit hc.wf] at ht
    rcases List.mem_append.mp ht with ht | ht
    · obtain ⟨id, hid, hp⟩ := hv.tables t (List.mem_of_mem_filter ht)
      exact ⟨id, List.mem_append_left _ hid, hp⟩
    · rw [List.mem_singleton.mp ht]
      exact ⟨c.newMeta.id, by simp, hc.path⟩
  · intro i m hm
    rcases (c.mem_level_edit hc.wf v).mp hm with ⟨hm, -⟩ | ⟨-, rfl⟩
    · exact List.mem_append_left _ (hv.metas i m hm)
    · simp

/-- The state after `th` has installed its edited copy. -/
def installed' (s : VersionSystem) (th : VersionThread) (c : Change) (v : TableVersion) :
    VersionSystem :=
  { s with
    current := v
    installed := s.installed ++ [(c.sst, c.newMeta)]
    removed := s.removed ++ c.idsToRemove
    installs := s.installs + 1 }.setPc th .idle

theorem ids_installed' (s : VersionSystem) (th : VersionThread) (c : Change) (v : TableVersion) :
    (s.installed' th c v).ids = s.ids ++ [c.newMeta.id] := by
  unfold ids installed' setPc
  rw [List.map_append]
  rfl

/-- An install seen from the other thread: its copy is out of date now. -/
theorem PcInv.install {s : VersionSystem} {th : VersionThread} {c : Change} {v : TableVersion}
    {pc : VersionPc} (hc : ChangeInv s c) (hrem : ∀ id ∈ s.removed, id ∈ s.ids) (h : PcInv s pc)
    (hne : pendingId pc ≠ some c.newMeta.id) : PcInv (s.installed' th c v) pc := by
  have hsub : ∀ id ∈ s.ids, id ∈ (s.installed' th c v).ids := by
    intro id hid
    rw [ids_installed']
    exact List.mem_append_left _ hid
  have hchange : ∀ c', c'.newMeta.id ≠ c.newMeta.id → ChangeInv s c' →
      ChangeInv (s.installed' th c v) c' := by
    intro c' hne hc'
    refine ⟨hc'.wf, ?_, hc'.le, hc'.path, fun id hid => hsub id (hc'.remove id hid)⟩
    rw [ids_installed', List.mem_append, List.mem_singleton, not_or]
    exact ⟨hc'.fresh, hne⟩
  have hcopy : ∀ c' n v', ChangeInv s c' → CopyInv s c' n v' →
      CopyInv (s.installed' th c v) c' n v' := by
    intro c' n v' hc' hcp
    have hle := hcp.le
    refine ⟨hcp.madeOf.mono hsub, Nat.le_succ_of_le hle, fun he => ?_, fun _ => ?_⟩
    · have he : n = s.installs + 1 := he
      omega
    · -- the table just installed is the missed one
      refine ⟨(c.sst, c.newMeta), List.mem_append_right _ (List.mem_singleton_self _), ?_,
        fun hr => hc.fresh (hc'.remove _ hr), ?_⟩
      · intro hr
        rcases List.mem_append.mp hr with hr | hr
        · exact hc.fresh (hrem _ hr)
        · exact hc.fresh (hc.remove _ hr)
      · intro i m hm he
        have hm := hcp.madeOf.metas i m hm
        rw [he] at hm
        exact hc.fresh hm
  cases pc with
  | idle => trivial
  | planned plan kind => exact ⟨fun id hid => hsub id (h.1 id hid), h.2⟩
  | written c' => exact hchange c' (fun he => hne (congrArg some he)) h
  | copied c' copiedAt v' =>
      exact ⟨hchange c' (fun he => hne (congrArg some he)) h.1, hcopy c' copiedAt v' h.1 h.2⟩
  | edited c' copiedAt v' =>
      obtain ⟨hch, v₀, hv, hcp⟩ := h
      exact ⟨hchange c' (fun he => hne (congrArg some he)) hch, v₀, hv, hcopy c' copiedAt v₀ hch hcp⟩

/-- An install keeps the invariant. -/
theorem Inv.install {s : VersionSystem} (h : Inv s) {th : VersionThread} {c : Change} {copiedAt : Nat}
    {v : TableVersion} (hpc : s.pc th = .edited c copiedAt v) : Inv (s.installed' th c v) := by
  have hth := h.pcs th
  rw [hpc] at hth
  obtain ⟨hc, v₀, rfl, hcp⟩ := hth
  -- the other thread is about to install another id
  have hother : ∀ th' ≠ th, pendingId (s.pc th') ≠ some c.newMeta.id := fun th' hne hp =>
    hne (h.apart th' th c.newMeta.id hp (by rw [hpc]; rfl))
  refine ⟨?_, ?_, ?_, ?_, ?_, ?_⟩
  · rw [ids_installed']
    exact hc.madeOf_edit hcp.madeOf
  · intro x hx
    rcases List.mem_append.mp hx with hx | hx
    · exact h.paths x hx
    · rw [List.mem_singleton.mp hx]
      exact hc.path
  · intro id hid
    rw [ids_installed'] at hid
    rcases List.mem_append.mp hid with hid | hid
    · exact h.ids_le id hid
    · rw [List.mem_singleton.mp hid]
      exact hc.le
  · intro id hid
    rw [ids_installed']
    rcases List.mem_append.mp hid with hid | hid
    · exact List.mem_append_left _ (h.removed id hid)
    · exact List.mem_append_left _ (hc.remove id hid)
  · intro th'
    show PcInv _ (Function.update s.pc th .idle th')
    by_cases hne : th' = th
    · rw [hne, Function.update_self]
      trivial
    · rw [Function.update_of_ne hne]
      exact (h.pcs th').install hc h.removed (hother th' hne)
  · intro th₁ th₂ id h₁ h₂
    change pendingId (Function.update s.pc th .idle th₁) = some id at h₁
    change pendingId (Function.update s.pc th .idle th₂) = some id at h₂
    have hne : ∀ {t}, pendingId (Function.update s.pc th .idle t) = some id → t ≠ th := by
      rintro t ht rfl
      rw [Function.update_self] at ht
      exact absurd ht (by simp [pendingId])
    rw [Function.update_of_ne (hne h₁)] at h₁
    rw [Function.update_of_ne (hne h₂)] at h₂
    exact h.apart th₁ th₂ id h₁ h₂

theorem inv_init (dataDir : Bytes) : Inv (init dataDir) := by
  refine ⟨⟨fun t ht => absurd ht List.not_mem_nil, ?_⟩,
    fun x hx => absurd hx List.not_mem_nil, ?_, ?_, fun _ => trivial,
    fun th th' id h => absurd h (by simp [init, pendingId])⟩
  · intro i m hm
    exact absurd hm (by rw [show (init dataDir).current = initial from rfl, level_initial]; simp)
  · intro id hid
    exact absurd hid List.not_mem_nil
  · intro id hid
    exact absurd hid List.not_mem_nil

/-- What each step can do. -/
def StepEffect (s : VersionSystem) (s' : VersionSystem) : VersionOp → Prop
  | .flushWrite snapshot maxSeq => s.pc .flush = .idle ∧ s' = s.write .flush snapshot maxSeq 0 [] .flush
  | .compactRead level => s.pc .compaction = .idle ∧ (s' = s ∨ ∃ plan,
      (if level = 0 then planL0toL1 s.current else planLevelN s.current level) = some plan ∧
      s' = s.setPc .compaction (.planned plan (if level = 0 then .L0toL1 else .levelN)))
  | .compactWrite maxSeq => ∃ plan kind, s.pc .compaction = .planned plan kind ∧
      s' = s.write .compaction plan.mergedData maxSeq plan.targetLevel plan.idsToRemove kind
  | .copy th => ∃ c, s.pc th = .written c ∧
      s' = s.setPc th (.copied c s.installs s.current.copyFrom)
  | .edit th => ∃ c copiedAt v, s.pc th = .copied c copiedAt v ∧
      s' = s.setPc th (.edited c copiedAt (c.edit v))
  | .install th => ∃ c copiedAt v, s.pc th = .edited c copiedAt v ∧ s' = s.installed' th c v

/-- Every step does what `StepEffect` says. -/
theorem step_effect {s s' : VersionSystem} {op : VersionOp} (h : s.step op = some s') :
    StepEffect s s' op := by
  cases op with
  | flushWrite snapshot maxSeq =>
      cases hpc : s.pc .flush <;> simp only [step, hpc] at h <;> try contradiction
      split_ifs at h
      exact ⟨hpc, (Option.some.inj h).symm⟩
  | compactRead level =>
      cases hpc : s.pc .compaction <;> simp only [step, hpc] at h <;> try contradiction
      cases hplan : (if level = 0 then planL0toL1 s.current else planLevelN s.current level) with
      | none =>
          rw [hplan] at h
          exact ⟨hpc, Or.inl (Option.some.inj h).symm⟩
      | some plan =>
          rw [hplan] at h
          exact ⟨hpc, Or.inr ⟨plan, hplan, (Option.some.inj h).symm⟩⟩
  | compactWrite maxSeq =>
      cases hpc : s.pc .compaction <;> simp only [step, hpc] at h <;> try contradiction
      exact ⟨_, _, hpc, (Option.some.inj h).symm⟩
  | copy th =>
      cases hpc : s.pc th <;> simp only [step, hpc] at h <;> try contradiction
      exact ⟨_, hpc, (Option.some.inj h).symm⟩
  | edit th =>
      cases hpc : s.pc th <;> simp only [step, hpc] at h <;> try contradiction
      exact ⟨_, _, _, hpc, (Option.some.inj h).symm⟩
  | install th =>
      cases hpc : s.pc th <;> simp only [step, hpc] at h <;> try contradiction
      exact ⟨_, _, _, hpc, (Option.some.inj h).symm⟩

/-- **The invariant holds in every reachable state**, stale installs included. -/
theorem Inv.step {s s' : VersionSystem} (h : Inv s) {op : VersionOp} (hs : s.step op = some s') :
    Inv s' := by
  have heff := step_effect hs
  cases op with
  | flushWrite snapshot maxSeq =>
      obtain ⟨-, rfl⟩ := heff
      exact h.write _ _ _ _ (fun _ => rfl) (fun _ hid => absurd hid (by simp))
  | compactRead level =>
      obtain ⟨-, rfl | ⟨plan, hplan, rfl⟩⟩ := heff
      · exact h
      · refine h.advance rfl rfl rfl rfl rfl (Nat.le_refl _) rfl ⟨?_, ?_⟩ ?_
        · intro id hid
          obtain ⟨i, m, hm, rfl⟩ := plan_ids hplan id hid
          exact h.current.metas i m hm
        · split_ifs <;> simp
        · intro th' _ id hid
          exact absurd hid (by simp [pendingId])
  | compactWrite maxSeq =>
      obtain ⟨plan, kind, hpc, rfl⟩ := heff
      have hth := h.pcs .compaction
      rw [hpc] at hth
      exact h.write _ _ _ _ (fun hk => absurd hk hth.2) hth.1
  | copy th =>
      obtain ⟨c, hpc, rfl⟩ := heff
      have hth := h.pcs th
      rw [hpc] at hth
      refine h.advance rfl rfl rfl rfl rfl (Nat.le_refl _) rfl ?_ ?_
      -- a copy made now is a copy of the current version
      · have hcopy : CopyInv s c s.installs s.current.copyFrom :=
          ⟨⟨h.current.tables, h.current.metas⟩, Nat.le_refl _, fun _ => rfl,
            fun hlt => absurd hlt (Nat.lt_irrefl _)⟩
        have hpcInv : PcInv s (.copied c s.installs s.current.copyFrom) := ⟨hth, hcopy⟩
        exact hpcInv.frame rfl rfl rfl rfl rfl (Nat.le_refl s.flushCounter)
      · intro th' hne id hid hid'
        exact hne (h.apart th' th id hid' (by rw [hpc]; exact hid))
  | edit th =>
      obtain ⟨c, copiedAt, v, hpc, rfl⟩ := heff
      have hth := h.pcs th
      rw [hpc] at hth
      refine h.advance rfl rfl rfl rfl rfl (Nat.le_refl _) rfl ?_ ?_
      · have hpcInv : PcInv s (.edited c copiedAt (c.edit v)) := ⟨hth.1, v, rfl, hth.2⟩
        exact hpcInv.frame rfl rfl rfl rfl rfl (Nat.le_refl s.flushCounter)
      · intro th' hne id hid hid'
        exact hne (h.apart th' th id hid' (by rw [hpc]; exact hid))
  | install th =>
      obtain ⟨c, copiedAt, v, hpc, rfl⟩ := heff
      exact h.install hpc

/-! ## D. One install

An install of a fresh copy keeps what is there; one of a stale copy has the other thread's table missing, or its
inputs back. -/

/-- A fresh install adds and removes exactly what its change says. -/
theorem noLost_of_fresh {s : VersionSystem} (hdir : ExactIds s.dataDir) (h : Inv s)
    (hn : NoLostUpdate s) {th : VersionThread} {c : Change} (hc : ChangeInv s c) :
    NoLostUpdate (s.installed' th c (c.edit s.current.copyFrom)) := by
  have hmatch : ∀ t ∈ s.current.sstables, ∀ id,
      t.matchesId id = true ↔ t.path = sstablePath (sstableDir s.dataDir) id := by
    intro t ht id
    obtain ⟨n, -, hp⟩ := h.current.tables t ht
    rw [matchesId_sstablePath hdir hp, hp]
    exact ⟨fun he => he ▸ rfl, sstablePath_inj⟩
  refine ⟨?_, fun id hid => ⟨?_, ?_⟩⟩
  · intro x hx hrem
    obtain ⟨hrem, hids⟩ := not_or.mp (List.mem_append.not.mp hrem)
    show x.1 ∈ (c.edit s.current.copyFrom).sstables ∧ x.2 ∈ (c.edit s.current.copyFrom).level _
    rw [c.sstables_edit hc.wf, c.mem_level_edit hc.wf]
    rcases List.mem_append.mp hx with hx | hx
    · obtain ⟨ht, hm⟩ := hn.kept x hx hrem
      refine ⟨List.mem_append_left _ (List.mem_filter.mpr ⟨ht, ?_⟩), Or.inl ⟨hm, hids⟩⟩
      simp only [Bool.not_eq_true', List.any_eq_false]
      intro id hid hm'
      rw [hmatch x.1 ht, h.paths x hx] at hm'
      exact hids (sstablePath_inj hm' ▸ hid)
    · rw [List.mem_singleton.mp hx]
      exact ⟨by simp, Or.inr ⟨rfl, rfl⟩⟩
  · intro t ht hp
    change t ∈ (c.edit s.current.copyFrom).sstables at ht
    rw [c.sstables_edit hc.wf] at ht
    rcases List.mem_append.mp ht with ht | ht
    · obtain ⟨ht, hnot⟩ := List.mem_filter.mp ht
      rcases List.mem_append.mp hid with hid | hid
      · exact (hn.gone id hid).1 t ht hp
      · simp only [Bool.not_eq_true', List.any_eq_false] at hnot
        exact hnot id hid ((hmatch t ht id).mpr hp)
    · -- the new table's id is not one that was ever removed
      rw [List.mem_singleton.mp ht, hc.path] at hp
      have hid' : c.newMeta.id ∈ s.removed ++ c.idsToRemove := sstablePath_inj hp ▸ hid
      rcases List.mem_append.mp hid' with hid | hid
      · exact hc.fresh (h.removed _ hid)
      · exact hc.fresh (hc.remove _ hid)
  · intro i m hm he
    change m ∈ (c.edit s.current.copyFrom).level i at hm
    rcases (c.mem_level_edit hc.wf _).mp hm with ⟨hm, hnot⟩ | ⟨-, rfl⟩
    · rcases List.mem_append.mp hid with hid | hid
      · exact (hn.gone id hid).2 i m hm he
      · exact hnot (he ▸ hid)
    · rcases List.mem_append.mp hid with hid | hid
      · exact hc.fresh (h.removed _ (he ▸ hid))
      · exact hc.fresh (hc.remove _ (he ▸ hid))

/-- A stale install drops the table that was installed last. -/
theorem not_noLost_of_stale {s : VersionSystem} {th : VersionThread} {c : Change} {copiedAt : Nat}
    {v : TableVersion} (hc : ChangeInv s c) (hcp : CopyInv s c copiedAt v)
    (hlt : copiedAt < s.installs) : ¬ NoLostUpdate (s.installed' th c (c.edit v)) := by
  obtain ⟨x, hx, hrem, hids, hmiss⟩ := hcp.missed hlt
  intro hn
  have hnot : x.2.id ∉ s.removed ++ c.idsToRemove := fun hid =>
    (List.mem_append.mp hid).elim hrem hids
  have hm : x.2 ∈ (c.edit v).level x.2.level :=
    (hn.kept x (List.mem_append_left _ hx) hnot).2
  rcases (c.mem_level_edit hc.wf v).mp hm with ⟨hm, -⟩ | ⟨-, he⟩
  · exact hmiss _ x.2 hm rfl
  · apply hc.fresh
    rw [← he]
    exact List.mem_map_of_mem (f := (·.2.id)) hx

/-- Only an install can lose an update. -/
theorem NoLostUpdate.congr {s s' : VersionSystem} (h : NoLostUpdate s) (hd : s'.dataDir = s.dataDir)
    (hc : s'.current = s.current) (hi : s'.installed = s.installed) (hr : s'.removed = s.removed) :
    NoLostUpdate s' := by
  refine ⟨?_, ?_⟩
  · rw [hi, hr, hc]
    exact h.kept
  · rw [hr, hc, hd]
    exact h.gone

theorem step_dataDir {s s' : VersionSystem} {op : VersionOp} (hs : s.step op = some s') :
    s'.dataDir = s.dataDir := by
  have heff := step_effect hs
  cases op with
  | flushWrite snapshot maxSeq => rw [heff.2]; rfl
  | compactRead level => obtain ⟨-, rfl | ⟨plan, -, rfl⟩⟩ := heff <;> rfl
  | compactWrite maxSeq => obtain ⟨plan, kind, -, rfl⟩ := heff; rfl
  | copy th => obtain ⟨c, -, rfl⟩ := heff; rfl
  | edit th => obtain ⟨c, copiedAt, v, -, rfl⟩ := heff; rfl
  | install th => obtain ⟨c, copiedAt, v, -, rfl⟩ := heff; rfl

/-- A step loses no update exactly when it is no stale install. -/
theorem noLost_step {s s' : VersionSystem} {op : VersionOp} (hdir : ExactIds s.dataDir) (h : Inv s)
    (hs : s.step op = some s') (hn : NoLostUpdate s) : NoLostUpdate s' ↔ s.FreshInstall op := by
  have heff := step_effect hs
  cases op with
  | flushWrite snapshot maxSeq =>
      obtain ⟨-, rfl⟩ := heff
      exact ⟨fun _ => trivial, fun _ => hn.congr rfl rfl rfl rfl⟩
  | compactRead level =>
      obtain ⟨-, rfl | ⟨plan, -, rfl⟩⟩ := heff
      · exact ⟨fun _ => trivial, fun _ => hn⟩
      · exact ⟨fun _ => trivial, fun _ => hn.congr rfl rfl rfl rfl⟩
  | compactWrite maxSeq =>
      obtain ⟨plan, kind, -, rfl⟩ := heff
      exact ⟨fun _ => trivial, fun _ => hn.congr rfl rfl rfl rfl⟩
  | copy th =>
      obtain ⟨c, -, rfl⟩ := heff
      exact ⟨fun _ => trivial, fun _ => hn.congr rfl rfl rfl rfl⟩
  | edit th =>
      obtain ⟨c, copiedAt, v, -, rfl⟩ := heff
      exact ⟨fun _ => trivial, fun _ => hn.congr rfl rfl rfl rfl⟩
  | install th =>
      obtain ⟨c, copiedAt, v, hpc, rfl⟩ := heff
      have hth := h.pcs th
      rw [hpc] at hth
      obtain ⟨hc, v₀, rfl, hcp⟩ := hth
      constructor
      · rintro hn' c' n' v' hpc'
        obtain ⟨rfl, rfl, -⟩ := VersionPc.edited.inj (hpc.symm.trans hpc')
        -- otherwise the other thread has installed something in between
        by_contra hne
        exact not_noLost_of_stale hc hcp (lt_of_le_of_ne hcp.le hne) hn'
      · intro hfresh
        rw [hcp.current (hfresh c copiedAt _ hpc)]
        exact noLost_of_fresh hdir h hn hc

/-! ## E. Whole runs

The condition decides step by step, so it decides for a run. -/

/-- **No update is lost exactly along the runs without a stale install**: in every state of the run all
    installed tables are there until merged and no removed one is, if and only if no thread installs a
    version after the other has installed one since its copy. -/
theorem noLostUpdate_iff_fresh {dataDir : Bytes} (hdir : ExactIds dataDir) {ops : List VersionOp}
    {s : VersionSystem} (h : exec step (init dataDir) ops = some s) :
    Along step (fun _ => NoLostUpdate) (init dataDir) ops ↔
      Meets step FreshInstall (init dataDir) ops := by
  have hreach : ∀ {pre t}, exec step (init dataDir) pre = some t → Inv t ∧ t.dataDir = dataDir := by
    intro pre t ht
    refine exec_invariant (I := fun s => Inv s ∧ s.dataDir = dataDir) ⟨inv_init dataDir, rfl⟩ ?_ ht
    rintro s op s' ⟨hinv, hd⟩ hs
    exact ⟨hinv.step hs, (step_dataDir hs).trans hd⟩
  refine along_iff_meets ?_ (?_) h
  · exact ⟨fun x hx => absurd hx List.not_mem_nil, fun id hid => absurd hid List.not_mem_nil⟩
  · intro pre op t v _ ht hv _ hn
    obtain ⟨hinv, hd⟩ := hreach ht
    exact noLost_step (hd ▸ hdir) hinv hv hn

/-- A flush and a compaction overlap: both copy the version, the flush installs first. -/
def overlappingRun : List VersionOp :=
  let one (key : String) (seq : Nat) : SortedMap Bytes Entry :=
    SortedMap.empty.insert (Bytes.ascii key) ⟨Bytes.ascii "1", seq, .put⟩
  [.flushWrite (one "a" 1) 1, .copy .flush, .edit .flush, .install .flush,
    .compactRead 0, .compactWrite 1, .flushWrite (one "b" 2) 2,
    .copy .flush, .copy .compaction, .edit .flush, .install .flush, .edit .compaction,
    .install .compaction]

omit [Platform] in
theorem noLostUpdate_iff_overlappingRun : letI := Platform.sample
    Along step (fun _ => NoLostUpdate) (init (Bytes.ascii "data")) overlappingRun ↔
      Meets step FreshInstall (init (Bytes.ascii "data")) overlappingRun := by
  let := Platform.sample
  have hrun : (exec step (init (Bytes.ascii "data")) overlappingRun).isSome := by decide +kernel
  obtain ⟨s, hs⟩ := Option.isSome_iff_exists.mp hrun
  exact noLostUpdate_iff_fresh exactIds_data hs

omit [Platform] in
/-- The flushed table 3 is gone: installed, never merged, and not in the current version. -/
theorem flushed_table_lost : letI := Platform.sample
    ∃ s, exec step (init (Bytes.ascii "data")) overlappingRun = some s ∧
      s.ids = [1, 3, 2] ∧ s.removed = [1] ∧ s.current.ids = [2] ∧ ¬ NoLostUpdate s := by
  let := Platform.sample
  have hids : (exec step (init (Bytes.ascii "data")) overlappingRun).map
      (fun s => (s.ids, s.removed, s.current.ids)) = some ([1, 3, 2], [1], [2]) := by decide +kernel
  obtain ⟨s, hs, he⟩ := Option.map_eq_some_iff.mp hids
  obtain ⟨hids, hrem, hcur⟩ : s.ids = [1, 3, 2] ∧ s.removed = [1] ∧ s.current.ids = [2] := by
    simpa using he
  refine ⟨s, hs, hids, hrem, hcur, ?_⟩
  intro hn
  have h3 : 3 ∈ s.ids := by rw [hids]; decide
  obtain ⟨x, hx, hx3⟩ := List.mem_map.mp h3
  have hm := (hn.kept x hx (by rw [hrem, hx3]; decide)).2
  have hmem : x.2.id ∈ s.current.ids := List.mem_map_of_mem (mem_metas_of_level hm)
  rw [hcur, hx3] at hmem
  exact absurd hmem (by decide)

end VersionSystem

end KvStorageEngine
