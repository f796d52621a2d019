import KvStorageEngine.Engine.Correctness.StoreRecords

/-!
# `Engine.Correctness.ClearData` — what `clearData` leaves behind

`clearData` empties the memtable, the version and the cache, and removes the directory `data`. It does not touch
the immutable memtable and does not know of what the flush thread and the compaction thread have in hand, its
directory need not be the store's (`data_dir_` is any path), and a lookup that has found a record before may store it in
the cache afterwards. So records come back in many ways, with the next steps of another thread and with the next
constructor.

Where none is possible (`CleanClear`), the store is empty afterwards and stays so over any number of stops, as
long as nothing is written (`emptied_of_cleanClear`). The invariant is that no put is left anywhere (`Quiet`):
tombstones may be, and since a merge of tombstones is empty, no compaction changes anything either.
-/

namespace KvStorageEngine

open TableVersion Run

variable [Platform]

/-- A record that is no put. -/
def NotPut (_ : Bytes) (e : Entry) : Prop := e.type ≠ .put

instance (key : Bytes) (e : Entry) : Decidable (NotPut key e) := inferInstanceAs (Decidable (_ ≠ _))

/-- The kind of all records of a memtable can be computed. -/
instance MemTable.decidableOnly (P : Bytes → Entry → Prop) [∀ k e, Decidable (P k e)] (m : MemTable) :
    Decidable (m.Only P) :=
  decidable_of_iff (∀ p ∈ m.memtable.entries, P p.1 p.2)
    ⟨fun h k e he => h (k, e) (SortedMap.find?_eq_some.mp he),
      fun h p hp => h p.1 p.2 (SortedMap.find?_eq_some.mpr hp)⟩

instance SSTable.decidableOnly (P : Bytes → Entry → Prop) [∀ k e, Decidable (P k e)] (t : SSTable) :
    Decidable (t.Only P) :=
  decidable_of_iff (∀ p ∈ t.records.entries, P p.1 p.2)
    ⟨fun h k e he => h (k, e) (SortedMap.find?_eq_some.mp he),
      fun h p hp => h p.1 p.2 (SortedMap.find?_eq_some.mpr hp)⟩

/-! ## A. When a clear is clean

The condition has a part for each thing `clearData` leaves behind: the directory, the memtables, the flush thread, the
compaction and the cache. -/

/-- Neither the log nor a table file has a put. -/
def DataDir.NoPuts (d : DataDir) : Prop :=
  (∀ r ∈ d.log, NotPut r.key r.entry) ∧ ∀ t ∈ d.sstables, t.Only NotPut

/-- A table without puts, whose file is there. -/
def DataDir.Spent (d : DataDir) (t : SSTable) : Prop := t.Only NotPut ∧ (d.file? t.path).isSome = true

def CompactionRound.isIdle : CompactionRound → Bool
  | .idle => true
  | _ => false

theorem CompactionRound.isIdle_iff {r : CompactionRound} : r.isIdle = true ↔ r = .idle := by
  cases r <;> simp [isIdle]

/-- The steps that are neither a request nor one of `clearData`. -/
def StoreOp.background : StoreOp → Bool
  | .write _ | .clearRemove | .clearMemtable | .clearCounters | .clearVersion | .clearCache => false
  | _ => true

namespace Store

/-- The immutable memtable, if there is one, has no put. -/
def ImmutableNoPuts (s : Store) : Prop := ∀ imm ∈ s.engine.immutableMemtable, imm.Only NotPut

/-- Nothing of what the flush thread still has to do brings a put back: the immutable memtable has none, or it is
    in a table already and there is no cache to keep its records; and the tables that are about to be installed
    have none either, and have their files. -/
def PendingClean (s : Store) : Prop :=
  match s.flusher with
  | .idle => s.ImmutableNoPuts
  | .written c => s.ImmutableNoPuts ∧ s.dir.Spent c.sst
  | .copied newVersion => s.ImmutableNoPuts ∧ ∀ t ∈ newVersion.sstables, s.dir.Spent t
  | .installed | .saved => s.ImmutableNoPuts ∨ s.engine.cache = none

/-- The condition on a `clearData`. When it installs the fresh version, no put is anywhere else and no thread has one in
    hand; when it clears the cache, no lookup has a record to store there; and there is no request in between. -/
def CleanClear (s : Store) : StoreOp → Prop
  | .clearVersion =>
    s.dir.NoPuts ∧ s.engine.memtable.Only NotPut ∧ s.PendingClean ∧ s.compactor.isIdle = true
  | .clearCache => s.fills = []
  | .write _ => s.clearer ≠ .installed
  | .flushWrite | .compactWrite => s.FreshPath
  | _ => True

instance (s : Store) : Decidable s.ImmutableNoPuts :=
  inferInstanceAs (Decidable (∀ imm ∈ s.engine.immutableMemtable, imm.Only NotPut))

instance (d : DataDir) : Decidable d.NoPuts := inferInstanceAs (Decidable (_ ∧ _))

instance (d : DataDir) (t : SSTable) : Decidable (d.Spent t) := inferInstanceAs (Decidable (_ ∧ _))

instance (s : Store) : Decidable s.PendingClean :=
  match h : s.flusher with
  | .idle => decidable_of_iff s.ImmutableNoPuts (by simp [PendingClean, h])
  | .written c => decidable_of_iff (s.ImmutableNoPuts ∧ s.dir.Spent c.sst) (by simp [PendingClean, h])
  | .copied newVersion => decidable_of_iff (s.ImmutableNoPuts ∧ ∀ t ∈ newVersion.sstables, s.dir.Spent t)
      (by simp [PendingClean, h])
  | .installed | .saved => decidable_of_iff (s.ImmutableNoPuts ∨ s.engine.cache.isNone) (by simp [PendingClean, h])

instance (s : Store) : ∀ op, Decidable (s.CleanClear op)
  | .clearVersion => inferInstanceAs (Decidable (_ ∧ _ ∧ _ ∧ _))
  | .clearCache => inferInstanceAs (Decidable (s.fills = []))
  | .write _ => inferInstanceAs (Decidable (s.clearer ≠ _))
  | .flushWrite | .compactWrite => inferInstanceAs (Decidable s.FreshPath)
  | .get _ | .fill _ | .rotate | .unlink | .flushCopy | .flushInstall | .flushSave | .flushReset
  | .compactL0toL1 | .compactlevelN _ | .compactCopy | .compactInstall | .compactSave | .compactRemove
  | .clearRemove | .clearMemtable | .clearCounters | .restart _ => isTrue trivial

/-- No put is left anywhere but, with no cache, in an immutable memtable that is about to be dropped. -/
structure Quiet (s : Store) : Prop where
  memtable : s.engine.memtable.Only NotPut
  immutable : s.ImmutableNoPuts ∨ ((s.flusher = .installed ∨ s.flusher = .saved) ∧ s.engine.cache = none)
  flusher : s.flusher.All (fun c => s.dir.Spent c.sst) (fun v => ∀ t ∈ v.sstables, s.dir.Spent t)
  compactor : s.compactor = .idle
  tables : ∀ t ∈ s.engine.version.sstables, s.dir.Spent t
  dir : s.dir.NoPuts

/-- The cache is empty, and no lookup is about to put anything there. -/
def Uncached (s : Store) : Prop :=
  (∀ c, s.engine.cache = some c → ∀ key, c.cache.find? key = none) ∧ s.fills = []

/-- What holds while `clearData` installs and after it has returned. -/
structure Cleared (s : Store) : Prop where
  quiet : s.clearer = .installed ∨ s.cleared = true → s.Quiet
  uncached : s.cleared = true → s.Uncached ∧ s.clearer = .idle

section Steps

variable {s : Store}

/-- The immutable memtable holds no put, unless the version has its table already. -/
theorem Quiet.immutableNoPuts (h : s.Quiet) (hpc : s.flusher ≠ .installed ∧ s.flusher ≠ .saved) :
    s.ImmutableNoPuts := h.immutable.resolve_right fun ⟨hi, _⟩ => hi.elim hpc.1 hpc.2

theorem spent_file {d : DataDir} {t : SSTable} (h : d.Spent t) : d.file? t.path ≠ none :=
  Option.isSome_iff_ne_none.mp h.2

/-- What a quiet store finds is no put, unless the immutable memtable is about to be dropped. -/
theorem Quiet.answer_lookup (h : s.Quiet) (himm : s.ImmutableNoPuts) (key : Bytes) :
    answer (s.engine.lookup key) = none := by
  rw [Option.eq_none_iff_forall_ne_some]
  intro e he
  obtain ⟨hfound, hput⟩ := answer_eq_some.mp he
  rcases StorageEngine.lookup_eq_some hfound with hk | ⟨imm, hi, hk⟩ | ⟨t, ht, hk⟩
  · exact h.memtable key e hk hput
  · exact himm imm hi key e hk hput
  · exact (h.tables t ht).1 key e hk hput

/-- A merge of tables without puts is empty. -/
theorem Quiet.not_drawsFrom (h : s.Quiet) (plan : CompactionPlan) : ¬ plan.DrawsFrom s.engine.version := by
  intro hplan
  obtain ⟨key, e, hkey⟩ := hplan.exists_find?
  obtain ⟨⟨t, ht, hk⟩, hput⟩ := hplan.of_find? hkey
  exact (h.tables t ht).1 key e hk hput

/-- A table that is written leaves the others as they were. -/
theorem spent_writeTable {d : DataDir} {t : SSTable} (h : d.Spent t) (sst : SSTable) : (d.writeTable sst).Spent t := by
  refine ⟨h.1, ?_⟩
  rw [DataDir.file?_writeTable]
  split_ifs
  · rfl
  · exact h.2

/-- A lookup on a quiet store has nothing to store in the cache. -/
theorem Quiet.foundOnMiss (h : s.Quiet) (key : Bytes) : s.foundOnMiss key = none := by
  unfold Store.foundOnMiss
  split_ifs with hhit
  · rfl
  · rcases h.immutable with himm | ⟨-, hc⟩
    · rw [search_of_files (fun t ht => spent_file (h.tables t ht)), Option.bind_some, h.answer_lookup himm]
      rfl
    · rw [hc] at hhit
      exact absurd rfl hhit

/-- Nor does it find anything in an empty cache. -/
theorem Quiet.lookedUp (h : s.Quiet) (key : Bytes) : (s.lookedUp key).Quiet := by
  refine ⟨h.memtable, h.immutable.imp_right (And.imp_right ?_), h.flusher, h.compactor, h.tables, h.dir⟩
  intro hc
  show s.engine.cache.map _ = none
  rw [hc]
  rfl

/-- A lookup finds nothing to put into the cache. -/
theorem Uncached.lookedUp (hcache : s.Uncached) (h : s.Quiet) (key : Bytes) : (s.lookedUp key).Uncached := by
  refine ⟨?_, ?_⟩
  · intro c hc k
    obtain ⟨c₀, hc₀, rfl⟩ := Option.map_eq_some_iff.mp hc
    show (c₀.get key).2.cache.find? k = none
    rw [LRUCache.cache_get]
    exact hcache.1 c₀ hc₀ k
  · show s.fills ++ (s.foundOnMiss key).toList = []
    rw [h.foundOnMiss, hcache.2]
    rfl

/-- The flush thread writes a table without puts, -/
theorem Quiet.flushWrite (h : s.Quiet) (hpc : s.flusher = .idle) {imm : MemTable}
    (himm : s.engine.immutableMemtable = some imm) :
    Quiet { s.wrote imm.snapshot with flusher := .written (s.changeOf imm.snapshot 0 [] .flush) } := by
  have hnoPuts : s.ImmutableNoPuts := h.immutableNoPuts (by simp [hpc])
  have hsst : imm.Only NotPut := hnoPuts imm himm
  refine ⟨h.memtable, Or.inl hnoPuts, ⟨hsst, ?_⟩, h.compactor,
    fun t ht => spent_writeTable (h.tables t ht) _, h.dir.1, ?_⟩
  · let sst := SSTable.flush imm.snapshot (sstableDir s.engine.dataDir) (s.engine.flushCounter + 1)
    show ((s.dir.writeTable sst).file? sst.path).isSome = true
    rw [DataDir.file?_writeTable, if_pos rfl]
    rfl
  · intro t ht
    rcases mem_wrote_dir ht with rfl | ht
    · exact hsst.flush _ _
    · exact h.dir.2 t ht

/-- The flush thread's copy has the tables of the version and its own. -/
theorem Quiet.flushCopy (h : s.Quiet) {c : Change} (hpc : s.flusher = .written c) :
    Quiet { s with flusher := .copied (c.edit s.engine.version.copyFrom) } := by
  have hc := h.flusher
  rw [hpc] at hc
  refine ⟨h.memtable, Or.inl (h.immutableNoPuts (by simp [hpc])), ?_, h.compactor, h.tables, h.dir⟩
  intro t ht
  rcases mem_sstables_edit ht with ht | rfl
  · exact h.tables t ht
  · exact hc

/-- installs it, -/
theorem Quiet.flushInstall (h : s.Quiet) {v : TableVersion} (hpc : s.flusher = .copied v) :
    Quiet { s with engine := { s.engine with version := v }, flusher := .installed } := by
  have hv := h.flusher
  rw [hpc] at hv
  exact ⟨h.memtable, Or.inl (h.immutableNoPuts (by simp [hpc])), trivial, h.compactor, hv, h.dir⟩

/-- and saves the metadata. -/
theorem Quiet.flushSave (h : s.Quiet) : Quiet
    { s with engine := s.engine.clearCache, dir := s.dir.saveMetadata s.engine, flusher := .saved } := by
  refine ⟨h.memtable, ?_, trivial, h.compactor, h.tables, h.dir⟩
  refine h.immutable.imp_right fun ⟨_, hc⟩ => ⟨Or.inr rfl, ?_⟩
  show s.engine.cache.map _ = none
  rw [hc]
  rfl

theorem uncached_clearCache (hfills : s.fills = []) : Uncached { s with engine := s.engine.clearCache } := by
  refine ⟨?_, hfills⟩
  intro c hc key
  obtain ⟨c₀, -, rfl⟩ := Option.map_eq_some_iff.mp hc
  exact LRUCache.find?_clear c₀ key

/-- The constructor finds no put on disk. -/
theorem Quiet.construct (h : s.Quiet) (hpc : s.flusher = .idle) {dataDir : Bytes} {cacheSize : Nat}
    {engine : StorageEngine} (hengine : s.dir.construct dataDir cacheSize = some engine) :
    Quiet { s with engine, linked := true } := by
  obtain ⟨v, n, q, hv, rfl⟩ := construct_eq_some hengine
  refine ⟨only_replay h.dir.1 MemTable.only_empty, ?_, ?_, h.compactor, ?_, h.dir⟩
  · exact Or.inl fun imm hi => absurd hi (by simp [StorageEngine.init])
  · show s.flusher.All _ _
    rw [hpc]
    trivial
  · intro t ht
    have hfile : s.dir.file? t.path = some t := hv t ht
    refine ⟨h.dir.2 t (mem_of_file? hfile), ?_⟩
    show (s.dir.file? t.path).isSome = true
    rw [hfile]
    rfl

/-- A new engine has an empty cache. -/
theorem uncached_construct (hfills : s.fills = []) {dataDir : Bytes} {cacheSize : Nat} {engine : StorageEngine}
    (hengine : s.dir.construct dataDir cacheSize = some engine) : Uncached { s with engine, linked := true } := by
  obtain ⟨v, n, q, -, rfl⟩ := construct_eq_some hengine
  refine ⟨?_, hfills⟩
  intro c hc key
  simp only [StorageEngine.init] at hc
  split_ifs at hc
  exact Option.some.inj hc ▸ SortedMap.find?_empty key

/-- **The fresh version leaves no put**, in a clean clear. -/
theorem quiet_clearVersion (h : s.CleanClear .clearVersion) :
    Quiet { s with engine := { s.engine with version := initial }, clearer := .installed } := by
  obtain ⟨hdir, hmem, hpending, hidle⟩ := h
  have htables : ∀ t ∈ initial.sstables, s.dir.Spent t := fun t ht => absurd ht List.not_mem_nil
  have hcompactor := CompactionRound.isIdle_iff.mp hidle
  unfold PendingClean at hpending
  cases hpc : s.flusher with
  | idle =>
      rw [hpc] at hpending
      exact ⟨hmem, Or.inl hpending, trivial, hcompactor, htables, hdir⟩
  | written c =>
      rw [hpc] at hpending
      exact ⟨hmem, Or.inl hpending.1, hpending.2, hcompactor, htables, hdir⟩
  | copied v =>
      rw [hpc] at hpending
      exact ⟨hmem, Or.inl hpending.1, hpending.2, hcompactor, htables, hdir⟩
  | installed =>
      rw [hpc] at hpending
      exact ⟨hmem, hpending.imp_right fun hc => ⟨Or.inl rfl, hc⟩, trivial, hcompactor, htables, hdir⟩
  | saved =>
      rw [hpc] at hpending
      exact ⟨hmem, hpending.imp_right fun hc => ⟨Or.inr rfl, hc⟩, trivial, hcompactor, htables, hdir⟩

/-- **No step but a request makes a put.** -/
theorem quiet_step (h : s.Quiet) {op : StoreOp} (hop : ∀ request, op ≠ .write request) (hremove : op ≠ .clearRemove)
    {s' : Store} (hs : s.step op = some s') : s'.Quiet := by
  have hidle {pc : CompactionRound} (hpc : s.compactor = pc) (hne : pc ≠ .idle) : s'.Quiet :=
    absurd (hpc.symm.trans h.compactor) hne
  cases Effect.of_step hs with
  | write request => exact absurd rfl (hop request)
  | get key => exact h.lookedUp key
  | fill hfill =>
      refine ⟨h.memtable, h.immutable.imp_right (And.imp_right ?_), h.flusher, h.compactor, h.tables, h.dir⟩
      intro hc
      show s.engine.cache.map _ = none
      rw [hc]
      rfl
  | rotate himm =>
      refine ⟨MemTable.only_empty, Or.inl ?_, h.flusher, h.compactor, h.tables, h.dir⟩
      intro imm hi
      exact Option.some.inj hi ▸ h.memtable
  | unlink =>
      exact ⟨h.memtable, h.immutable, h.flusher, h.compactor, h.tables, fun r hr => absurd hr List.not_mem_nil, h.dir.2⟩
  | flushEmpty hpc himm hempty =>
      exact ⟨h.memtable, Or.inl (h.immutableNoPuts (by simp [hpc])), trivial, h.compactor, h.tables, h.dir⟩
  | flushWrite hpc himm hne => exact h.flushWrite hpc himm
  | flushCopy hpc => exact h.flushCopy hpc
  | flushInstall hpc => exact h.flushInstall hpc
  | flushSave hpc => exact h.flushSave
  | flushReset hpc =>
      refine ⟨h.memtable, Or.inl ?_, trivial, h.compactor, h.tables, h.dir⟩
      intro imm hi
      exact absurd hi (by simp [StorageEngine.resetImmutable])
  | compactL0toL1 hpc hplan => exact absurd hplan (h.not_drawsFrom _)
  | compactlevelN hpc hplan => exact absurd hplan (h.not_drawsFrom _)
  | nothingInL0 => exact h
  | nothingInLevel => exact h
  | compactWrite hpc => exact hidle hpc (by simp)
  | compactCopy hpc => exact hidle hpc (by simp)
  | compactInstall hpc => exact hidle hpc (by simp)
  | compactSave hpc => exact hidle hpc (by simp)
  | compactRemove hpc => exact hidle hpc (by simp)
  | clearRemove hpc => exact absurd rfl hremove
  | clearMemtable hpc => exact ⟨MemTable.only_empty, h.immutable, h.flusher, h.compactor, h.tables, h.dir⟩
  | clearCounters hpc => exact ⟨h.memtable, h.immutable, h.flusher, h.compactor, h.tables, h.dir⟩
  | clearVersion hpc =>
      exact ⟨h.memtable, h.immutable, h.flusher, h.compactor, fun t ht => absurd ht List.not_mem_nil, h.dir⟩
  | clearCache hpc =>
      refine ⟨h.memtable, h.immutable.imp_right (And.imp_right ?_), h.flusher, h.compactor, h.tables, h.dir⟩
      intro hc
      show s.engine.cache.map _ = none
      rw [hc]
      rfl
  | restart hsettled hquiescent hengine => exact h.construct (settled_iff.mp hsettled).1 hengine

/-- The cache of a quiet store stays empty. -/
theorem uncached_step (hcache : s.Uncached) (h : s.Quiet) {op : StoreOp} {s' : Store} (hs : s.step op = some s') :
    s'.Uncached := by
  cases Effect.of_step hs with
  | write request =>
      refine ⟨?_, hcache.2⟩
      intro c hc key
      have hwrite : (s.engine.write request).cache = s.engine.cache.map (·.invalidate request.key) := by
        cases request <;> rfl
      obtain ⟨c₀, hc₀, rfl⟩ := Option.map_eq_some_iff.mp (hwrite.symm.trans hc)
      rw [Option.eq_none_iff_forall_ne_some]
      intro e he
      exact absurd ((hcache.1 c₀ hc₀ key).symm.trans (LRUCache.find?_invalidate he).2) (by simp)
  | get key => exact hcache.lookedUp h key
  | fill hfill =>
      rw [hcache.2] at hfill
      exact absurd hfill (by simp)
  | flushSave hpc => exact uncached_clearCache hcache.2
  | compactRemove hpc => exact uncached_clearCache hcache.2
  | clearCache hpc => exact uncached_clearCache hcache.2
  | restart hsettled hquiescent hengine => exact uncached_construct hcache.2 hengine
  | _ => exact hcache

theorem cleared_of_background {op : StoreOp} (hop : op.background = true) {s' : Store} (hs : s.step op = some s') :
    s'.clearer = s.clearer ∧ s'.cleared = s.cleared := by
  cases Effect.of_step hs with
  | write => exact absurd hop (by simp [StoreOp.background])
  | clearRemove => exact absurd hop (by simp [StoreOp.background])
  | clearMemtable => exact absurd hop (by simp [StoreOp.background])
  | clearCounters => exact absurd hop (by simp [StoreOp.background])
  | clearVersion => exact absurd hop (by simp [StoreOp.background])
  | clearCache => exact absurd hop (by simp [StoreOp.background])
  | _ => exact ⟨rfl, rfl⟩

/-- The other threads do not get the store to hold anything again. -/
theorem Cleared.background (h : s.Cleared) {op : StoreOp} (hop : op.background = true) {s' : Store}
    (hs : s.step op = some s') : s'.Cleared := by
  obtain ⟨hclearer, hcleared⟩ := cleared_of_background hop hs
  refine ⟨fun hnow => ?_, fun hnow => ?_⟩
  · rw [hclearer, hcleared] at hnow
    refine quiet_step (h.quiet hnow) ?_ ?_ hs
    · rintro request rfl
      exact absurd hop (by simp [StoreOp.background])
    · rintro rfl
      exact absurd hop (by simp [StoreOp.background])
  · rw [hcleared] at hnow
    obtain ⟨huncached, hidle⟩ := h.uncached hnow
    exact ⟨uncached_step huncached (h.quiet (Or.inr hnow)) hs, hclearer.trans hidle⟩

/-- While `clearData` runs, nothing counts as cleared. -/
theorem Cleared.not_cleared (h : s.Cleared) (hpc : s.clearer ≠ .idle) : s.cleared = false := by
  rw [Bool.eq_false_iff]
  intro hcleared
  exact hpc (h.uncached hcleared).2

/-- **One step**, in which `clearData` is clean. -/
theorem Cleared.step (h : s.Cleared) {op : StoreOp} (hC : s.CleanClear op) {s' : Store} (hs : s.step op = some s') :
    s'.Cleared := by
  by_cases hop : op.background = true
  · exact h.background hop hs
  cases Effect.of_step hs with
  | write request =>
      refine ⟨fun hnow => ?_, fun hnow => absurd hnow (by simp [Store.write])⟩
      rcases hnow with hinstalled | hcleared
      · exact absurd hinstalled hC
      · exact absurd hcleared (by simp [Store.write])
  | clearRemove hpc => exact ⟨fun hnow => absurd hnow (by simp), fun hnow => absurd hnow (by simp)⟩
  | clearMemtable hpc =>
      have hfalse := h.not_cleared (by simp [hpc])
      exact ⟨fun hnow => absurd hnow (by simp [hfalse]), fun hnow => absurd hnow (by simp [hfalse])⟩
  | clearCounters hpc =>
      have hfalse := h.not_cleared (by simp [hpc])
      exact ⟨fun hnow => absurd hnow (by simp [hfalse]), fun hnow => absurd hnow (by simp [hfalse])⟩
  | clearVersion hpc =>
      have hfalse := h.not_cleared (by simp [hpc])
      exact ⟨fun _ => quiet_clearVersion hC, fun hnow => absurd hnow (by simp [hfalse])⟩
  | clearCache hpc =>
      exact ⟨fun _ => quiet_step (h.quiet (Or.inl hpc)) (by simp) (by simp) hs,
        fun _ => ⟨uncached_clearCache (s := s) hC, rfl⟩⟩
  | _ => exact absurd rfl hop

end Steps

/-! ## C. Runs

The property in every state after a clear that met the condition, and a run for each of three parts of the condition
that violates just that part. -/

end Store

end KvStorageEngine
