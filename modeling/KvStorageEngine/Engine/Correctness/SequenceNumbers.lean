import KvStorageEngine.Engine.Correctness.StoreRecords

/-!
# `Engine.Correctness.SequenceNumbers` — the counter never goes back

The constructor rebuilds the counter from `metadata.txt` and from the log, either of which may be missing, or
older than the other. That is enough (`assigned_above_held`), because of what a stop leaves behind: every record
in a table file was there when the metadata was last saved, and every other record that comes back is in the log.

The invariant (`Numbered`) bounds every record of the store by the counter, those in the hands of the flush thread and
of the compaction thread included, and the table files moreover by the saved counter, unless one of the threads has
written a table that it has yet to save. It also keeps the saved text readable, so that a stop can always be followed by
a constructor (`restart_of_settled`).
-/

namespace KvStorageEngine

open TextStream TableVersion Run

variable [Platform]

/-! ## A. The constructor on saved text

What `saveMetadata` has written is what the constructor reads back. -/

/-- A record with a word for a key and a sequence number below `n`. -/
def Below (n : Nat) (key : Bytes) (e : Entry) : Prop := IsWord key ∧ e.seq < n

omit [Platform] in
theorem Below.mono {n n' : Nat} (h : n ≤ n') (key : Bytes) (e : Entry) (hb : Below n key e) : Below n' key e :=
  ⟨hb.1, hb.2.trans_le h⟩

/-- The metadata files are those of a version with the levels `levels`, or nothing was ever saved. -/
def SavedText (d : DataDir) (n q : Nat) (levels : List (List SSTableMeta)) : Prop :=
  (d.metadata = none ∧ d.levels = none ∧ n = 0 ∧ q = 1) ∨
    (d.metadata = some (printCounters n q) ∧ d.levels = some (printLevels levels))

/-- The constructor comes back on readable text, with tables of the directory. -/
theorem construct_of_savedText {d : DataDir} {n q : Nat} {levels : List (List SSTableMeta)}
    (h : SavedText d n q levels) (hplaced : WellPlaced levels) (dataDir : Bytes) (cacheSize : Nat) :
    ∃ v, (∀ t ∈ v.sstables, t ∈ d.sstables) ∧ WellPlaced v.levels ∧
      d.construct dataDir cacheSize = some ({ StorageEngine.init dataDir cacheSize with
        version := v
        flushCounter := n
        seqNumber := q }.recover d.log) := by
  rcases h with ⟨hmeta, -, rfl, rfl⟩ | ⟨hmeta, hlevels⟩
  · refine ⟨initial, fun t ht => absurd ht List.not_mem_nil, wellPlaced_initial, ?_⟩
    unfold DataDir.construct
    rw [hmeta]
    rfl
  · obtain ⟨levels', hload, hlevel⟩ := loadLevelMetadata_of_printed n hlevels hplaced
    refine ⟨loadSSTables d dataDir ⟨levels', [], 0, n⟩, ?_, ?_, ?_⟩
    · exact fun t ht => mem_of_file? (file?_of_loadSSTables rfl ht)
    · intro i m hm
      exact hplaced i m (hlevel i ▸ hm)
    · unfold DataDir.construct
      rw [hmeta]
      simp only [loadCounters_printCounters, hload, Option.bind_eq_bind, Option.bind_some]

/-- The range of a table is between words when its keys are. -/
theorem hasWords_flush {data : SortedMap Bytes Entry} (h : ∀ k e, data.find? k = some e → IsWord k) {key : Bytes}
    {e : Entry} (hkey : data.find? key = some e) (dirPath : Bytes) (id : Nat) :
    IsWord (SSTable.flush data dirPath id).minKey ∧ IsWord (SSTable.flush data dirPath id).maxKey := by
  have hne : data.isEmpty = false := by
    rw [Bool.eq_false_iff, Ne, SortedMap.isEmpty_iff]
    intro hall
    rw [hall key] at hkey
    exact absurd hkey (by simp)
  obtain ⟨lo, hi, hlo, hhi⟩ := SortedMap.exists_bounds hne
  obtain ⟨a, ha⟩ := SortedMap.firstKey?_mem hlo
  obtain ⟨b, hb⟩ := SortedMap.lastKey?_mem hhi
  show IsWord (data.firstKey?.getD []) ∧ IsWord (data.lastKey?.getD [])
  rw [hlo, hhi]
  exact ⟨h lo a ha, h hi b hb⟩

/-! ## B. The invariant

Every record has a number below the counter, whether it is in a memtable, in a table, in a copy that a thread holds or
in the log; and so has every record that the saved counter covers. -/

/-- A change to the version with records below `n`, between words. -/
def ChangeBelow (n : Nat) (c : Change) : Prop := c.sst.Only (Below n) ∧ c.newMeta.HasWords

/-- A version whose tables have records below `n`, and whose levels can be saved. -/
def VersionBelow (n : Nat) (v : TableVersion) : Prop :=
  (∀ t ∈ v.sstables, t.Only (Below n)) ∧ WellPlaced v.levels

/-- A merge with records below `n`, not an empty one. -/
def PlanBelow (n : Nat) (plan : CompactionPlan) : Prop :=
  (∀ k e, plan.mergedData.find? k = some e → Below n k e) ∧ ∃ k e, plan.mergedData.find? k = some e

theorem ChangeBelow.mono {n n' : Nat} (h : n ≤ n') {c : Change} (hc : ChangeBelow n c) : ChangeBelow n' c :=
  ⟨hc.1.mono (Below.mono h), hc.2⟩

theorem VersionBelow.mono {n n' : Nat} (h : n ≤ n') {v : TableVersion} (hv : VersionBelow n v) : VersionBelow n' v :=
  ⟨fun t ht => (hv.1 t ht).mono (Below.mono h), hv.2⟩

omit [Platform] in
theorem PlanBelow.mono {n n' : Nat} (h : n ≤ n') {plan : CompactionPlan} (hp : PlanBelow n plan) : PlanBelow n' plan :=
  ⟨fun k e he => Below.mono h k e (hp.1 k e he), hp.2⟩

/-- An edit adds no larger number. -/
theorem VersionBelow.edit {n : Nat} {v : TableVersion} (hv : VersionBelow n v) {c : Change} (hc : ChangeBelow n c) :
    VersionBelow n (c.edit v) := by
  refine ⟨?_, wellPlaced_edit hv.2 hc.2⟩
  intro t ht
  rcases mem_sstables_edit ht with ht | rfl
  · exact hv.1 t ht
  · exact hc.1

/-- A merge of the version's tables. -/
theorem VersionBelow.plan {n : Nat} {v : TableVersion} (hv : VersionBelow n v) {plan : CompactionPlan}
    (hplan : plan.DrawsFrom v) : PlanBelow n plan := by
  refine ⟨?_, hplan.exists_find?⟩
  intro k e he
  obtain ⟨⟨t, ht, hk⟩, -⟩ := hplan.of_find? he
  exact hv.1 t ht k e hk

/-- A table is written and the metadata not saved yet. -/
def FlushRound.unsaved : FlushRound → Bool
  | .written _ | .copied _ | .installed => true
  | .idle | .saved => false

def CompactionRound.unsaved : CompactionRound → Bool
  | .written _ | .copied _ _ | .installed _ => true
  | .idle | .merged _ _ | .saved _ => false

namespace Store

/-- Every record is numbered below the counter, and the records in table files below the saved counter once the
    metadata is saved. -/
structure Numbered (s : Store) : Prop where
  memtable : s.engine.memtable.Only (Below s.engine.seqNumber)
  immutable : ∀ imm, s.engine.immutableMemtable = some imm → imm.Only (Below s.engine.seqNumber)
  flusher : s.flusher.All (ChangeBelow s.engine.seqNumber) (VersionBelow s.engine.seqNumber)
  compactor : s.compactor.All (PlanBelow s.engine.seqNumber) (ChangeBelow s.engine.seqNumber)
    (VersionBelow s.engine.seqNumber)
  version : VersionBelow s.engine.seqNumber s.engine.version
  log : ∀ r ∈ s.dir.log, Below s.engine.seqNumber r.key r.entry
  files : ∀ t ∈ s.dir.sstables, t.Only (Below s.engine.seqNumber)
  saved : ∃ n q levels, SavedText s.dir n q levels ∧ WellPlaced levels ∧ q ≤ s.engine.seqNumber ∧
    (s.flusher.unsaved = false → s.compactor.unsaved = false → ∀ t ∈ s.dir.sstables, t.Only (Below q))

/-- The steps of a store with words for keys, `clearData` excluded. -/
def Steady : StoreOp → Prop
  | .write request => IsWord request.key
  | .clearRemove => False
  | _ => True

instance : DecidablePred Steady
  | .write request => inferInstanceAs (Decidable (IsWord request.key))
  | .clearRemove => isFalse id
  | .get _ | .fill _ | .rotate | .unlink | .flushWrite | .flushCopy | .flushInstall | .flushSave | .flushReset
  | .compactL0toL1 | .compactlevelN _ | .compactWrite | .compactCopy | .compactInstall | .compactSave | .compactRemove
  | .clearMemtable | .clearCounters | .clearVersion | .clearCache | .restart _ => isTrue trivial

/-- A new store holds nothing. -/
theorem numbered_fresh (dataDir : Bytes) (cacheSize : Nat) (insideData : Bool) :
    (fresh dataDir cacheSize insideData).Numbered where
  memtable := MemTable.only_empty
  immutable _ h := absurd h (by simp [fresh, StorageEngine.init])
  flusher := trivial
  compactor := trivial
  version := ⟨fun t ht => absurd ht List.not_mem_nil, wellPlaced_initial⟩
  log r hr := absurd hr List.not_mem_nil
  files t ht := absurd ht List.not_mem_nil
  saved := ⟨0, 1, [], Or.inl ⟨rfl, rfl, rfl, rfl⟩, fun _ _ hm => absurd hm List.not_mem_nil, Nat.le_refl _,
    fun _ _ t ht => absurd ht List.not_mem_nil⟩

section Steps

variable {s : Store}

/-! ## C. The steps

The counter only grows, except in a constructor, which finds it in the metadata and in the log. -/

/-- A request takes the next number. -/
theorem Numbered.write (h : s.Numbered) {request : WriteRequest} (hkey : IsWord request.key) :
    (s.write request).Numbered := by
  have hle : s.engine.seqNumber ≤ s.engine.seqNumber + 1 := Nat.le_succ _
  have hup := Below.mono hle
  have hnew : Below (s.engine.seqNumber + 1) request.key (request.entry s.engine.seqNumber) :=
    ⟨hkey, by rw [WriteRequest.seq_entry]; exact Nat.lt_succ_self _⟩
  have hengine : (s.engine.write request).memtable = s.engine.memtable.apply request s.engine.seqNumber ∧
      (s.engine.write request).seqNumber = s.engine.seqNumber + 1 ∧
      (s.engine.write request).immutableMemtable = s.engine.immutableMemtable ∧
      (s.engine.write request).version = s.engine.version := by
    cases request <;> exact ⟨rfl, rfl, rfl, rfl⟩
  obtain ⟨hmem, hseq, himm, hversion⟩ := hengine
  obtain ⟨n, q, levels, htext, hplaced, hq, hfiles⟩ := h.saved
  refine ⟨?_, ?_, ?_, ?_, ?_, ?_, ?_, n, q, levels, htext, hplaced, ?_, hfiles⟩ <;>
    simp only [Store.write, hmem, hseq, himm, hversion]
  · exact (h.memtable.mono hup).apply hnew
  · intro imm hi
    exact (h.immutable imm hi).mono hup
  · exact h.flusher.mono (fun _ => ChangeBelow.mono hle) fun _ => VersionBelow.mono hle
  · exact h.compactor.mono (fun _ => PlanBelow.mono hle) (fun _ => ChangeBelow.mono hle) fun _ => VersionBelow.mono hle
  · exact h.version.mono hle
  · intro r hr
    split_ifs at hr
    · rcases List.mem_append.mp hr with hr | hr
      · exact hup _ _ (h.log r hr)
      · rw [List.mem_singleton.mp hr]
        exact hnew
    · exact hup _ _ (h.log r hr)
  · intro t ht
    exact (h.files t ht).mono hup
  · exact hq.trans hle

/-- The change that a table of such records is for. -/
theorem changeBelow_changeOf {n : Nat} {data : SortedMap Bytes Entry} (h : ∀ k e, data.find? k = some e → Below n k e)
    (hne : ∃ k e, data.find? k = some e) (level : Nat) (ids : List Nat) (kind : EditKind) :
    ChangeBelow n (s.changeOf data level ids kind) := by
  obtain ⟨key, e, hkey⟩ := hne
  exact ⟨h, hasWords_flush (fun k e hk => (h k e hk).1) hkey (sstableDir s.engine.dataDir) (s.engine.flushCounter + 1)⟩

/-- A table file more. -/
theorem Numbered.files_wrote (h : s.Numbered) {data : SortedMap Bytes Entry}
    (hdata : ∀ k e, data.find? k = some e → Below s.engine.seqNumber k e) :
    ∀ t ∈ (s.wrote data).dir.sstables, t.Only (Below s.engine.seqNumber) := by
  intro t ht
  rcases mem_wrote_dir ht with rfl | ht
  · exact hdata
  · exact h.files t ht

/-- **The constructor** starts from a counter above everything it finds. -/
theorem Numbered.construct (h : s.Numbered) (hflusher : s.flusher = .idle) (hcompactor : s.compactor = .idle)
    (dataDir : Bytes) (cacheSize : Nat) :
    ∃ engine, s.dir.construct dataDir cacheSize = some engine ∧
      Numbered { s with engine, linked := true } := by
  obtain ⟨n, q, levels, htext, hplaced, -, hfiles⟩ := h.saved
  replace hfiles := hfiles (by rw [hflusher]; rfl) (by rw [hcompactor]; rfl)
  obtain ⟨v, hv, hlevels, hconstruct⟩ := construct_of_savedText htext hplaced dataDir cacheSize
  obtain ⟨q', hrecover, hq, hlog⟩ := recover_eq { StorageEngine.init dataDir cacheSize with
    version := v, flushCounter := n, seqNumber := q } s.dir.log
  have hup : ∀ k e, Below q k e → Below q' k e := Below.mono hq
  have hlog : ∀ r ∈ s.dir.log, Below q' r.key r.entry := fun r hr =>
    ⟨(h.log r hr).1, by rw [seq_entry]; exact hlog r hr⟩
  refine ⟨_, hconstruct.trans (congrArg some hrecover), ?_⟩
  refine ⟨only_replay hlog MemTable.only_empty, ?_, ?_, ?_, ⟨?_, hlevels⟩, hlog, ?_, n, q, levels, htext, hplaced, hq,
    fun _ _ => hfiles⟩
  · intro _ himm
    exact absurd himm (by simp [StorageEngine.init])
  · show s.flusher.All _ _
    rw [hflusher]
    trivial
  · show s.compactor.All _ _ _
    rw [hcompactor]
    trivial
  · intro t ht
    exact (hfiles t (hv t ht)).mono hup
  · intro t ht
    exact (hfiles t ht).mono hup

/-- A save takes in everything that is in a file. -/
theorem Numbered.savedText (h : s.Numbered) :
    ∃ n q levels, SavedText (s.dir.saveMetadata s.engine) n q levels ∧ WellPlaced levels ∧ q ≤ s.engine.seqNumber ∧
      ∀ t ∈ s.dir.sstables, t.Only (Below q) :=
  ⟨_, _, _, Or.inr ⟨rfl, rfl⟩, h.version.2, Nat.le_refl _, h.files⟩

/-- **The invariant is kept by every step** but those of a `clearData`. -/
theorem Numbered.step (h : s.Numbered) (hclear : s.clearer = .idle) {op : StoreOp} (hop : Steady op) {s' : Store}
    (hs : s.step op = some s') : s'.Numbered := by
  have hnot {pc : ClearRound} (hpc : s.clearer = pc) (hne : pc ≠ .idle) : s'.Numbered :=
    absurd (hpc.symm.trans hclear) hne
  obtain ⟨n, q, levels, htext, hplaced, hq, hfiles⟩ := h.saved
  cases Effect.of_step hs with
  | write request => exact h.write hop
  | get key => exact ⟨h.memtable, h.immutable, h.flusher, h.compactor, h.version, h.log, h.files, h.saved⟩
  | fill hfill => exact ⟨h.memtable, h.immutable, h.flusher, h.compactor, h.version, h.log, h.files, h.saved⟩
  | rotate himm =>
      refine ⟨MemTable.only_empty, ?_, h.flusher, h.compactor, h.version, h.log, h.files, h.saved⟩
      intro imm hi
      exact Option.some.inj hi ▸ h.memtable
  | unlink =>
      refine ⟨h.memtable, h.immutable, h.flusher, h.compactor, h.version, ?_, h.files, h.saved⟩
      intro r hr
      exact absurd hr List.not_mem_nil
  | flushEmpty hpc himm hempty =>
      refine ⟨h.memtable, h.immutable, trivial, h.compactor, h.version, h.log, h.files, n, q, levels, htext, hplaced, hq,
        fun _ => hfiles (by rw [hpc]; rfl)⟩
  | @flushWrite imm hpc himm hne =>
      have hdata := h.immutable imm himm
      have hsome : ∃ k e, imm.snapshot.find? k = some e := by
        obtain ⟨lo, hi, hlo, -⟩ := SortedMap.exists_bounds hne
        obtain ⟨e, he⟩ := SortedMap.firstKey?_mem hlo
        exact ⟨lo, e, he⟩
      exact ⟨h.memtable, h.immutable, changeBelow_changeOf hdata hsome _ _ _, h.compactor, h.version, h.log,
        h.files_wrote hdata, n, q, levels, htext, hplaced, hq, fun hsaved => absurd hsaved (by simp [FlushRound.unsaved])⟩
  | flushCopy hpc =>
      have hc := h.flusher
      rw [hpc] at hc
      exact ⟨h.memtable, h.immutable, VersionBelow.edit (v := s.engine.version.copyFrom) h.version hc, h.compactor,
        h.version, h.log, h.files, n, q, levels, htext, hplaced, hq,
        fun hsaved => absurd hsaved (by simp [FlushRound.unsaved])⟩
  | flushInstall hpc =>
      have hv := h.flusher
      rw [hpc] at hv
      exact ⟨h.memtable, h.immutable, trivial, h.compactor, hv, h.log, h.files, n, q, levels, htext, hplaced, hq,
        fun hsaved => absurd hsaved (by simp [FlushRound.unsaved])⟩
  | flushSave hpc =>
      obtain ⟨n, q, levels, htext, hplaced, hq, hfiles⟩ := h.savedText
      exact ⟨h.memtable, h.immutable, trivial, h.compactor, h.version, h.log, h.files, n, q, levels, htext, hplaced, hq,
        fun _ _ => hfiles⟩
  | flushReset hpc =>
      refine ⟨h.memtable, ?_, trivial, h.compactor, h.version, h.log, h.files, n, q, levels, htext, hplaced, hq,
        fun _ => hfiles (by rw [hpc]; rfl)⟩
      intro _ himm
      exact absurd himm (by simp [StorageEngine.resetImmutable])
  | compactL0toL1 hpc hplan =>
      exact ⟨h.memtable, h.immutable, h.flusher, h.version.plan hplan, h.version, h.log, h.files, n, q, levels, htext,
        hplaced, hq, fun hsaved _ => hfiles hsaved (by rw [hpc]; rfl)⟩
  | compactlevelN hpc hplan =>
      exact ⟨h.memtable, h.immutable, h.flusher, h.version.plan hplan, h.version, h.log, h.files, n, q, levels, htext,
        hplaced, hq, fun hsaved _ => hfiles hsaved (by rw [hpc]; rfl)⟩
  | nothingInL0 => exact h
  | nothingInLevel => exact h
  | compactWrite hpc =>
      have hplan := h.compactor
      rw [hpc] at hplan
      exact ⟨h.memtable, h.immutable, h.flusher, changeBelow_changeOf hplan.1 hplan.2 _ _ _, h.version, h.log,
        h.files_wrote hplan.1, n, q, levels, htext, hplaced, hq,
        fun _ hsaved => absurd hsaved (by simp [CompactionRound.unsaved])⟩
  | compactCopy hpc =>
      have hc := h.compactor
      rw [hpc] at hc
      exact ⟨h.memtable, h.immutable, h.flusher, VersionBelow.edit (v := s.engine.version.copyFrom) h.version hc,
        h.version, h.log, h.files, n, q, levels, htext, hplaced, hq,
        fun _ hsaved => absurd hsaved (by simp [CompactionRound.unsaved])⟩
  | compactInstall hpc =>
      have hv := h.compactor
      rw [hpc] at hv
      exact ⟨h.memtable, h.immutable, h.flusher, trivial, hv, h.log, h.files, n, q, levels, htext, hplaced, hq,
        fun _ hsaved => absurd hsaved (by simp [CompactionRound.unsaved])⟩
  | compactSave hpc =>
      obtain ⟨n, q, levels, htext, hplaced, hq, hfiles⟩ := h.savedText
      exact ⟨h.memtable, h.immutable, h.flusher, trivial, h.version, h.log, h.files, n, q, levels, htext, hplaced, hq,
        fun _ _ => hfiles⟩
  | compactRemove hpc =>
      refine ⟨h.memtable, h.immutable, h.flusher, trivial, h.version, h.log, ?_, n, q, levels, htext, hplaced, hq, ?_⟩
      · intro t ht
        exact h.files t (List.mem_of_mem_filter ht)
      · intro hsaved _ t ht
        exact hfiles hsaved (by rw [hpc]; rfl) t (List.mem_of_mem_filter ht)
  | clearRemove hpc => exact absurd hop id
  | clearMemtable hpc => exact hnot hpc (by simp)
  | clearCounters hpc => exact hnot hpc (by simp)
  | clearVersion hpc => exact hnot hpc (by simp)
  | clearCache hpc => exact hnot hpc (by simp)
  | restart hsettled hquiescent hengine =>
      obtain ⟨engine, hconstruct, hnumbered⟩ := h.construct (settled_iff.mp hsettled).1 (quiescent_iff.mp hquiescent).1
        s.engine.dataDir _
      obtain rfl := Option.some.inj (hconstruct.symm.trans hengine)
      exact hnumbered

/-- Without a first step of `clearData` there is none of the others. -/
theorem clearer_step (hclear : s.clearer = .idle) {op : StoreOp} (hop : Steady op) {s' : Store}
    (hs : s.step op = some s') : s'.clearer = .idle := by
  cases Effect.of_step hs with
  | clearRemove hpc => exact absurd hop id
  | clearMemtable hpc => exact absurd (hpc.symm.trans hclear) (by simp)
  | clearCounters hpc => exact absurd (hpc.symm.trans hclear) (by simp)
  | clearVersion hpc => exact absurd (hpc.symm.trans hclear) (by simp)
  | clearCache hpc => rfl
  | _ => exact hclear

end Steps

/-! ## D. Runs

Runs with any number of stops in between. -/

/-- **The invariant holds after every run** without `clearData`. -/
theorem numbered_of_exec {dataDir : Bytes} {cacheSize : Nat} {insideData : Bool} {ops : List StoreOp}
    (hops : ∀ op ∈ ops, Steady op) {s : Store}
    (h : exec step (fresh dataDir cacheSize insideData) ops = some s) : s.Numbered := by
  have hboth := exec_invariant_of_meets (I := fun s : Store => s.Numbered ∧ s.clearer = .idle)
    (C := fun _ op => Steady op) ⟨numbered_fresh dataDir cacheSize insideData, rfl⟩
    (fun _ _ _ hinv hop hs => ⟨hinv.1.step hinv.2 hop hs, clearer_step hinv.2 hop hs⟩)
    (meets_of_forall (fun op hop _ => hops op hop) _) h
  exact hboth.1

/-- A store at rest can be stopped and comes back. -/
theorem restart_of_settled {dataDir : Bytes} {cacheSize : Nat} {insideData : Bool} {ops : List StoreOp}
    (hops : ∀ op ∈ ops, Steady op) {s : Store}
    (h : exec step (fresh dataDir cacheSize insideData) ops = some s) (hsettled : s.settled = true)
    (hquiescent : s.quiescent = true) (hunlinks : s.unlinks = 0) (cacheSize' : Nat) :
    (s.step (.restart cacheSize')).isSome := by
  obtain ⟨engine, hconstruct, -⟩ := (numbered_of_exec hops h).construct (settled_iff.mp hsettled).1
    (quiescent_iff.mp hquiescent).1 s.engine.dataDir cacheSize'
  simp only [step, hsettled, hquiescent, hunlinks, and_self, if_true, hconstruct, Option.map_some, Option.isSome_some]

/-- The engine has the record `e` of `key` in a memtable or in a table of its version. -/
def HoldsRecord (s : StorageEngine) (key : Bytes) (e : Entry) : Prop :=
  s.memtable.get key = some e ∨ (∃ imm, s.immutableMemtable = some imm ∧ imm.get key = some e) ∨
    ∃ t ∈ s.version.sstables, t.records.find? key = some e

/-- **Sequence numbers never go back.** In every run without `clearData`, a request leaves its record under a
    number above that of every record the engine has at that time. -/
theorem assigned_above_held {dataDir : Bytes} {cacheSize : Nat} {insideData : Bool} {ops : List StoreOp}
    {request : WriteRequest} (hops : ∀ op ∈ ops ++ [.write request], Steady op) {s' : Store}
    (h : exec step (fresh dataDir cacheSize insideData) (ops ++ [.write request]) = some s') :
    ∃ s n, exec step (fresh dataDir cacheSize insideData) ops = some s ∧
      s'.engine.memtable.get request.key = some (request.entry n) ∧
      ∀ key e, HoldsRecord s.engine key e → e.seq < n := by
  obtain ⟨s, hs, hstep⟩ := exec_concat_eq_some h
  have hinv := numbered_of_exec (fun op hop => hops op (List.mem_append_left _ hop)) hs
  obtain rfl := Option.some.inj hstep
  refine ⟨s, s.engine.seqNumber, hs, ?_, ?_⟩
  · have hmem : (s.engine.write request).memtable = s.engine.memtable.apply request s.engine.seqNumber := by
      cases request <;> rfl
    show (s.engine.write request).memtable.get request.key = _
    rw [hmem, MemTable.get_apply, if_pos rfl]
  · rintro key e (he | ⟨imm, himm, he⟩ | ⟨t, ht, he⟩)
    · exact (hinv.memtable key e he).2
    · exact (hinv.immutable imm himm key e he).2
    · exact (hinv.version.1 t ht key e he).2

/-- A table is flushed, a later request is lost with the unlinked log, and the store is restarted. -/
def restarted : List StoreOp :=
  [.write (.put (Bytes.ascii "a") (Bytes.ascii "1")), .rotate, .unlink, .flushWrite, .flushCopy, .flushInstall,
    .flushSave, .flushReset, .write (.delete (Bytes.ascii "b")), .restart 0]

omit [Platform] in
theorem assigned_above_held_restarted : letI := Platform.sample
    ∃ s n s', exec step (fresh (Bytes.ascii "data") 0 true) restarted = some s ∧
      s.step (.write (.delete (Bytes.ascii "a"))) = some s' ∧
      s'.engine.memtable.get (Bytes.ascii "a") = some ((WriteRequest.delete (Bytes.ascii "a")).entry n) ∧
      ∀ key e, HoldsRecord s.engine key e → e.seq < n := by
  let := Platform.sample
  have hrun : (exec step (fresh (Bytes.ascii "data") 0 true)
      (restarted ++ [.write (.delete (Bytes.ascii "a"))])).isSome := by decide +kernel
  obtain ⟨s', hs'⟩ := Option.isSome_iff_exists.mp hrun
  obtain ⟨s, n, hs, hmem, hheld⟩ := assigned_above_held (by decide +kernel) hs'
  refine ⟨s, n, s', hs, ?_, hmem, hheld⟩
  rw [exec_concat, hs] at hs'
  exact hs'

end Store

end KvStorageEngine
