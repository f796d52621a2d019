import KvStorageEngine.Engine.Store
import KvStorageEngine.Engine.Correctness.LevelRoundTrip
import KvStorageEngine.Engine.Correctness.OpenFiles
import KvStorageEngine.Engine.Correctness.Restart

/-!
# `Engine.Correctness.StoreRecords` — where the records of a store come from

What a store has in a memtable, a table, the log or a file was once a request, and no step makes up anything
else. So a property of single records (`Only`) is carried along by every step that moves records: copying a
memtable, flushing it, merging tables, replaying the log. `Effect.of_step` says once what each step does.

Layout of the file:
* **A** — memtables and tables whose records are all of one kind.
* **B** — compactions: a merge holds records of its inputs only.
* **C** — lookups: what is found was in a memtable or a table.
* **D** — the constructor: what it comes back with was in the log or in a table file.
* **E** — the effects of the steps.
-/

namespace KvStorageEngine

open TableVersion

variable [Platform]

/-! ## A. Records of one kind

A kind of records is a predicate on keys and entries. `Only` says that a memtable, a table or a version holds none but
records of the kind. -/

/-- All records of the memtable are of the kind `P`. -/
def MemTable.Only (P : Bytes → Entry → Prop) (m : MemTable) : Prop := ∀ k e, m.get k = some e → P k e

/-- All records of the table are of the kind `P`. -/
def SSTable.Only (P : Bytes → Entry → Prop) (t : SSTable) : Prop :=
  ∀ k e, t.records.find? k = some e → P k e

section Kinds

variable {P Q : Bytes → Entry → Prop}

omit [Platform] in
theorem MemTable.Only.mono {m : MemTable} (h : m.Only P) (hPQ : ∀ k e, P k e → Q k e) : m.Only Q :=
  fun k e he => hPQ k e (h k e he)

theorem SSTable.Only.mono {t : SSTable} (h : t.Only P) (hPQ : ∀ k e, P k e → Q k e) : t.Only Q :=
  fun k e he => hPQ k e (h k e he)

omit [Platform] in
theorem MemTable.only_empty : MemTable.empty.Only P := fun k e he => absurd he (by simp)

omit [Platform] in
/-- A request of the kind keeps the memtable of the kind. -/
theorem MemTable.Only.apply {m : MemTable} (h : m.Only P) {request : WriteRequest} {n : Nat}
    (hr : P request.key (request.entry n)) : (m.apply request n).Only P := by
  intro k e he
  rw [MemTable.get_apply] at he
  split_ifs at he with hk
  · obtain rfl := Option.some.inj he
    exact hk ▸ hr
  · exact h k e he

omit [Platform] in
/-- A replay leaves records of the log. -/
theorem only_replay {log : List LogRecord} (h : ∀ r ∈ log, P r.key r.entry) {m : MemTable} (hm : m.Only P) :
    (replay log m).Only P := by
  induction log generalizing m with
  | nil => exact hm
  | cons r log ih =>
      obtain ⟨hr, hlog⟩ := List.forall_mem_cons.mp h
      exact ih hlog (hm.apply hr)

/-- A flushed memtable has its records. -/
theorem MemTable.Only.flush {m : MemTable} (h : m.Only P) (dirPath : Bytes) (id : Nat) :
    (SSTable.flush m.snapshot dirPath id).Only P := h

end Kinds

/-! ## B. Compactions

What a compaction writes is of any kind that its inputs are of. -/

/-- The plan merges tables of the version. -/
def CompactionPlan.DrawsFrom (plan : CompactionPlan) (v : TableVersion) : Prop :=
  ∃ inputs : List (Nat × SSTable), (∀ p ∈ inputs, p.2 ∈ v.sstables) ∧
    mergePlan inputs plan.targetLevel = some plan

theorem mem_sstables_of_tablesOf {v : TableVersion} {metas : List SSTableMeta} {p : Nat × SSTable}
    (h : p ∈ v.tablesOf metas) : p.2 ∈ v.sstables := by
  obtain ⟨m, -, -, hm⟩ := mem_tablesOf.mp h
  exact findSSTableById_mem hm

/-- Both compactions draw their data from the version. -/
theorem planL0toL1_drawsFrom {v : TableVersion} {plan : CompactionPlan} (h : planL0toL1 v = some plan) :
    plan.DrawsFrom v := by
  unfold planL0toL1 at h
  split at h
  · exact absurd h (by simp)
  · obtain ⟨htarget, -⟩ := mergePlan_eq_some h
    refine ⟨_, ?_, htarget ▸ h⟩
    intro p hp
    rcases List.mem_append.mp hp with hp | hp
    · exact mem_sstables_of_tablesOf hp
    · exact mem_sstables_of_tablesOf hp

theorem planLevelN_drawsFrom {v : TableVersion} {level : Nat} {plan : CompactionPlan}
    (h : planLevelN v level = some plan) : plan.DrawsFrom v := by
  unfold planLevelN at h
  split_ifs at h
  split at h
  · exact absurd h (by simp)
  · split at h
    · exact absurd h (by simp)
    · rename_i ht
      obtain ⟨htarget, -⟩ := mergePlan_eq_some h
      refine ⟨_, ?_, htarget ▸ h⟩
      intro p hp
      rcases List.mem_cons.mp hp with rfl | hp
      · exact findSSTableById_mem ht
      · exact mem_sstables_of_tablesOf hp

namespace CompactionPlan.DrawsFrom

variable {plan : CompactionPlan} {v : TableVersion}

/-- What was merged are puts of the version. -/
theorem of_find? (h : plan.DrawsFrom v) {k : Bytes} {e : Entry} (hk : plan.mergedData.find? k = some e) :
    (∃ t ∈ v.sstables, t.records.find? k = some e) ∧ e.type = .put := by
  obtain ⟨inputs, hinputs, hplan⟩ := h
  obtain ⟨-, -, hmerged, -⟩ := mergePlan_eq_some hplan
  rw [hmerged] at hk
  obtain ⟨⟨t, ht, he⟩, hput⟩ := mem_inputs_of_mergeTables hk
  obtain ⟨p, hp, rfl⟩ := List.mem_map.mp ht
  exact ⟨⟨p.2, hinputs p hp, he⟩, hput⟩

/-- Something was merged. -/
theorem exists_find? (h : plan.DrawsFrom v) : ∃ k e, plan.mergedData.find? k = some e := by
  obtain ⟨inputs, -, hplan⟩ := h
  obtain ⟨-, -, -, hne⟩ := mergePlan_eq_some hplan
  obtain ⟨lo, hi, hlo, -⟩ := SortedMap.exists_bounds hne
  obtain ⟨e, he⟩ := SortedMap.firstKey?_mem hlo
  exact ⟨lo, e, he⟩

/-- The table that is written has records of the kind that the tables of the version have. -/
theorem flush_only (h : plan.DrawsFrom v) {P : Bytes → Entry → Prop} (hv : ∀ t ∈ v.sstables, t.Only P)
    (dirPath : Bytes) (id : Nat) : (SSTable.flush plan.mergedData dirPath id).Only P := by
  intro k e he
  obtain ⟨⟨t, ht, hk⟩, -⟩ := h.of_find? he
  exact hv t ht k e hk

end CompactionPlan.DrawsFrom

/-- After an edit the version has the new table and tables it had. -/
theorem mem_sstables_edit {c : Change} {v : TableVersion} {t : SSTable} (h : t ∈ (c.edit v).sstables) :
    t ∈ v.sstables ∨ t = c.sst := by
  have hsplit : t ∈ v.sstables ++ [c.sst] ∨ t ∈ (v.removeSSTablesByIds c.idsToRemove).sstables ++ [c.sst] := by
    unfold Change.edit at h
    cases hk : c.kind <;> rw [hk] at h
    · exact Or.inl h
    · exact Or.inr h
    · exact Or.inr h
  rcases hsplit with h | h
  · exact (List.mem_append.mp h).imp_right List.mem_singleton.mp
  · exact (List.mem_append.mp h).imp List.mem_of_mem_filter List.mem_singleton.mp

/-- An edit puts the new table on the level it names and moves no other. -/
theorem wellPlaced_edit {c : Change} {v : TableVersion} (h : WellPlaced v.levels) (hc : c.newMeta.HasWords) :
    WellPlaced (c.edit v).levels := by
  unfold Change.edit
  cases c.kind with
  | flush => exact forall_level_addSSTable (v := v) (Q := fun i m => m.level = i ∧ m.HasWords) h c.sst ⟨rfl, hc⟩
  | L0toL1 =>
      exact forall_level_installMerged (v := v) (Q := fun i m => m.level = i ∧ m.HasWords) h c.idsToRemove c.sst ⟨rfl, hc⟩
  | levelN =>
      dsimp only
      rw [editLevelN_eq]
      exact forall_level_installMerged (v := v) (Q := fun i m => m.level = i ∧ m.HasWords) h c.idsToRemove c.sst ⟨rfl, hc⟩

/-! ## C. Lookups

What a lookup finds is of any kind that the store is of. -/

section Search

variable {v : TableVersion} {key : Bytes}

omit [Platform] in
/-- Of two records, one. -/
theorem considerRecord_eq_some {candidate record : Option Entry} {e : Entry}
    (h : considerRecord candidate record = some e) : candidate = some e ∨ record = some e := by
  cases record with
  | none => exact Or.inl h
  | some r =>
      cases candidate with
      | none => exact Or.inr h
      | some c =>
          unfold considerRecord at h
          dsimp only at h
          split_ifs at h
          · exact Or.inr h
          · exact Or.inl h

/-- What level 0 answers is in one of its tables, or was found before. -/
theorem searchL0_eq_some {files : List SSTableMeta} {candidate : Option Entry} {e : Entry}
    (h : Id.run (searchL0 (fun sst => pure (sst.get key)) v files candidate) = some e) :
    candidate = some e ∨ ∃ t ∈ v.sstables, t.records.find? key = some e := by
  induction files generalizing candidate with
  | nil => exact Or.inl h
  | cons file files ih =>
      unfold searchL0 at h
      cases hf : v.findSSTableById file.id with
      | none =>
          rw [hf] at h
          exact ih h
      | some sst =>
          rw [hf] at h
          rcases ih h with h | h
          · rcases considerRecord_eq_some h with h | h
            · exact Or.inl h
            · exact Or.inr ⟨sst, findSSTableById_mem hf, sst.get_eq key ▸ h⟩
          · exact Or.inr h

theorem levelRecord_eq_some {files : List SSTableMeta} {e : Entry} (h : levelRecord v files key = some e) :
    ∃ t ∈ v.sstables, t.records.find? key = some e := by
  obtain ⟨t, hfile, ht⟩ := Option.bind_eq_some_iff.mp h
  obtain ⟨file, -, hfile⟩ := Option.bind_eq_some_iff.mp hfile
  exact ⟨t, findSSTableById_mem hfile, t.get_eq key ▸ ht⟩

/-- What a search ends with is the candidate it began with or a record of a table. -/
theorem searchLevels_eq_some {levels : List (List SSTableMeta)} {level : Nat} {candidate : Option Entry}
    {e : Entry}
    (h : Id.run (searchLevels (fun sst => pure (sst.get key)) v key level levels candidate) = some e) :
    candidate = some e ∨ ∃ t ∈ v.sstables, t.records.find? key = some e := by
  induction levels generalizing level candidate with
  | nil => exact Or.inl h
  | cons files levels ih =>
      by_cases hnil : files = []
      · subst hnil
        exact ih h
      · -- the candidate this level leaves
        rw [searchLevels_cons hnil] at h
        dsimp only at h
        generalize hc : (if level = 0 then Id.run (searchL0 (fun sst => pure (sst.get key)) v files candidate)
          else considerRecord candidate (levelRecord v files key)) = c at h
        have hlevel : c = some e → candidate = some e ∨ ∃ t ∈ v.sstables, t.records.find? key = some e := by
          rintro rfl
          split_ifs at hc
          · exact searchL0_eq_some hc
          · exact (considerRecord_eq_some hc).imp_right levelRecord_eq_some
        split_ifs at h
        · exact hlevel h
        · exact (ih h).elim hlevel Or.inr

end Search

/-- What a lookup finds is a record of a memtable or of a table. -/
theorem StorageEngine.lookup_eq_some {s : StorageEngine} {key : Bytes} {e : Entry}
    (h : s.lookup key = some e) :
    s.memtable.get key = some e ∨ (∃ imm, s.immutableMemtable = some imm ∧ imm.get key = some e) ∨
      ∃ t ∈ s.version.sstables, t.records.find? key = some e := by
  rcases searchLevels_eq_some h with h | h
  · rcases considerRecord_eq_some h with h | h
    · exact Or.inl h
    · exact Or.inr (Or.inl (Option.bind_eq_some_iff.mp h))
  · exact Or.inr (Or.inr h)

namespace Search

variable {α : Type} {look : SSTable → Option (Option Entry)} {key : Bytes}

/-- Where every look it takes succeeds, a search comes to its result. -/
theorem OnlyLooks.run_eq {P : SSTable → Prop} {x : Search α} (h : x.OnlyLooks P)
    (hlook : ∀ t, P t → look t = some (t.get key)) : x.run look = some (x.eval key) := by
  induction x with
  | pure a => rfl
  | look t next ih =>
      rw [run, hlook t h.1]
      exact ih _ (h.2 _)

end Search

namespace Store

variable {s : Store} {key : Bytes}

/-- A look at a table whose file is there. -/
theorem lookTable_of_file {t : SSTable} (h : s.dir.file? t.path ≠ none) : s.lookTable key t = some (t.get key) := by
  unfold lookTable
  rw [if_neg]
  simp [Option.isNone_iff_eq_none, h]

/-- With the files of all its tables there, the search is that of the engine. -/
theorem search_of_files (h : ∀ t ∈ s.engine.version.sstables, s.dir.file? t.path ≠ none) (key : Bytes) :
    s.search key = some (s.engine.lookup key) := by
  have hrun : s.search key = some ((resumableSearch s.engine.version key _).eval key) :=
    (onlyLooks_searchLevels _ _ _).run_eq fun t ht => lookTable_of_file (h t ht)
  rw [hrun, eval_resumableSearch]
  rfl

end Store

/-! ## D. The constructor

A new life finds the log and the tables that the metadata names. -/

theorem mem_of_file? {d : DataDir} {path : Bytes} {t : SSTable} (h : d.file? path = some t) : t ∈ d.sstables :=
  List.mem_of_find?_eq_some h

/-- A table that is found is found under its own path. -/
theorem path_of_file? {d : DataDir} {path : Bytes} {t : SSTable} (h : d.file? path = some t) : t.path = path := by
  simpa using List.find?_some h

/-- The tables that are loaded are files of the directory. -/
theorem file?_of_loadSSTables {d : DataDir} {dataDir : Bytes} {v : TableVersion} (hv : v.sstables = [])
    {t : SSTable} (h : t ∈ (loadSSTables d dataDir v).sstables) : d.file? t.path = some t := by
  change t ∈ v.sstables ++ _ at h
  rw [hv, List.nil_append] at h
  obtain ⟨m, -, hm⟩ := List.mem_filterMap.mp h
  rw [path_of_file? hm, hm]

/-- No table comes with the levels. -/
theorem sstables_loadLevelMetadata {n : Nat} {text : Option Bytes} {v : TableVersion}
    (h : loadLevelMetadata n text = some v) : v.sstables = [] := by
  unfold loadLevelMetadata at h
  cases text with
  | none => exact Option.some.inj h ▸ rfl
  | some text =>
      obtain ⟨levels, -, hv⟩ := Option.bind_eq_some_iff.mp h
      exact Option.some.inj hv ▸ rfl

/-- A recovery replays the log and goes past every number in it. -/
theorem recover_eq (s : StorageEngine) (log : List LogRecord) :
    ∃ q, s.recover log = { s with memtable := replay log s.memtable, seqNumber := q } ∧ s.seqNumber ≤ q ∧
      ∀ r ∈ log, r.seqNumber < q := by
  unfold StorageEngine.recover
  split_ifs with hempty
  · rw [List.isEmpty_iff.mp hempty]
    exact ⟨s.seqNumber, rfl, Nat.le_refl _, fun r hr => absurd hr List.not_mem_nil⟩
  · obtain ⟨hq, hlog⟩ := le_foldl_max log s.seqNumber
    exact ⟨_, rfl, hq.trans (Nat.le_succ _), fun r hr => Nat.lt_succ_of_le (hlog r hr)⟩

/-- Whatever text it reads, the constructor comes back with a replayed log and tables of the directory. -/
theorem construct_eq_some {d : DataDir} {dataDir : Bytes} {cacheSize : Nat} {engine : StorageEngine}
    (h : d.construct dataDir cacheSize = some engine) :
    ∃ v n q, (∀ t ∈ v.sstables, d.file? t.path = some t) ∧ engine = { StorageEngine.init dataDir cacheSize with
      version := v, flushCounter := n, seqNumber := q, memtable := replay d.log MemTable.empty } := by
  unfold DataDir.construct at h
  cases hmeta : d.metadata with
  | none =>
      rw [hmeta] at h
      obtain ⟨q, hrecover, -⟩ := recover_eq (StorageEngine.init dataDir cacheSize) d.log
      refine ⟨initial, 0, q, fun t ht => absurd ht List.not_mem_nil, ?_⟩
      exact (Option.some.inj h).symm.trans hrecover
  | some text =>
      rw [hmeta] at h
      obtain ⟨⟨n, q⟩, -, h⟩ := Option.bind_eq_some_iff.mp h
      obtain ⟨v, hload, h⟩ := Option.bind_eq_some_iff.mp h
      have hv : v.sstables = [] := sstables_loadLevelMetadata hload
      obtain ⟨q', hrecover, -⟩ := recover_eq { StorageEngine.init dataDir cacheSize with
        version := loadSSTables d dataDir v, flushCounter := n, seqNumber := q } d.log
      refine ⟨loadSSTables d dataDir v, n, q', fun t => file?_of_loadSSTables hv, ?_⟩
      exact (Option.some.inj h).symm.trans hrecover

/-! ## E. The effects of the steps

One constructor for each thing a step can do; the invariants of this development go by cases on it. -/

/-- What the flush thread has in hand. -/
def FlushRound.All (C : Change → Prop) (V : TableVersion → Prop) : FlushRound → Prop
  | .written c => C c
  | .copied v => V v
  | .idle | .installed | .saved => True

/-- What the compaction thread has in hand. -/
def CompactionRound.All (M : CompactionPlan → Prop) (C : Change → Prop) (V : TableVersion → Prop) :
    CompactionRound → Prop
  | .merged plan _ => M plan
  | .written c => C c
  | .copied v _ => V v
  | .idle | .installed _ | .saved _ => True

theorem FlushRound.All.mono {C C' : Change → Prop} {V V' : TableVersion → Prop} {r : FlushRound} (h : r.All C V)
    (hC : ∀ c, C c → C' c) (hV : ∀ v, V v → V' v) : r.All C' V' := by
  cases r with
  | written c => exact hC c h
  | copied v => exact hV v h
  | _ => trivial

theorem CompactionRound.All.mono {M M' : CompactionPlan → Prop} {C C' : Change → Prop} {V V' : TableVersion → Prop}
    {r : CompactionRound} (h : r.All M C V) (hM : ∀ plan, M plan → M' plan) (hC : ∀ c, C c → C' c)
    (hV : ∀ v, V v → V' v) : r.All M' C' V' := by
  cases r with
  | merged plan kind => exact hM plan h
  | written c => exact hC c h
  | copied v ids => exact hV v h
  | _ => trivial

namespace Store

variable {s : Store}

/-- `settled`, as a proposition. -/
theorem settled_iff : s.settled = true ↔ s.flusher = .idle ∧ s.engine.immutableMemtable = none := by
  unfold settled
  cases s.flusher <;> cases s.engine.immutableMemtable <;> simp

/-- `quiescent`, as a proposition. -/
theorem quiescent_iff : s.quiescent = true ↔ s.compactor = .idle ∧ s.clearer = .idle ∧ s.fills = [] := by
  unfold quiescent
  cases s.compactor <;> cases s.clearer <;> cases s.fills <;> simp

/-- The change that a table written now is for. -/
def changeOf (s : Store) (data : SortedMap Bytes Entry) (level : Nat) (idsToRemove : List Nat) (kind : EditKind) :
    Change := (s.writeTable data level idsToRemove kind).1

/-- The store with the table written. -/
def wrote (s : Store) (data : SortedMap Bytes Entry) : Store := (s.writeTable data 0 [] .flush).2

/-- A table file after a write is the new one or was there before. -/
theorem mem_wrote_dir {data : SortedMap Bytes Entry} {t : SSTable} (h : t ∈ (s.wrote data).dir.sstables) :
    t = SSTable.flush data (sstableDir s.engine.dataDir) (s.engine.flushCounter + 1) ∨ t ∈ s.dir.sstables :=
  (List.mem_cons.mp h).imp_right List.mem_of_mem_filter

/-- The next table is written to a path where no file is. Over a file it would keep that file's index. -/
def FreshPath (s : Store) : Prop :=
  (s.dir.file? (sstablePath (sstableDir s.engine.dataDir) (s.engine.flushCounter + 1))).isNone = true

instance (s : Store) : Decidable s.FreshPath := inferInstanceAs (Decidable (_ = _))

/-- The effects of the steps. A compaction with nothing to do changes nothing. -/
inductive Effect (s : Store) : StoreOp → Store → Prop where
  | write (request : WriteRequest) : Effect s (.write request) (s.write request)
  | get (key : Bytes) : Effect s (.get key) (s.lookedUp key)
  | fill {i : Nat} {key : Bytes} {out : Entry} (hfill : s.fills[i]? = some (key, out)) : Effect s (.fill i) { s with
      engine := { s.engine with cache := s.engine.cache.map (LRUCache.put · key out) }
      fills := s.fills.eraseIdx i }
  | rotate (himm : s.engine.immutableMemtable = none) : Effect s .rotate { s with
      engine := { s.engine with immutableMemtable := some s.engine.memtable, memtable := MemTable.empty }
      unlinks := s.unlinks + 1 }
  | unlink : Effect s .unlink
      { s with dir := { s.dir with log := [] }, linked := false, unlinks := s.unlinks - 1 }
  | flushEmpty {imm : MemTable} (hpc : s.flusher = .idle) (himm : s.engine.immutableMemtable = some imm)
      (hempty : imm.snapshot.isEmpty = true) : Effect s .flushWrite { s with flusher := .saved }
  | flushWrite {imm : MemTable} (hpc : s.flusher = .idle) (himm : s.engine.immutableMemtable = some imm)
      (hne : imm.snapshot.isEmpty = false) :
      Effect s .flushWrite { s.wrote imm.snapshot with flusher := .written (s.changeOf imm.snapshot 0 [] .flush) }
  | flushCopy {c : Change} (hpc : s.flusher = .written c) :
      Effect s .flushCopy { s with flusher := .copied (c.edit s.engine.version.copyFrom) }
  | flushInstall {v : TableVersion} (hpc : s.flusher = .copied v) :
      Effect s .flushInstall { s with engine := { s.engine with version := v }, flusher := .installed }
  | flushSave (hpc : s.flusher = .installed) : Effect s .flushSave
      { s with engine := s.engine.clearCache, dir := s.dir.saveMetadata s.engine, flusher := .saved }
  | flushReset (hpc : s.flusher = .saved) : Effect s .flushReset
      { s with engine := s.engine.resetImmutable, flusher := .idle }
  | compactL0toL1 {plan : CompactionPlan} (hpc : s.compactor = .idle) (hplan : plan.DrawsFrom s.engine.version) :
      Effect s .compactL0toL1 { s with compactor := .merged plan .L0toL1 }
  | compactlevelN {level : Nat} {plan : CompactionPlan} (hpc : s.compactor = .idle)
      (hplan : plan.DrawsFrom s.engine.version) :
      Effect s (.compactlevelN level) { s with compactor := .merged plan .levelN }
  | nothingInL0 : Effect s .compactL0toL1 s
  | nothingInLevel {level : Nat} : Effect s (.compactlevelN level) s
  | compactWrite {plan : CompactionPlan} {kind : EditKind} (hpc : s.compactor = .merged plan kind) :
      Effect s .compactWrite { s.wrote plan.mergedData with
        compactor := .written (s.changeOf plan.mergedData plan.targetLevel plan.idsToRemove kind) }
  | compactCopy {c : Change} (hpc : s.compactor = .written c) :
      Effect s .compactCopy { s with compactor := .copied (c.edit s.engine.version.copyFrom) c.idsToRemove }
  | compactInstall {v : TableVersion} {ids : List Nat} (hpc : s.compactor = .copied v ids) :
      Effect s .compactInstall { s with engine := { s.engine with version := v }, compactor := .installed ids }
  | compactSave {ids : List Nat} (hpc : s.compactor = .installed ids) :
      Effect s .compactSave { s with dir := s.dir.saveMetadata s.engine, compactor := .saved ids }
  | compactRemove {ids : List Nat} (hpc : s.compactor = .saved ids) : Effect s .compactRemove { s with
      engine := s.engine.clearCache
      dir := s.dir.removeTables s.engine.dataDir ids
      compactor := .idle }
  | clearRemove (hpc : s.clearer = .idle) : Effect s .clearRemove { s with
      dir := if s.insideData then DataDir.empty else s.dir
      linked := s.linked && !s.insideData
      clearer := .removed
      cleared := false }
  | clearMemtable (hpc : s.clearer = .removed) : Effect s .clearMemtable
      { s with engine := { s.engine with memtable := MemTable.empty }, clearer := .emptied }
  | clearCounters (hpc : s.clearer = .emptied) : Effect s .clearCounters
      { s with engine := { s.engine with flushCounter := 0, seqNumber := 1 }, clearer := .counted }
  | clearVersion (hpc : s.clearer = .counted) : Effect s .clearVersion
      { s with engine := { s.engine with version := initial }, clearer := .installed }
  | clearCache (hpc : s.clearer = .installed) : Effect s .clearCache
      { s with engine := s.engine.clearCache, clearer := .idle, cleared := true }
  | restart {cacheSize : Nat} {engine : StorageEngine} (hsettled : s.settled = true)
      (hquiescent : s.quiescent = true) (h : s.dir.construct s.engine.dataDir cacheSize = some engine) :
      Effect s (.restart cacheSize) { s with engine, linked := true }

theorem beginCompaction_eq_some {s' : Store} {plan : Option CompactionPlan} {kind : EditKind}
    (h : s.beginCompaction plan kind = some s') :
    s' = s ∨ s.compactor = .idle ∧ ∃ p, plan = some p ∧ s' = { s with compactor := .merged p kind } := by
  unfold beginCompaction at h
  split at h
  · rename_i hpc
    cases plan with
    | none => exact Or.inl (Option.some.inj h).symm
    | some p => exact Or.inr ⟨hpc, p, rfl, (Option.some.inj h).symm⟩
  · exact absurd h (by simp)

/-- Every step has one of these effects. -/
theorem Effect.of_step {s s' : Store} {op : StoreOp} (h : s.step op = some s') : Effect s op s' := by
  cases op with
  | write request => exact Option.some.inj h ▸ .write request
  | get key => exact Option.some.inj h ▸ .get key
  | fill i =>
      simp only [Store.step] at h
      split at h
      · rename_i key out hfill
        exact Option.some.inj h ▸ .fill hfill
      · exact absurd h (by simp)
  | rotate =>
      obtain ⟨engine, hengine, rfl⟩ := Option.map_eq_some_iff.mp h
      obtain ⟨himm, rfl⟩ := StorageEngine.rotate_eq_some hengine
      exact .rotate himm
  | unlink =>
      simp only [Store.step] at h
      split_ifs at h
      exact Option.some.inj h ▸ .unlink
  | flushWrite =>
      simp only [Store.step] at h
      split at h
      · rename_i imm hpc himm
        split_ifs at h with hempty
        · exact Option.some.inj h ▸ .flushEmpty hpc himm hempty
        · exact Option.some.inj h ▸ .flushWrite hpc himm (by simpa using hempty)
      · exact absurd h (by simp)
  | flushCopy =>
      simp only [Store.step] at h
      split at h
      · rename_i hpc
        exact Option.some.inj h ▸ .flushCopy hpc
      · exact absurd h (by simp)
  | flushInstall =>
      simp only [Store.step] at h
      split at h
      · rename_i hpc
        exact Option.some.inj h ▸ .flushInstall hpc
      · exact absurd h (by simp)
  | flushSave =>
      simp only [Store.step] at h
      split at h
      · rename_i hpc
        exact Option.some.inj h ▸ .flushSave hpc
      · exact absurd h (by simp)
  | flushReset =>
      simp only [Store.step] at h
      split at h
      · rename_i hpc
        exact Option.some.inj h ▸ .flushReset hpc
      · exact absurd h (by simp)
  | compactL0toL1 =>
      rcases beginCompaction_eq_some h with rfl | ⟨hpc, plan, hplan, rfl⟩
      · exact .nothingInL0
      · exact .compactL0toL1 hpc (planL0toL1_drawsFrom hplan)
  | compactlevelN level =>
      rcases beginCompaction_eq_some h with rfl | ⟨hpc, plan, hplan, rfl⟩
      · exact .nothingInLevel
      · exact .compactlevelN hpc (planLevelN_drawsFrom hplan)
  | compactWrite =>
      simp only [Store.step] at h
      split at h
      · rename_i hpc
        exact Option.some.inj h ▸ .compactWrite hpc
      · exact absurd h (by simp)
  | compactCopy =>
      simp only [Store.step] at h
      split at h
      · rename_i hpc
        exact Option.some.inj h ▸ .compactCopy hpc
      · exact absurd h (by simp)
  | compactInstall =>
      simp only [Store.step] at h
      split at h
      · rename_i hpc
        exact Option.some.inj h ▸ .compactInstall hpc
      · exact absurd h (by simp)
  | compactSave =>
      simp only [Store.step] at h
      split at h
      · rename_i hpc
        exact Option.some.inj h ▸ .compactSave hpc
      · exact absurd h (by simp)
  | compactRemove =>
      simp only [Store.step] at h
      split at h
      · rename_i hpc
        exact Option.some.inj h ▸ .compactRemove hpc
      · exact absurd h (by simp)
  | clearRemove =>
      simp only [Store.step] at h
      split at h
      · rename_i hpc
        exact Option.some.inj h ▸ .clearRemove hpc
      · exact absurd h (by simp)
  | clearMemtable =>
      simp only [Store.step] at h
      split at h
      · rename_i hpc
        exact Option.some.inj h ▸ .clearMemtable hpc
      · exact absurd h (by simp)
  | clearCounters =>
      simp only [Store.step] at h
      split at h
      · rename_i hpc
        exact Option.some.inj h ▸ .clearCounters hpc
      · exact absurd h (by simp)
  | clearVersion =>
      simp only [Store.step] at h
      split at h
      · rename_i hpc
        exact Option.some.inj h ▸ .clearVersion hpc
      · exact absurd h (by simp)
  | clearCache =>
      simp only [Store.step] at h
      split at h
      · rename_i hpc
        exact Option.some.inj h ▸ .clearCache hpc
      · exact absurd h (by simp)
  | restart cacheSize =>
      simp only [Store.step] at h
      split_ifs at h with hready
      obtain ⟨engine, hengine, rfl⟩ := Option.map_eq_some_iff.mp h
      exact .restart hready.1 hready.2.1 hengine

end Store

end KvStorageEngine
