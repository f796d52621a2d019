import KvStorageEngine.Engine.Correctness.MetadataText
import KvStorageEngine.Engine.Correctness.EngineInvariant

/-!
# `Engine.Correctness.Restart` — what a store reads after a restart

The constructor loads the saved version and replays the log on top of it. The replayed memtable may well be
older than the tables, and the search of level 0 does not mind: it looks at every table, whatever the memtable
gave. So a key is read as the newest of the records that the log and the saved tables have of it
(`Restarted.lookup_picks`), as long as the version has level 0 only.

Layout of the file:
* **A** — a replayed log.
* **B** — the search of a version with level 0 only.
* **C** — the constructor.
-/

namespace KvStorageEngine

open Layered TableVersion

variable [Platform]

/-! ## A. A replayed log

A replay leaves the record of a key that comes last, which is the one with the highest number as long as the numbers
ascend. -/

/-- The log has the record `e` of `key`. -/
def InLog (log : List LogRecord) (key : Bytes) (e : Entry) : Prop := ∃ r ∈ log, r.key = key ∧ r.entry = e

/-- The sequence numbers of the log increase. -/
def Ascending (log : List LogRecord) : Prop := log.Pairwise (·.seqNumber < ·.seqNumber)

omit [Platform] in
@[simp] theorem seq_entry (r : LogRecord) : r.entry.seq = r.seqNumber := WriteRequest.seq_entry _ _

omit [Platform] in
theorem InLog.mono {log log' : List LogRecord} {key : Bytes} {e : Entry} (h : InLog log key e)
    (hsub : ∀ r ∈ log, r ∈ log') : InLog log' key e := by
  obtain ⟨r, hr, hk, he⟩ := h
  exact ⟨r, hsub r hr, hk, he⟩

omit [Platform] in
/-- In an ascending log the sequence number determines the record. -/
theorem Ascending.unique {log : List LogRecord} (h : Ascending log) {key : Bytes} {e e' : Entry}
    (he : InLog log key e) (he' : InLog log key e') (hseq : e.seq = e'.seq) : e = e' := by
  obtain ⟨r, hr, -, rfl⟩ := he
  obtain ⟨r', hr', -, rfl⟩ := he'
  rw [seq_entry, seq_entry] at hseq
  obtain ⟨i, hi, rfl⟩ := List.getElem_of_mem hr
  obtain ⟨j, hj, rfl⟩ := List.getElem_of_mem hr'
  have hpair := List.pairwise_iff_getElem.mp h
  rcases Nat.lt_trichotomy i j with hij | rfl | hij
  · have := hpair i j hi hj hij
    omega
  · rfl
  · have := hpair j i hj hi hij
    omega

omit [Platform] in
/-- The last record is applied last. -/
theorem replay_concat (log : List LogRecord) (r : LogRecord) (m : MemTable) :
    replay (log ++ [r]) m = (replay log m).apply r.request r.seqNumber := by
  unfold replay
  rw [List.foldl_append]
  rfl

omit [Platform] in
/-- The last record of a key is the one that a replay leaves. -/
theorem get_replay_concat (log : List LogRecord) (r : LogRecord) (m : MemTable) (key : Bytes) :
    (replay (log ++ [r]) m).get key = if key = r.key then some r.entry else (replay log m).get key := by
  rw [replay_concat, MemTable.get_apply]
  rfl

omit [Platform] in
/-- **A replay** leaves the newest record of every key. -/
theorem replay_picks {log : List LogRecord} (hlog : Ascending log) (key : Bytes) :
    Picks Entry.seq (InLog log key) ((replay log MemTable.empty).get key) := by
  induction log using List.reverseRecOn with
  | nil =>
      rintro e ⟨r, hr, -⟩
      exact absurd hr List.not_mem_nil
  | append_singleton log r ih =>
      obtain ⟨hlog, -, hlast⟩ := List.pairwise_append.mp hlog
      have hlast : ∀ x ∈ log, x.seqNumber < r.seqNumber := fun x hx => hlast x hx r List.mem_cons_self
      rw [get_replay_concat]
      split_ifs with hkey
      · refine ⟨⟨r, by simp, hkey.symm, rfl⟩, ?_⟩
        rintro e ⟨x, hx, -, rfl⟩
        rw [seq_entry, seq_entry]
        rcases List.mem_append.mp hx with hx | hx
        · exact (hlast x hx).le
        · rw [List.mem_singleton.mp hx]
      · refine (ih hlog).congr fun e => ⟨fun h => h.mono fun x hx => List.mem_append_left _ hx, ?_⟩
        rintro ⟨x, hx, hk, he⟩
        rcases List.mem_append.mp hx with hx | hx
        · exact ⟨x, hx, hk, he⟩
        · rw [List.mem_singleton.mp hx] at hk
          exact absurd hk.symm hkey

/-! ## B. Level 0 only

All tables are on level 0, so the search looks at every one of them and takes the newest record it finds. -/

section Flat

variable {dataDir : Bytes} {n : Nat} {v : TableVersion} {key : Bytes}

/-- Empty levels are skipped. -/
theorem searchLevels_of_empty {levels : List (List SSTableMeta)} (h : ∀ files ∈ levels, files = [])
    (level : Nat) (candidate : Option Entry) :
    Id.run (searchLevels (fun sst => pure (sst.get key)) v key level levels candidate) = candidate := by
  induction levels generalizing level with
  | nil => rfl
  | cons files levels ih =>
      obtain ⟨rfl, hrest⟩ := List.forall_mem_cons.mp h
      exact ih hrest (level + 1)

/-- A version with level 0 only is searched by the scan of level 0. -/
theorem searchVersion_of_deep (hdeep : ∀ i, 0 < i → v.level i = []) (candidate : Option Entry) :
    searchVersion v key candidate
      = Id.run (searchL0 (fun sst => pure (sst.get key)) v (v.level 0) candidate) := by
  unfold searchVersion
  unfold level at hdeep ⊢
  cases hl : v.levels with
  | nil => rfl
  | cons files levels =>
      have hrest : ∀ x ∈ levels, x = [] := by
        intro x hx
        obtain ⟨i, hi, rfl⟩ := List.getElem_of_mem hx
        have hdeep := hdeep (i + 1) (Nat.succ_pos i)
        rw [hl] at hdeep
        simpa [List.getD, hi] using hdeep
      by_cases hnil : files = []
      · subst hnil
        exact searchLevels_of_empty (List.forall_mem_cons.mpr ⟨rfl, hrest⟩) 0 candidate
      · rw [searchLevels_cons hnil]
        dsimp only
        rw [searchLevels_of_empty hrest, if_pos rfl]
        exact ite_self _

/-- What level 0 holds is what the tables have. -/
theorem TableVersion.Flat.holds_iff (h : v.Flat dataDir n) (hdir : ExactIds dataDir) {e : Entry} :
    v.Holds 0 key e ↔ ∃ t ∈ v.sstables, t.records.find? key = some e := by
  constructor
  · rintro ⟨m, hm, t, ht, hk⟩
    exact ⟨t, ((h.findSSTableById_eq_some hdir).mp ht).1, hk⟩
  · rintro ⟨t, ht, hk⟩
    obtain ⟨m, hm, hp⟩ := h.exists_id ht
    rw [h.metas_eq] at hm
    exact ⟨m, hm, t, (h.findSSTableById_eq_some hdir).mpr ⟨ht, hp⟩, hk⟩

/-- **The search** of a version with level 0 only picks the newest of the records seen before and all the
    tables have, in whatever order they came about. -/
theorem TableVersion.Flat.searchVersion_picks (h : v.Flat dataDir n) (hdir : ExactIds dataDir)
    (key : Bytes) {S : Entry → Prop} {candidate : Option Entry} (hc : Picks Entry.seq S candidate) :
    Picks Entry.seq (fun e => S e ∨ ∃ t ∈ v.sstables, t.records.find? key = some e)
      (searchVersion v key candidate) := by
  rw [searchVersion_of_deep h.deep]
  refine (searchL0_picks (v.level 0) hc).congr fun e => or_congr_right ?_
  exact h.holds_iff hdir

end Flat

/-! ## C. The constructor

After the constructor every record that was on disk is in the memtable or in a table, and a lookup takes the newest
(`Restarted`). -/

/-- The log or a table of the version has the record `e` of `key`. -/
def OnDisk (log : List LogRecord) (v : TableVersion) (key : Bytes) (e : Entry) : Prop :=
  InLog log key e ∨ ∃ t ∈ v.sstables, t.records.find? key = some e

/-- The engine after a restart on a directory whose saved metadata is that of `v` with the counters `n`
    and `q`. -/
structure Restarted (dataDir : Bytes) (log : List LogRecord) (n q : Nat) (v : TableVersion)
    (e : StorageEngine) : Prop where
  dataDir_eq : e.dataDir = dataDir
  flat : e.version.Flat dataDir n
  sstables : e.version.sstables = v.sstables
  flushCounter : e.flushCounter = n
  memtable : e.memtable = replay log MemTable.empty
  immutable : e.immutableMemtable = none
  above_saved : q ≤ e.seqNumber
  above_log : ∀ r ∈ log, r.seqNumber < e.seqNumber
  get_eq : ∀ key, (e.get key).1 = answer (e.lookup key)

omit [Platform] in
/-- The sequence number after a replay is not below any that was seen. -/
theorem le_foldl_max (log : List LogRecord) (q : Nat) :
    q ≤ log.foldl (fun n r => max n r.seqNumber) q ∧
      ∀ r ∈ log, r.seqNumber ≤ log.foldl (fun n r => max n r.seqNumber) q := by
  induction log generalizing q with
  | nil => exact ⟨Nat.le_refl _, by simp⟩
  | cons r log ih =>
      obtain ⟨hq, hlog⟩ := ih (max q r.seqNumber)
      exact ⟨(Nat.le_max_left _ _).trans hq,
        List.forall_mem_cons.mpr ⟨(Nat.le_max_right _ _).trans hq, hlog⟩⟩

/-- A cache that has just been made answers nothing. -/
theorem get_of_new_cache {e : StorageEngine} {cacheSize : Nat}
    (h : e.cache = if cacheSize > 0 then some (LRUCache.new cacheSize) else none) (key : Bytes) :
    (e.get key).1 = answer (e.lookup key) := by
  split_ifs at h with hpos
  · rw [StorageEngine.get_miss h (by rfl)]
  · rw [StorageEngine.get_uncached h]

/-- **The constructor** comes back on what was saved. -/
theorem restarted_of_saved {dataDir : Bytes} {d : DataDir} {n q : Nat} {v : TableVersion}
    (h : Saved dataDir d n q v) (cacheSize : Nat) :
    ∃ e, d.construct dataDir cacheSize = some e ∧ Restarted dataDir d.log n q v e := by
  obtain ⟨v', hlevel, hsst, hconstruct⟩ := construct_of_saved h cacheSize
  refine ⟨_, hconstruct, ?_⟩
  have hflat : v'.Flat dataDir n := h.flat.congr hlevel hsst
  unfold StorageEngine.recover
  split_ifs with hlog
  · rw [List.isEmpty_iff] at hlog
    rw [hlog]
    exact ⟨rfl, hflat, hsst, rfl, rfl, rfl, Nat.le_refl _, by simp, get_of_new_cache rfl⟩
  · obtain ⟨hq, hmax⟩ := le_foldl_max d.log q
    exact ⟨rfl, hflat, hsst, rfl, rfl, rfl, Nat.le_succ_of_le hq,
      fun r hr => Nat.lt_succ_of_le (hmax r hr), get_of_new_cache rfl⟩

/-- **A key is read** as the newest of its records on disk. -/
theorem Restarted.lookup_picks {dataDir : Bytes} {log : List LogRecord} {n q : Nat} {v : TableVersion}
    {e : StorageEngine} (h : Restarted dataDir log n q v e) (hdir : ExactIds dataDir)
    (hlog : Ascending log) (key : Bytes) : Picks Entry.seq (OnDisk log v key) (e.lookup key) := by
  unfold StorageEngine.lookup
  rw [h.immutable, h.memtable]
  have hpicks := h.flat.searchVersion_picks hdir key (replay_picks hlog key)
  rw [h.sstables] at hpicks
  exact hpicks

end KvStorageEngine
