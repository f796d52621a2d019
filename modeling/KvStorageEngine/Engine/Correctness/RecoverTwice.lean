import KvStorageEngine.Engine.Correctness.EngineInvariant
import KvStorageEngine.Engine.Correctness.LogReplay
import KvStorageEngine.Lib.KeyedWrites

/-!
# `Engine.Correctness.RecoverTwice` — recovering once more

`main` calls `recover` on an engine whose constructor has done so already. The second replay takes every key through its
older records again, and ends with the last one as the first replay did: what a replay leaves at a key is what the last
record of the log says about it (`get_foldl_applyRecord`). Which records these are, and where a damaged one ends them,
is up to the bytes of the file, and these are the same both times.
-/

namespace KvStorageEngine

open KeyedWrites

/-! ## A. What a replay leaves

Only puts and deletes change the memtable, and of several records of a key the last one counts, whatever was there
before. -/

namespace WalRecord

/-- The entry that `recover` makes of a record. -/
def entry (r : WalRecord) : Entry :=
  if r.op = opPut then ⟨r.value, r.seqNumber.toNat, .put⟩ else ⟨[], r.seqNumber.toNat, .delete⟩

/-- `recover` does nothing with a record of another operation. -/
def isApplied (r : WalRecord) : Bool := r.op = opPut || r.op = opDelete

end WalRecord

/-- One record, seen at one key. -/
theorem get_applyRecord (m : MemTable) (r : WalRecord) (k : Bytes) :
    (m.applyRecord r).get k = if r.isApplied ∧ r.key = k then some r.entry else m.get k := by
  unfold MemTable.applyRecord WalRecord.isApplied WalRecord.entry
  by_cases hput : r.op = opPut
  · simp [hput, MemTable.get_put, eq_comm]
  · by_cases hdelete : r.op = opDelete
    · simp [hdelete, opPut, opDelete, MemTable.get_del, eq_comm]
    · simp [hput, hdelete]

/-- **A replay** leaves at each key the last record that is applied. -/
theorem get_foldl_applyRecord (rs : List WalRecord) (m : MemTable) (k : Bytes) :
    (rs.foldl MemTable.applyRecord m).get k =
      ((lastOn WalRecord.key k (rs.filter WalRecord.isApplied)).map WalRecord.entry).or (m.get k) := by
  induction rs using List.reverseRecOn with
  | nil => rfl
  | append_singleton rs r ih =>
      rw [List.foldl_append, List.foldl_cons, List.foldl_nil, get_applyRecord, ih, List.filter_append]
      by_cases happlied : r.isApplied = true
      · rw [List.filter_cons_of_pos happlied, List.filter_nil, lastOn_concat]
        by_cases hk : r.key = k
        · rw [if_pos ⟨happlied, hk⟩, if_pos hk]
          rfl
        · rw [if_neg fun h => hk h.2, if_neg hk]
      · rw [List.filter_cons_of_neg happlied, List.filter_nil, List.append_nil, if_neg fun h => happlied h.1]

/-- The same records once more change nothing. -/
theorem foldl_applyRecord_twice (rs : List WalRecord) (m : MemTable) :
    rs.foldl MemTable.applyRecord (rs.foldl MemTable.applyRecord m) = rs.foldl MemTable.applyRecord m := by
  apply MemTable.ext_get
  intro k
  rw [get_foldl_applyRecord rs (rs.foldl _ m), get_foldl_applyRecord rs m, ← Option.or_assoc, Option.or_self]

/-! ## B. The engine

The second replay starts from a memtable that the first one has filled. Lookups in between change the cache and
nothing else, and what they put into it is what the memtable says. -/

section Engine

variable [Platform]

namespace StorageEngine

/-- `get` does not read the sequence number. -/
theorem get_seqNumber (s : StorageEngine) (n : Nat) (key : Bytes) :
    ({ s with seqNumber := n }.get key).1 = (s.get key).1 := by
  cases hc : s.cache with
  | none =>
      rw [get_uncached hc, get_uncached (s := { s with seqNumber := n, cache := none }) rfl]
      rfl
  | some c =>
      rcases hg : c.get key with ⟨_ | e, c'⟩
      · rw [get_miss hc hg, get_miss (s := { s with seqNumber := n, cache := some c }) rfl hg]
        rfl
      · rw [get_hit hc hg, get_hit (s := { s with seqNumber := n, cache := some c }) rfl hg]

variable [Zlib] {s : StorageEngine} {logFile : Bytes}

/-- The memtable has what the log says. -/
def Recovered (logFile : Bytes) (s : StorageEngine) : Prop :=
  (WriteAheadLog.replay logFile).foldl MemTable.applyRecord s.memtable = s.memtable

/-- After a replay the engine is recovered. -/
theorem recovered_recoverFile (s : StorageEngine) (logFile : Bytes) : Recovered logFile (s.recoverFile logFile) := by
  unfold Recovered recoverFile
  split_ifs with hempty
  · rw [List.isEmpty_iff.mp hempty]
    rfl
  · exact foldl_applyRecord_twice _ _

/-- A lookup leaves it so. -/
theorem Recovered.get (h : Recovered logFile s) (key : Bytes) : Recovered logFile (s.get key).2 := by
  obtain ⟨cache, hs, -⟩ := get_snd s key
  rw [hs]
  exact h

/-- Recovering once more advances the sequence number at most. -/
theorem Recovered.recoverFile (h : Recovered logFile s) :
    ∃ n, s.recoverFile logFile = { s with seqNumber := n } := by
  unfold Recovered at h
  unfold StorageEngine.recoverFile
  split_ifs
  · exact ⟨s.seqNumber, rfl⟩
  · exact ⟨_, by dsimp only; rw [h]⟩

end StorageEngine

variable [Zlib]

/-- **Recovery is idempotent.** Whatever the directory has, a second `recover`, right after the constructor or after
    some lookups, changes the answer of no `get`. -/
theorem get_recover_twice {d : DataDir} {logFile dataDir : Bytes} {cacheSize : Nat} {s : StorageEngine}
    (h : d.constructFile logFile dataDir cacheSize = some s) (lookups : List Bytes) (key : Bytes) :
    let s' := lookups.foldl (fun s key => (s.get key).2) s
    ((s'.recoverFile logFile).get key).1 = (s'.get key).1 := by
  intro s'
  obtain ⟨s₀, -, rfl⟩ := Option.map_eq_some_iff.mp h
  have hrecovered : s'.Recovered logFile := by
    refine List.foldlRecOn lookups _ (s₀.recovered_recoverFile logFile) ?_
    exact fun s hs key _ => hs.get key
  obtain ⟨n, hn⟩ := hrecovered.recoverFile
  rw [hn, StorageEngine.get_seqNumber]

/-- Two puts of one key, and a few bytes more. -/
def overwrittenLog : Bytes :=
  encodeLog [⟨opPut, Bytes.ascii "a", Bytes.ascii "1", 1⟩, ⟨opPut, Bytes.ascii "a", Bytes.ascii "2", 2⟩] ++
    Bytes.ascii "torn"

end Engine

theorem get_recover_twice_overwrittenLog : letI := Platform.sample; letI := Zlib.bitwise
    ∃ s, DataDir.empty.constructFile overwrittenLog (Bytes.ascii "data") 10 = some s ∧
      (s.get (Bytes.ascii "a")).1 = some ⟨Bytes.ascii "2", 2, .put⟩ ∧
        ((s.recoverFile overwrittenLog).get (Bytes.ascii "a")).1 = (s.get (Bytes.ascii "a")).1 := by
  let := Platform.sample
  let := Zlib.bitwise
  obtain ⟨s, hs⟩ : ∃ s, DataDir.empty.constructFile overwrittenLog (Bytes.ascii "data") 10 = some s := ⟨_, rfl⟩
  have hget : (DataDir.empty.constructFile overwrittenLog (Bytes.ascii "data") 10).map
      (fun s => (s.get (Bytes.ascii "a")).1) = some (some ⟨Bytes.ascii "2", 2, .put⟩) := by decide +kernel
  rw [hs] at hget
  exact ⟨s, hs, Option.some.inj hget, get_recover_twice hs [] (Bytes.ascii "a")⟩

end KvStorageEngine
