import KvStorageEngine.Engine.Types
import KvStorageEngine.Engine.BloomFilter
import KvStorageEngine.Lib.SortedMap

/-!
# `Engine.SSTable` — an immutable sorted table

`engine/src/sstable.cpp`, above the file format: a table is its path, the key range and the filter kept in
memory, and the records its file holds in key order. The sparse index only narrows the scan inside the
file and has no part here. A table carries the two facts that make a rejected lookup final: every record's
key is inside the range and passes the filter.
-/

namespace KvStorageEngine

variable [Platform]

/-- A table: path, key range and Bloom filter in memory, records on disk. -/
structure SSTable where
  path : Bytes
  minKey : Bytes
  maxKey : Bytes
  bloomFilter : BloomFilter
  records : SortedMap Bytes Entry
  in_range : ∀ k e, records.find? k = some e → minKey ≤ k ∧ k ≤ maxKey
  in_filter : ∀ k e, records.find? k = some e → bloomFilter.contains k = true

/-- The path of the table with a given id in `dirPath`. -/
def sstablePath (dirPath : Bytes) (id : Nat) : Bytes :=
  dirPath ++ Bytes.ascii "sstable_" ++ Bytes.toDecimal id ++ Bytes.ascii ".bin"

namespace SSTable

/-- `SSTable::flush` to a path where no file exists: write a snapshot out and keep its range and filter. -/
def flush (snapshot : SortedMap Bytes Entry) (dirPath : Bytes) (flushCounter : Nat) : SSTable where
  path := sstablePath dirPath flushCounter
  minKey := snapshot.firstKey?.getD []
  maxKey := snapshot.lastKey?.getD []
  bloomFilter := (BloomFilter.new snapshot.size).addAll snapshot.keys
  records := snapshot
  in_range k e h := by
    have hne : snapshot.isEmpty = false := by
      rw [Bool.eq_false_iff, Ne, SortedMap.isEmpty_iff]
      intro hall
      rw [hall k] at h
      exact absurd h (by simp)
    obtain ⟨lo, hi, hlo, hhi⟩ := SortedMap.exists_bounds hne
    rw [hlo, hhi]
    exact ⟨SortedMap.firstKey?_le hlo h, SortedMap.le_lastKey? hhi h⟩
  in_filter k e h := by
    refine BloomFilter.contains_of_mem (Platform.bloomBits_pos _ ?_) (SortedMap.mem_keys.mpr ⟨e, h⟩)
    exact List.length_pos_of_mem (SortedMap.find?_eq_some.mp h)

/-- Whether a lookup gets past the range check and the filter, and so reads the file. -/
def readsFile (t : SSTable) (key : Bytes) : Bool :=
  !(key < t.minKey || t.maxKey < key) && t.bloomFilter.contains key

/-- `SSTable::get`: nothing outside the range or the filter, else the record in the file. -/
def get (t : SSTable) (key : Bytes) : Option Entry :=
  if t.readsFile key then t.records.find? key else none

/-- `SSTable::filename`. -/
def filename (t : SSTable) : Bytes := t.path

/-- The size of the file `flush` writes: the records, the range, the sparse index with every 16th key,
    the filter, and the offset of the metadata. -/
def fileSize (t : SSTable) : Nat :=
  (t.records.entries.map fun (k, e) => 8 + 1 + 4 + 4 + k.length + e.value.length).sum
    + (4 + 4 + t.minKey.length + t.maxKey.length)
    + (4 + ((t.records.keys.zipIdx.filter (·.2 % 16 = 0)).map fun (k, _) => 4 + k.length + 8).sum)
    + (4 + t.bloomFilter.serializedSize)
    + 8

/-- The range check and the filter never hide a record. -/
theorem get_eq (t : SSTable) (key : Bytes) : t.get key = t.records.find? key := by
  unfold get
  split_ifs with h
  · rfl
  · cases hf : t.records.find? key with
    | none => rfl
    | some e =>
        obtain ⟨hlo, hhi⟩ := t.in_range key e hf
        refine absurd ?_ h
        simp [readsFile, t.in_filter key e hf, not_lt.mpr hlo, not_lt.mpr hhi]

@[simp] theorem path_flush (m : SortedMap Bytes Entry) (d : Bytes) (n : Nat) :
    (flush m d n).path = sstablePath d n := rfl

@[simp] theorem records_flush (m : SortedMap Bytes Entry) (d : Bytes) (n : Nat) :
    (flush m d n).records = m := rfl

/-- The range of a flushed non-empty snapshot is not empty. -/
theorem minKey_le_maxKey_flush {m : SortedMap Bytes Entry} (h : m.isEmpty = false) (d : Bytes)
    (n : Nat) : (flush m d n).minKey ≤ (flush m d n).maxKey := by
  obtain ⟨lo, hi, hlo, hhi⟩ := SortedMap.exists_bounds h
  obtain ⟨v, hv⟩ := SortedMap.firstKey?_mem hlo
  show m.firstKey?.getD [] ≤ m.lastKey?.getD []
  rw [hlo, hhi]
  exact SortedMap.le_lastKey? hhi hv

end SSTable

end KvStorageEngine
