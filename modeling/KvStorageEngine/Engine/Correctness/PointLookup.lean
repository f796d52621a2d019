import KvStorageEngine.Engine.SSTableFile
import Mathlib.Data.List.Induction

/-!
# `Engine.Correctness.PointLookup` — lookups in a table file

`FileTable.get` goes through the key range, the filter, the sparse index and a scan of at most 16 records. The
table that `flush` returns answers from its snapshot for every key, and so does the one that is read back from
the file, which is the same table (`construct_flushed`).

The index matters only through what each of its entries says about the records: where in the file the first
record with at least its key begins (`sparseIndex_spec`). Between the entries around a key stand all records
that can have it (`exists_segment`), and the scan of these finds the key or stops behind it
(`scanLoop_segment`).

Sizes are the one thing that can go wrong. The size of the filter goes into the file as a `uint32_t`, so a
table with a filter of 4 GiB cannot be opened again (`construct_flushed_of_large`).

## Layout
- A. The file that `flush` writes
- B. Reading the metadata back
- C. The scan
- D. The index
- E. Lookups
- F. A table too large
-/

namespace KvStorageEngine

open LittleEndian InputStream

/-! ## A. The file that `flush` writes

The records one after the other, with an index entry for every sixteenth and the filter of all keys, and behind them
the metadata with its own offset at the end. -/

/-- The records in the file. -/
def dataBytes (records : List (Bytes × Entry)) : Bytes := records.flatMap recordBytes

/-- Sizes that fit the header of a record. -/
def RecordFits (record : Bytes × Entry) : Prop :=
  record.1.length < 2 ^ 32 ∧ record.2.value.length < 2 ^ 32 ∧ record.2.seq < 2 ^ 64

/-- A record as the encodings of its fields. -/
theorem recordBytes_eq {record : Bytes × Entry} (h : RecordFits record) : recordBytes record =
    encode 8 record.2.seq ++ ([record.2.type.toByte] ++ (encode 4 record.1.length ++
      (encode 4 record.2.value.length ++ (record.1 ++ record.2.value)))) := by
  unfold recordBytes length32
  rw [Nat.mod_eq_of_lt h.1, Nat.mod_eq_of_lt h.2.1, List.take_length, List.take_length]
  simp only [List.append_assoc]

theorem dataBytes_cons (record : Bytes × Entry) (records : List (Bytes × Entry)) :
    dataBytes (record :: records) = recordBytes record ++ dataBytes records := List.flatMap_cons

theorem dataBytes_append (a b : List (Bytes × Entry)) : dataBytes (a ++ b) = dataBytes a ++ dataBytes b :=
  List.flatMap_append

theorem recordBytes_pos (record : Bytes × Entry) : 0 < (recordBytes record).length := by
  unfold recordBytes
  simp only [List.length_append, length_encode]
  omega

theorem length_le_dataBytes (records : List (Bytes × Entry)) : records.length ≤ (dataBytes records).length := by
  induction records with
  | nil => exact Nat.zero_le _
  | cons record records ih =>
      have hrecord := recordBytes_pos record
      rw [dataBytes_cons, List.length_append, List.length_cons]
      omega

/-- The index over some records: every 16th key, with the offset of its record. -/
def sparseIndex (records : List (Bytes × Entry)) : List IndexEntry :=
  (records.zipIdx.filter (·.2 % FileTable.indexInterval = 0)).map fun p =>
    ⟨p.1.1, (dataBytes (records.take p.2)).length⟩

/-- Every sixteenth record gets an index entry. -/
theorem sparseIndex_concat (records : List (Bytes × Entry)) (record : Bytes × Entry) :
    sparseIndex (records ++ [record]) = if records.length % FileTable.indexInterval = 0
      then sparseIndex records ++ [⟨record.1, (dataBytes records).length⟩] else sparseIndex records := by
  have hold : (records.zipIdx.filter (·.2 % FileTable.indexInterval = 0)).map (fun p =>
      (⟨p.1.1, (dataBytes ((records ++ [record]).take p.2)).length⟩ : IndexEntry)) = sparseIndex records := by
    apply List.map_congr_left
    intro p hp
    have hlt := (List.mem_zipIdx (List.mem_of_mem_filter hp)).2.1
    rw [List.take_append_of_le_length (by omega)]
  unfold sparseIndex at hold ⊢
  rw [List.zipIdx_append, List.filter_append, List.map_append, hold, List.zipIdx_singleton]
  split_ifs with h
  · rw [List.filter_cons_of_pos (by simpa using h)]
    simp
  · rw [List.filter_cons_of_neg (by simpa using h)]
    simp

section Flush

variable [Platform]

/-- The loop of `flush`, from the back: the filter has the keys, the sparse index stands behind the entries that were
    there, and the file has the records. -/
theorem foldl_flushEntry (f : BloomFilter) (index : List IndexEntry) (records : List (Bytes × Entry)) :
    records.foldl FileTable.flushEntry ⟨f, index, 0, []⟩
      = ⟨f.addAll (records.map (·.1)), index ++ sparseIndex records, records.length, dataBytes records⟩ := by
  induction records using List.reverseRecOn with
  | nil => simp [BloomFilter.addAll, sparseIndex, dataBytes]
  | append_singleton records record ih =>
      rw [List.foldl_append, ih, List.foldl_cons, List.foldl_nil, sparseIndex_concat]
      unfold FileTable.flushEntry BloomFilter.addAll
      simp only [List.map_append, List.foldl_append, List.map_cons, List.map_nil, List.foldl_cons,
        List.foldl_nil, List.length_append, List.length_singleton, dataBytes_append]
      rw [dataBytes_cons]
      split_ifs <;> simp [dataBytes]

@[simp] theorem bitArraySize_addAll (f : BloomFilter) (keys : List Bytes) :
    (f.addAll keys).bitArraySize = f.bitArraySize := by
  induction keys generalizing f with
  | nil => rfl
  | cons key keys ih => exact ih (f.add key)

@[simp] theorem numHashFunctions_addAll (f : BloomFilter) (keys : List Bytes) :
    (f.addAll keys).numHashFunctions = f.numHashFunctions := by
  induction keys generalizing f with
  | nil => rfl
  | cons key keys ih => exact ih (f.add key)

theorem serializedSize_addAll (f : BloomFilter) (keys : List Bytes) :
    (f.addAll keys).serializedSize = f.serializedSize := by
  unfold BloomFilter.serializedSize
  rw [bitArraySize_addAll]

/-- The filter over the keys of a snapshot. -/
def flushedFilter (m : SortedMap Bytes Entry) : BloomFilter := (BloomFilter.new m.size).addAll m.keys

/-- The table that `flush` returns where there was no file. -/
def flushedTable (m : SortedMap Bytes Entry) : FileTable where
  minKey := m.firstKey?.getD []
  maxKey := m.lastKey?.getD []
  metadataOffset := (dataBytes m.entries).length
  index := sparseIndex m.entries
  bloomFilter := some (flushedFilter m)
  cachedFile := none

/-- The metadata in a file with the records of a snapshot. -/
def metadataWith (index : List IndexEntry) (m : SortedMap Bytes Entry) : Bytes :=
  metadataBytes (m.firstKey?.getD []) (m.lastKey?.getD []) index (flushedFilter m).serialize
    (dataBytes m.entries).length

/-- The metadata in the file that `flush` writes where there was none. -/
def flushedMetadata (m : SortedMap Bytes Entry) : Bytes := metadataWith (sparseIndex m.entries) m

/-- `flush` keeps what the file that was there has in its index. -/
theorem flush_over {m : SortedMap Bytes Entry} (hne : m.isEmpty = false) {old : Option Bytes} {t : FileTable}
    (hold : FileTable.construct old = some t) : FileTable.flush old m =
      some ({ flushedTable m with index := t.index ++ sparseIndex m.entries, cachedFile := t.cachedFile },
        dataBytes m.entries ++ metadataWith (t.index ++ sparseIndex m.entries) m) := by
  obtain ⟨lo, hi, hlo, hhi⟩ := SortedMap.exists_bounds hne
  unfold FileTable.flush flushedTable metadataWith flushedFilter
  simp only [hold, Option.bind_eq_bind, Option.bind_some, foldl_flushEntry, hlo, hhi, Option.getD_some,
    SortedMap.keys]

/-- A flush to a path without a file. -/
theorem flush_eq {m : SortedMap Bytes Entry} (hne : m.isEmpty = false) :
    FileTable.flush none m = some (flushedTable m, dataBytes m.entries ++ flushedMetadata m) := by
  have hnew : FileTable.construct none = some ⟨[], [], 0, [], none, none⟩ := rfl
  exact flush_over hne hnew

/-! ## B. Reading the metadata back

The constructor seeks to the last eight bytes, from there to the metadata, and reads field by field what was written
(`loadMetadata_with`). The limits are those of the fields' widths. -/

/-- Sizes that the types in the file can hold: the records, the offsets, the counters of the filter, and the
    number of index entries. -/
structure FormatLimits (m : SortedMap Bytes Entry) : Prop where
  records : ∀ record ∈ m.entries, RecordFits record
  data : (dataBytes m.entries).length < 2 ^ 63
  index : (sparseIndex m.entries).length < 2 ^ 32
  bits : (BloomFilter.new m.size).bitArraySize < 2 ^ 64
  hashes : (BloomFilter.new m.size).numHashFunctions < 2 ^ 64

variable {s : InputStream} {rest : Bytes} {m : SortedMap Bytes Entry}

omit [Platform] in
theorem readUInt_encode {w n : Nat} (h : s.At (encode w n ++ rest)) (hn : n < 256 ^ w) :
    readUInt s w = some (n, s.skip w) := by
  unfold readUInt
  rw [h.readExactly (length_encode w n), Option.map_some, decode_encode hn]

omit [Platform] in
/-- What is left behind a field of known length. -/
theorem At.skip_length {a : Bytes} {n : Nat} (h : s.At (a ++ rest)) (hn : a.length = n) :
    (s.skip n).At rest := hn ▸ h.skip

omit [Platform] in
/-- The index comes back entry by entry. -/
theorem loadIndex_flatMap (index : List IndexEntry)
    (hfits : ∀ entry ∈ index, entry.key.length < 2 ^ 32 ∧ entry.offset < 2 ^ 64)
    (h : s.At (index.flatMap IndexEntry.bytes ++ rest)) :
    FileTable.loadIndex index.length s = some (index, s.skip (index.flatMap IndexEntry.bytes).length) := by
  induction index generalizing s with
  | nil => rfl
  | cons entry index ih =>
      obtain ⟨⟨hkey, hoffset⟩, hfits⟩ := List.forall_mem_cons.mp hfits
      have hbytes : entry.bytes = encode 4 entry.key.length ++ (entry.key ++ encode 8 entry.offset) := by
        unfold IndexEntry.bytes length32
        rw [Nat.mod_eq_of_lt hkey, List.take_length, List.append_assoc]
      rw [List.flatMap_cons, hbytes] at h ⊢
      simp only [List.append_assoc] at h
      have h₂ := At.skip_length h (length_encode 4 _)
      have h₃ := At.skip_length h₂ rfl
      have h₄ := At.skip_length h₃ (length_encode 8 _)
      rw [List.length_cons, FileTable.loadIndex]
      simp only [readUInt_encode h hkey, h₂.readExactly rfl, readUInt_encode h₃ hoffset, ih hfits h₄,
        Option.bind_eq_bind, Option.bind_some]
      simp only [InputStream.skip_skip, List.length_append, length_encode, Nat.add_assoc]

omit [Platform] in
/-- **The footer.** `loadMetadata` finds the fields where they were put, and the filter is what comes out of its
    bytes. -/
theorem loadMetadata_fields {data lo hi bloom : Bytes} {index : List IndexEntry} (hlo : lo.length < 2 ^ 32)
    (hhi : hi.length < 2 ^ 32) (hcount : index.length < 2 ^ 32)
    (hindex : ∀ entry ∈ index, entry.key.length < 2 ^ 32 ∧ entry.offset < 2 ^ 64)
    (hbloom : bloom.length < 2 ^ 32) (hdata : data.length < 2 ^ 64) {file : Bytes}
    (hfile : file = data ++ (encode 4 lo.length ++ (encode 4 hi.length ++ (lo ++ (hi ++
      (encode 4 index.length ++ (index.flatMap IndexEntry.bytes ++ (encode 4 bloom.length ++
        (bloom ++ encode 8 data.length))))))))) :
    FileTable.loadMetadata file
      = (BloomFilter.deserialize bloom).map fun f => ⟨lo, hi, data.length, index, some f, none⟩ := by
  obtain ⟨front, hfront⟩ : ∃ front, file = front ++ encode 8 data.length :=
    ⟨data ++ (encode 4 lo.length ++ (encode 4 hi.length ++ (lo ++ (hi ++ (encode 4 index.length ++
      (index.flatMap IndexEntry.bytes ++ (encode 4 bloom.length ++ bloom))))))), by
        rw [hfile]
        simp only [List.append_assoc]⟩
  have hlen : file.length = front.length + 8 := by
    rw [hfront, List.length_append, length_encode]
  have hlong : ¬ file.length < 8 := by omega
  have h₀ : ((ofFile file).seekg (file.length - 8)).At (encode 8 data.length ++ []) := by
    rw [hlen, Nat.add_sub_cancel]
    apply at_seekg rfl
    rw [List.append_nil]
    exact hfront
  have h₁ : ((((ofFile file).seekg (file.length - 8)).skip 8).seekg data.length).At _ := at_seekg h₀.1 hfile
  have h₂ := At.skip_length h₁ (length_encode 4 _)
  have h₃ := At.skip_length h₂ (length_encode 4 _)
  have h₄ := At.skip_length h₃ rfl
  have h₅ := At.skip_length h₄ rfl
  have h₆ := At.skip_length h₅ (length_encode 4 _)
  have h₇ := At.skip_length h₆ rfl
  have h₈ := At.skip_length h₇ (length_encode 4 _)
  have hread := h₈.read (Bytes.length_zeros bloom.length)
  unfold FileTable.loadMetadata
  rw [if_neg hlong]
  simp only [readUInt_encode h₀ hdata, readUInt_encode h₁ hlo, readUInt_encode h₂ hhi, h₃.readExactly rfl,
    h₄.readExactly rfl, readUInt_encode h₅ hcount, loadIndex_flatMap index hindex h₆,
    readUInt_encode h₇ hbloom, hread, Option.bind_eq_bind, Option.bind_some]
  cases BloomFilter.deserialize bloom <;> rfl

omit [Platform] in
/-- Every entry of the sparse index is the key of a record and where it begins. -/
theorem sparseIndex_spec {records : List (Bytes × Entry)} {entry : IndexEntry}
    (h : entry ∈ sparseIndex records) : ∃ i e, records[i]? = some (entry.key, e) ∧
      entry.offset = (dataBytes (records.take i)).length := by
  obtain ⟨p, hp, rfl⟩ := List.mem_map.mp h
  have hmem := List.mem_zipIdx_iff_getElem?.mp (List.mem_of_mem_filter hp)
  exact ⟨p.2, p.1.2, hmem, rfl⟩

omit [Platform] in
theorem length_dataBytes_take_le (records : List (Bytes × Entry)) (i : Nat) :
    (dataBytes (records.take i)).length ≤ (dataBytes records).length := by
  have hsplit := congrArg List.length (dataBytes_append (records.take i) (records.drop i))
  rw [List.take_append_drop, List.length_append] at hsplit
  omega

theorem FormatLimits.key (h : FormatLimits m) {k : Bytes} (hk : k ∈ m.keys) : k.length < 2 ^ 32 := by
  obtain ⟨e, he⟩ := SortedMap.mem_keys.mp hk
  exact (h.records _ (SortedMap.find?_eq_some.mp he)).1

theorem FormatLimits.indexEntry (h : FormatLimits m) {entry : IndexEntry}
    (hentry : entry ∈ sparseIndex m.entries) : entry.key.length < 2 ^ 32 ∧ entry.offset < 2 ^ 64 := by
  obtain ⟨i, e, hi, hoffset⟩ := sparseIndex_spec hentry
  have hle := length_dataBytes_take_le m.entries i
  have hdata := h.data
  refine ⟨(h.records _ (List.mem_of_getElem? hi)).1, ?_⟩
  rw [hoffset]
  omega

/-- Reading the file back gives the same table, with whatever filter comes out of the filter's bytes. -/
theorem loadMetadata_with (hne : m.isEmpty = false) (hlim : FormatLimits m) {index : List IndexEntry}
    (hcount : index.length < 2 ^ 32)
    (hindex : ∀ entry ∈ index, entry.key.length < 2 ^ 32 ∧ entry.offset < 2 ^ 64) :
    FileTable.loadMetadata (dataBytes m.entries ++ metadataWith index m)
      = (BloomFilter.deserialize ((flushedFilter m).serialize.take (length32 (flushedFilter m).serialize))).map
        fun f => { flushedTable m with index := index, bloomFilter := some f } := by
  obtain ⟨lo, hi, hlo, hhi⟩ := SortedMap.exists_bounds hne
  have hlo32 : lo.length < 2 ^ 32 := hlim.key (List.mem_of_head? hlo)
  have hhi32 : hi.length < 2 ^ 32 := hlim.key (List.mem_of_getLast? hhi)
  have hbloom : ((flushedFilter m).serialize.take (length32 (flushedFilter m).serialize)).length
      = length32 (flushedFilter m).serialize := by
    rw [List.length_take]
    exact Nat.min_eq_left (Nat.mod_le _ _)
  have hbloom32 : length32 (flushedFilter m).serialize < 2 ^ 32 := Nat.mod_lt _ (by decide)
  have hdata : (dataBytes m.entries).length < 2 ^ 64 := by
    have hdata := hlim.data
    omega
  have hmeta : metadataWith index m = encode 4 lo.length ++ (encode 4 hi.length ++ (lo ++ (hi ++
      (encode 4 index.length ++ (index.flatMap IndexEntry.bytes ++
        (encode 4 (length32 (flushedFilter m).serialize) ++
          ((flushedFilter m).serialize.take (length32 (flushedFilter m).serialize) ++
            encode 8 (dataBytes m.entries).length))))))) := by
    unfold metadataWith metadataBytes
    rw [hlo, hhi, Option.getD_some, Option.getD_some]
    unfold length32
    rw [Nat.mod_eq_of_lt hlo32, Nat.mod_eq_of_lt hhi32, Nat.mod_eq_of_lt hcount, List.take_length,
      List.take_length]
    simp only [List.append_assoc]
  rw [loadMetadata_fields hlo32 hhi32 hcount hindex (by rw [hbloom]; exact hbloom32) hdata
    (by rw [hmeta, hbloom])]
  unfold flushedTable
  rw [hlo, hhi]
  rfl

/-- **The table comes back** as long as the filter's size fits. -/
theorem construct_with (hne : m.isEmpty = false) (hlim : FormatLimits m)
    (hsize : (BloomFilter.new m.size).serializedSize < 2 ^ 32) {index : List IndexEntry}
    (hcount : index.length < 2 ^ 32)
    (hindex : ∀ entry ∈ index, entry.key.length < 2 ^ 32 ∧ entry.offset < 2 ^ 64) :
    FileTable.construct (some (dataBytes m.entries ++ metadataWith index m))
      = some { flushedTable m with index := index } := by
  have hlength : length32 (flushedFilter m).serialize = (flushedFilter m).serialize.length := by
    apply Nat.mod_eq_of_lt
    rw [BloomFilter.length_serialize, flushedFilter, serializedSize_addAll]
    exact hsize
  show FileTable.loadMetadata _ = _
  rw [loadMetadata_with hne hlim hcount hindex, hlength, List.take_length, BloomFilter.deserialize_serialize]
  · rfl
  · rw [flushedFilter, bitArraySize_addAll]
    exact hlim.bits
  · rw [flushedFilter, numHashFunctions_addAll]
    exact hlim.hashes

/-- The constructor reads back the table that `flush` returned. -/
theorem construct_flushed (hne : m.isEmpty = false) (hlim : FormatLimits m)
    (hsize : (BloomFilter.new m.size).serializedSize < 2 ^ 32) :
    FileTable.construct (some (dataBytes m.entries ++ flushedMetadata m)) = some (flushedTable m) :=
  construct_with hne hlim hsize hlim.index fun _ => hlim.indexEntry

end Flush

/-! ## C. The scan

A record begins with a header of fixed size that gives the lengths of key and value. The scan passes smaller keys,
stops at a greater one and ends at the end of its range. -/

section Scan

variable {key : Bytes} {searchEnd : Nat} {s : InputStream} {rest : Bytes}

/-- The reads of one record, up to its value. -/
theorem reads_of_record {record : Bytes × Entry} (hfits : RecordFits record) (h : s.At (recordBytes record ++ rest)) :
    s.read (Bytes.zeros 8) = (encode 8 record.2.seq, s.skip 8) ∧ (s.skip 8).good = true ∧
      (s.skip 8).readExactly 1 = some ([record.2.type.toByte], s.skip 9) ∧
      readUInt (s.skip 9) 4 = some (record.1.length, s.skip 13) ∧
      readUInt (s.skip 13) 4 = some (record.2.value.length, s.skip 17) ∧
      (s.skip 17).read (Bytes.zeros record.1.length) = (record.1, s.skip (17 + record.1.length)) ∧
      (s.skip (17 + record.1.length)).read (Bytes.zeros record.2.value.length)
        = (record.2.value, s.skip (17 + record.1.length + record.2.value.length)) ∧
      (recordBytes record).length = 17 + record.1.length + record.2.value.length := by
  obtain ⟨hk, hvalue, -⟩ := id hfits
  have hlength : (recordBytes record).length = 17 + record.1.length + record.2.value.length := by
    rw [recordBytes_eq hfits]
    simp only [List.length_append, length_encode, List.length_singleton]
    omega
  rw [recordBytes_eq hfits] at h
  simp only [List.append_assoc] at h
  have h₁ := h.read ((Bytes.length_zeros 8).trans (length_encode 8 _).symm)
  rw [length_encode] at h₁
  have h₂ := At.skip_length h (length_encode 8 _)
  have h₃ := At.skip_length h₂ (List.length_singleton (a := record.2.type.toByte))
  have h₄ := At.skip_length h₃ (length_encode 4 _)
  have h₅ : (s.skip 17).At (record.1 ++ (record.2.value ++ rest)) := by
    have h₅ := At.skip_length h₄ (length_encode 4 _)
    exact h₅
  have h₆ := At.skip_length h₅ rfl
  have hkey := h₅.read (Bytes.length_zeros record.1.length)
  have hlast := h₆.read (Bytes.length_zeros record.2.value.length)
  simp only [InputStream.skip_skip] at hkey hlast
  exact ⟨h₁, h₂.1, h₂.readExactly rfl, readUInt_encode h₃ hk, readUInt_encode h₄ hvalue, hkey, hlast, hlength⟩

theorem ofByte_decode (type : EntryType) : EntryType.ofByte (UInt8.ofNat (decode [type.toByte])) = type := by
  rw [decode, decode, Nat.mul_zero, Nat.add_zero, UInt8.ofNat_toNat, EntryType.ofByte_toByte]

/-- One round at a record: the key is found, or passed, or the scan goes on behind the record. -/
theorem scanLoop_record {record : Bytes × Entry} (hfits : RecordFits record)
    (htomb : record.2.type = .delete → record.2.value = []) (h : s.At (recordBytes record ++ rest))
    (hend : s.pos < searchEnd) (fuel : Nat) : FileTable.scanLoop key searchEnd (fuel + 1) s =
      if record.1 = key then some (some record.2, s.skip (recordBytes record).length)
      else if key < record.1 then some (none, s.skip (recordBytes record).length)
      else FileTable.scanLoop key searchEnd fuel (s.skip (recordBytes record).length) := by
  obtain ⟨hseq, hgood, htype, hkeyLen, hvalueLen, hkey, hvalue, hlength⟩ := reads_of_record hfits h
  obtain ⟨k, value, seq, type⟩ := record
  have htell : s.tellg.all (fun pos => decide (pos < searchEnd)) = true := by
    rw [tellg_all h.1, decide_eq_true hend]
  have hseq' : decode (encode 8 seq) = seq := decode_encode hfits.2.2
  rw [FileTable.scanLoop]
  simp only [htell, if_true, hseq, hgood, htype, hkeyLen, hvalueLen, hkey, ofByte_decode, Option.bind_eq_bind,
    Option.bind_some, hseq', hlength]
  cases type with
  | put => simp only [if_true, hvalue]
  | delete =>
      obtain rfl : value = [] := htomb rfl
      simp only [reduceCtorEq, if_false, List.length_nil, Nat.add_zero]
      rfl

/-- **The scan of some records in key order** finds the record of the key among them, and the stream stays
    good. -/
theorem scanLoop_segment {records : List (Bytes × Entry)} (hsorted : records.Pairwise (·.1 < ·.1))
    (hfits : ∀ record ∈ records, RecordFits record)
    (htomb : ∀ record ∈ records, record.2.type = .delete → record.2.value = [])
    (h : s.At (dataBytes records ++ rest)) (hend : searchEnd = s.pos + (dataBytes records).length) {fuel : Nat}
    (hfuel : records.length < fuel) : ∃ n, FileTable.scanLoop key searchEnd fuel s
      = some (SortedMap.findEntry key records, s.skip n) := by
  induction records generalizing s fuel with
  | nil =>
      obtain ⟨fuel, rfl⟩ := Nat.exists_eq_succ_of_ne_zero (Nat.ne_of_gt hfuel)
      refine ⟨0, ?_⟩
      have htell : s.tellg.all (fun pos => decide (pos < searchEnd)) = false := by
        rw [tellg_all h.1, hend]
        simp [dataBytes]
      rw [FileTable.scanLoop, htell]
      rfl
  | cons record records ih =>
      obtain ⟨fuel, rfl⟩ := Nat.exists_eq_succ_of_ne_zero (Nat.ne_of_gt (Nat.zero_lt_of_lt hfuel))
      obtain ⟨hrecord, hfits⟩ := List.forall_mem_cons.mp hfits
      obtain ⟨htombRecord, htomb⟩ := List.forall_mem_cons.mp htomb
      obtain ⟨hfirst, hsorted⟩ := List.pairwise_cons.mp hsorted
      rw [dataBytes_cons, List.append_assoc] at h
      rw [dataBytes_cons, List.length_append] at hend
      have hpos := recordBytes_pos record
      rw [scanLoop_record hrecord htombRecord h (by omega)]
      by_cases hkey : record.1 = key
      · rw [if_pos hkey, SortedMap.findEntry, if_pos hkey.symm]
        exact ⟨_, rfl⟩
      · rw [if_neg hkey, SortedMap.findEntry, if_neg (Ne.symm hkey)]
        by_cases hlt : key < record.1
        · -- the key is passed, and all that follow are beyond it
          rw [if_pos hlt, SortedMap.findEntry_eq_none fun q hq => (hlt.trans (hfirst q hq)).ne']
          exact ⟨_, rfl⟩
        · rw [if_neg hlt]
          have hend' : searchEnd = (s.skip (recordBytes record).length).pos + (dataBytes records).length := by
            show searchEnd = s.pos + (recordBytes record).length + _
            omega
          obtain ⟨n, hn⟩ := ih hsorted hfits htomb h.skip hend' (Nat.lt_of_succ_lt_succ hfuel)
          rw [hn, InputStream.skip_skip]
          exact ⟨_, rfl⟩

end Scan

/-! ## D. The index

The entries ascend as the keys do, so the binary search ends at the last entry that is not above the key. -/

section Index

variable {records : List (Bytes × Entry)}

/-- The index ascends. -/
theorem sparseIndex_sorted (h : records.Pairwise (·.1 < ·.1)) :
    (sparseIndex records).Pairwise (·.key < ·.key) := by
  unfold sparseIndex
  rw [List.pairwise_map]
  apply List.Pairwise.filter
  have hfst : (records.zipIdx.map (·.1)).Pairwise (·.1 < ·.1) := by
    rw [List.zipIdx_map_fst]
    exact h
  rw [List.pairwise_map] at hfst
  exact hfst

/-- The first record is in the index. -/
theorem head_sparseIndex (record : Bytes × Entry) (records : List (Bytes × Entry)) :
    (sparseIndex (record :: records))[0]? = some ⟨record.1, 0⟩ := by
  unfold sparseIndex
  rw [List.zipIdx_cons, List.filter_cons_of_pos]
  · rfl
  · exact decide_eq_true (Nat.zero_mod _)

/-- A later key is at a later place. -/
theorem lt_of_key_lt (h : records.Pairwise (·.1 < ·.1)) {i j : Nat} {x y : Bytes × Entry}
    (hi : records[i]? = some x) (hj : records[j]? = some y) (hxy : x.1 < y.1) : i < j := by
  by_contra hle
  obtain ⟨hi', rfl⟩ := List.getElem?_eq_some_iff.mp hi
  obtain ⟨hj', rfl⟩ := List.getElem?_eq_some_iff.mp hj
  rcases Nat.lt_or_eq_of_le (Nat.le_of_not_lt hle) with hlt | rfl
  · exact lt_asymm hxy (List.pairwise_iff_getElem.mp h j i hj' hi' hlt)
  · exact lt_irrefl _ hxy

/-- Everything before a record has a smaller key. -/
theorem lt_of_mem_take (h : records.Pairwise (·.1 < ·.1)) {i : Nat} {x : Bytes × Entry}
    (hi : records[i]? = some x) : ∀ q ∈ records.take i, q.1 < x.1 := by
  intro q hq
  obtain ⟨j, hj, rfl⟩ := List.getElem_of_mem hq
  obtain ⟨hi', rfl⟩ := List.getElem?_eq_some_iff.mp hi
  rw [List.length_take] at hj
  rw [List.getElem_take]
  exact List.pairwise_iff_getElem.mp h j i (by omega) hi' (by omega)

/-- Nothing from a record on has a smaller key. -/
theorem le_of_mem_drop (h : records.Pairwise (·.1 < ·.1)) {i : Nat} {x : Bytes × Entry}
    (hi : records[i]? = some x) : ∀ q ∈ records.drop i, x.1 ≤ q.1 := by
  intro q hq
  obtain ⟨j, hj, rfl⟩ := List.getElem_of_mem hq
  obtain ⟨hi', rfl⟩ := List.getElem?_eq_some_iff.mp hi
  rw [List.length_drop] at hj
  rw [List.getElem_drop]
  rcases Nat.eq_zero_or_pos j with rfl | hpos
  · exact le_of_eq rfl
  · exact (List.pairwise_iff_getElem.mp h i (i + j) hi' (by omega) (by omega)).le

/-- The part that is scanned lies between the index entries around the bound. -/
theorem searchRange_eq {t : FileTable} {key : Bytes} {bound : Nat} (hbound : FileTable.upperBound key t.index = bound)
    (hpos : 0 < bound) {a : IndexEntry} (ha : t.index[bound - 1]? = some a) :
    t.searchRange key = (a.offset, (t.index[bound]?.map IndexEntry.offset).getD t.metadataOffset) := by
  have hne : t.index.isEmpty = false := by
    cases hnil : t.index with
    | nil => rw [hnil] at ha; exact absurd ha (by simp)
    | cons => rfl
  unfold FileTable.searchRange
  rw [hne]
  simp only [hbound, Bool.false_eq_true, if_false, if_neg (Nat.ne_of_gt hpos), ha, Option.map_some, Option.getD_some,
    Nat.sub_add_cancel hpos]

/-- **What the index says.** For a key not below the first one, the range to scan is where some of the records
    stand, one after the other, and those before and behind have other keys. -/
theorem exists_segment {t : FileTable} (hindex : t.index = sparseIndex records)
    (hoffset : t.metadataOffset = (dataBytes records).length) (h : records.Pairwise (·.1 < ·.1))
    {first : Bytes × Entry} (hfirst : records[0]? = some first) {key : Bytes} (hkey : first.1 ≤ key) :
    ∃ pre segment post, records = pre ++ (segment ++ post) ∧
      t.searchRange key = ((dataBytes pre).length, (dataBytes (pre ++ segment)).length) ∧
      (∀ q ∈ pre, q.1 ≠ key) ∧ ∀ q ∈ post, q.1 ≠ key := by
  have hsorted := sparseIndex_sorted h
  have hpart : LowerBound.Partitioned (fun entry : IndexEntry => !(key < entry.key)) (sparseIndex records) := by
    refine hsorted.imp ?_
    intro a b hab hb
    simp only [Bool.not_eq_true', decide_eq_false_iff_not, not_lt] at hb ⊢
    exact hab.le.trans hb
  obtain ⟨bound, hbound⟩ : ∃ bound, FileTable.upperBound key (sparseIndex records) = bound := ⟨_, rfl⟩
  have hlt : ∀ {i : Nat} {x : IndexEntry}, (sparseIndex records)[i]? = some x → (i < bound ↔ x.key ≤ key) := by
    intro i x hx
    have hiff := LowerBound.lt_lowerBound_iff hpart hx
    rw [show LowerBound.lowerBound _ (sparseIndex records) = bound from hbound] at hiff
    simpa using hiff
  have hle : bound ≤ (sparseIndex records).length := hbound ▸ LowerBound.lowerBound_le_length _ _
  have hhead : (sparseIndex records)[0]? = some ⟨first.1, 0⟩ := by
    cases records with
    | nil => exact absurd hfirst (by simp)
    | cons record records =>
        obtain rfl : record = first := Option.some.inj hfirst
        exact head_sparseIndex record records
  have hpos : 0 < bound := (hlt hhead).mpr hkey
  obtain ⟨a, ha⟩ : ∃ a, (sparseIndex records)[bound - 1]? = some a :=
    ⟨_, List.getElem?_eq_getElem (show bound - 1 < _ by omega)⟩
  have hakey : a.key ≤ key := (hlt ha).mp (by omega)
  obtain ⟨i, ea, hi, haoffset⟩ := sparseIndex_spec (List.mem_of_getElem? ha)
  have hrange : t.searchRange key = ((dataBytes (records.take i)).length,
      ((sparseIndex records)[bound]?.map IndexEntry.offset).getD (dataBytes records).length) := by
    rw [searchRange_eq (hindex ▸ hbound) hpos (hindex ▸ ha), haoffset, hindex, hoffset]
  have hbefore : ∀ q ∈ records.take i, q.1 ≠ key := by
    intro q hq
    exact ((lt_of_mem_take h hi q hq).trans_le hakey).ne
  cases hb : (sparseIndex records)[bound]? with
  | none =>
      refine ⟨records.take i, records.drop i, [], ?_, ?_, hbefore, fun q hq => absurd hq List.not_mem_nil⟩
      · rw [List.append_nil, List.take_append_drop]
      · rw [hrange, hb, List.take_append_drop]
        rfl
  | some b =>
      have hbkey : key < b.key := by
        rw [← not_le, ← hlt hb]
        exact Nat.lt_irrefl bound
      obtain ⟨j, eb, hj, hboffset⟩ := sparseIndex_spec (List.mem_of_getElem? hb)
      have hij : i < j := lt_of_key_lt h hi hj (hakey.trans_lt hbkey)
      have htake : records.take j = records.take i ++ (records.take j).drop i := by
        conv_lhs => rw [← List.take_append_drop i (records.take j)]
        rw [List.take_take, Nat.min_eq_left hij.le]
      refine ⟨records.take i, (records.take j).drop i, records.drop j, ?_, ?_, hbefore, ?_⟩
      · rw [← List.append_assoc, ← htake, List.take_append_drop]
      · rw [hrange, hb, Option.map_some, Option.getD_some, hboffset, ← htake]
      · intro q hq
        exact (hbkey.trans_le (le_of_mem_drop h hj q hq)).ne'

end Index

/-! ## E. Lookups

A table keeps its stream open between lookups, and every lookup seeks first. `Serves` says that nothing else of the
table changes, which makes any sequence of lookups as good as one. -/

section Lookups

variable [Platform] {m : SortedMap Bytes Entry}

/-- A table as it is after some lookups: as it was, with its stream, if there is one, still good. -/
def FileTable.Serves (t₀ : FileTable) (file : Bytes) (t : FileTable) : Prop :=
  t = { t₀ with cachedFile := t.cachedFile } ∧ ∀ s, t.cachedFile = some s → s.good = true ∧ s.contents = file

namespace FileTable.Serves

variable {t₀ t : FileTable} {file : Bytes}

omit [Platform]

/-- The stream that a lookup leaves is kept. -/
theorem keep (h : t₀.Serves file t) {s : InputStream} (hs : s.good = true ∧ s.contents = file) :
    t₀.Serves file { t with cachedFile := some s } := by
  refine ⟨congrArg (fun x : FileTable => { x with cachedFile := some s }) h.1, ?_⟩
  intro s' hs'
  rw [← Option.some.inj hs']
  exact hs

/-- The stream a lookup works on, whether it is opened for it or kept. -/
theorem stream (h : t₀.Serves file t) :
    (t.cachedFile.getD (ofFile file)).good = true ∧ (t.cachedFile.getD (ofFile file)).contents = file := by
  cases hc : t.cachedFile with
  | none => exact ⟨rfl, rfl⟩
  | some s => exact h.2 s hc

end FileTable.Serves

/-- A table that serves the lookups in the file of its snapshot. -/
def ServesFlushed (m : SortedMap Bytes Entry) (t : FileTable) : Prop :=
  t = { flushedTable m with cachedFile := t.cachedFile } ∧
    ∀ s, t.cachedFile = some s → s.good = true ∧ s.contents = dataBytes m.entries ++ flushedMetadata m

theorem ServesFlushed.serves {t : FileTable} (h : ServesFlushed m t) :
    (flushedTable m).Serves (dataBytes m.entries ++ flushedMetadata m) t := h

/-- A table serves from the moment `flush` returns it. -/
theorem servesFlushed_flushedTable (m : SortedMap Bytes Entry) : ServesFlushed m (flushedTable m) :=
  ⟨rfl, fun _ hs => absurd hs (by simp [flushedTable])⟩

/-- The filter of a flushed table has all its keys. -/
theorem contains_flushedFilter {key : Bytes} {e : Entry} (h : m.find? key = some e) :
    (flushedFilter m).contains key = true := by
  apply BloomFilter.contains_of_mem
  · exact Platform.bloomBits_pos _ (List.length_pos_of_mem (SortedMap.find?_eq_some.mp h))
  · exact SortedMap.mem_keys.mpr ⟨e, h⟩

omit [Platform] in
theorem head_entries {lo : Bytes} (h : m.firstKey? = some lo) : ∃ e, m.entries[0]? = some (lo, e) := by
  have hhead : m.entries.head?.map (·.1) = some lo := by
    rw [← List.head?_map]
    exact h
  obtain ⟨first, hfirst, rfl⟩ := Option.map_eq_some_iff.mp hhead
  rw [List.head?_eq_getElem?] at hfirst
  exact ⟨first.2, hfirst⟩

/-- A key that is not below the range is looked for where it can be. -/
theorem ServesFlushed.scan {t : FileTable} (h : ServesFlushed m t) (hlim : FormatLimits m)
    (htomb : ∀ k e, m.find? k = some e → e.type = .delete → e.value = []) {lo key : Bytes}
    (hlo : m.firstKey? = some lo) (hkey : lo ≤ key) {s : InputStream} (hgood : s.good = true)
    (hcontents : s.contents = dataBytes m.entries ++ flushedMetadata m) :
    ∃ n, FileTable.scanLoop key (t.searchRange key).2
        ((dataBytes m.entries ++ flushedMetadata m).length + 1) (s.seekg (t.searchRange key).1)
      = some (m.find? key, (s.seekg (t.searchRange key).1).skip n) := by
  obtain ⟨e, hfirst⟩ := head_entries hlo
  have hindex : t.index = sparseIndex m.entries := by rw [h.1]; rfl
  have hoffset : t.metadataOffset = (dataBytes m.entries).length := by rw [h.1]; rfl
  obtain ⟨pre, segment, post, hsplit, hsearch, hpre, hpost⟩ :=
    exists_segment hindex hoffset m.sorted hfirst hkey
  -- the key is in the segment or nowhere
  have hfind : SortedMap.findEntry key segment = m.find? key := by
    rw [SortedMap.find?, hsplit, SortedMap.findEntry_append, SortedMap.findEntry_append,
      SortedMap.findEntry_eq_none hpre, SortedMap.findEntry_eq_none hpost, Option.none_or, Option.or_none]
  have hat : (s.seekg (dataBytes pre).length).At
      (dataBytes segment ++ (dataBytes post ++ flushedMetadata m)) := by
    apply at_seekg hgood
    rw [hcontents, hsplit, dataBytes_append, dataBytes_append]
    simp only [List.append_assoc]
  have hend : (dataBytes (pre ++ segment)).length
      = (s.seekg (dataBytes pre).length).pos + (dataBytes segment).length := by
    unfold seekg
    rw [if_pos hgood, dataBytes_append, List.length_append]
  have hmem : ∀ record ∈ segment, record ∈ m.entries := by
    intro record hrecord
    rw [hsplit]
    exact List.mem_append_right _ (List.mem_append_left _ hrecord)
  have hsegment : segment.Pairwise (·.1 < ·.1) := by
    have hsorted := m.sorted
    rw [hsplit] at hsorted
    exact (List.pairwise_append.mp (List.pairwise_append.mp hsorted).2.1).1
  -- a record has at least one byte, so the length of the file is enough fuel
  have hfuel : segment.length < (dataBytes m.entries ++ flushedMetadata m).length + 1 := by
    have hle := length_le_dataBytes m.entries
    have hlen := congrArg List.length hsplit
    rw [List.length_append, List.length_append] at hlen
    rw [List.length_append]
    omega
  rw [hsearch, ← hfind]
  exact scanLoop_segment hsegment (fun record hr => hlim.records record (hmem record hr))
    (fun record hr => htomb record.1 record.2 (SortedMap.find?_eq_some.mpr (hmem record hr))) hat hend hfuel

/-- The lookup does not come to the file: the key is out of range, or the filter rejects it. -/
def FileTable.Skips (t : FileTable) (key : Bytes) : Prop :=
  (key < t.minKey ∨ t.maxKey < key) ∨ (t.bloomFilter.any fun f => !f.contains key) = true

/-- A lookup in two cases: it skips the file, or it answers what the scan finds. -/
theorem FileTable.get_of_skips {t : FileTable} {key : Bytes} (h : t.Skips key) (file : Bytes) :
    t.get file key = some (none, t) := by
  unfold FileTable.get
  split_ifs with hrange hbloom
  · rfl
  · rfl
  · exact absurd h (not_or.mpr ⟨hrange, hbloom⟩)

theorem FileTable.get_of_scan {t : FileTable} {key file : Bytes} {out : Option Entry} {s : InputStream}
    (h : ¬ t.Skips key) (hscan : scanLoop key (t.searchRange key).2 (file.length + 1)
      ((t.cachedFile.getD (ofFile file)).seekg (t.searchRange key).1) = some (out, s)) :
    t.get file key = some (out, { t with cachedFile := some s }) := by
  obtain ⟨hrange, hbloom⟩ := not_or.mp h
  unfold FileTable.get
  rw [if_neg hrange, if_neg hbloom]
  dsimp only
  rw [hscan]
  rfl

/-- What a table with the range and the filter of a snapshot skips is not in it. -/
theorem find?_eq_none_of_skips {t : FileTable} (hne : m.isEmpty = false) (hmin : t.minKey = (flushedTable m).minKey)
    (hmax : t.maxKey = (flushedTable m).maxKey) (hfilter : t.bloomFilter = (flushedTable m).bloomFilter)
    {key : Bytes} (h : t.Skips key) : m.find? key = none := by
  obtain ⟨lo, hi, hlo, hhi⟩ := SortedMap.exists_bounds hne
  have hlo' : (flushedTable m).minKey = lo := congrArg (·.getD []) hlo
  have hhi' : (flushedTable m).maxKey = hi := congrArg (·.getD []) hhi
  by_contra hfind
  obtain ⟨e, he⟩ := Option.ne_none_iff_exists'.mp hfind
  rcases h with (h | h) | h
  · rw [hmin, hlo'] at h
    exact absurd h (not_lt.mpr (SortedMap.firstKey?_le hlo he))
  · rw [hmax, hhi'] at h
    exact absurd h (not_lt.mpr (SortedMap.le_lastKey? hhi he))
  · rw [hfilter] at h
    have hcontains := contains_flushedFilter he
    simp [flushedTable, hcontains] at h

/-- **A lookup** answers from the snapshot, and the table goes on serving. -/
theorem ServesFlushed.get {t : FileTable} (h : ServesFlushed m t) (hne : m.isEmpty = false)
    (hlim : FormatLimits m) (htomb : ∀ k e, m.find? k = some e → e.type = .delete → e.value = [])
    (key : Bytes) : ∃ t', t.get (dataBytes m.entries ++ flushedMetadata m) key = some (m.find? key, t') ∧
      ServesFlushed m t' := by
  obtain ⟨lo, hi, hlo, -⟩ := SortedMap.exists_bounds hne
  have hmin : t.minKey = lo := by rw [h.1]; exact congrArg (·.getD []) hlo
  by_cases hskips : t.Skips key
  · refine ⟨t, ?_, h⟩
    rw [FileTable.get_of_skips hskips, find?_eq_none_of_skips hne (by rw [h.1]) (by rw [h.1]) (by rw [h.1]) hskips]
  · obtain ⟨hgood, hcontents⟩ := h.serves.stream
    have hkey : lo ≤ key := by
      obtain ⟨hrange, -⟩ := not_or.mp hskips
      exact not_lt.mp (hmin ▸ (not_or.mp hrange).1)
    obtain ⟨n, hscan⟩ := h.scan hlim htomb hlo hkey hgood hcontents
    refine ⟨_, FileTable.get_of_scan hskips hscan, h.serves.keep ?_⟩
    unfold seekg skip
    rw [if_pos hgood]
    exact ⟨hgood, hcontents⟩

/-- Any number of lookups. -/
theorem ServesFlushed.getAll {t : FileTable} (h : ServesFlushed m t) (hne : m.isEmpty = false)
    (hlim : FormatLimits m) (htomb : ∀ k e, m.find? k = some e → e.type = .delete → e.value = [])
    (keys : List Bytes) :
    t.getAll (dataBytes m.entries ++ flushedMetadata m) keys = some (keys.map m.find?) := by
  induction keys generalizing t with
  | nil => rfl
  | cons key keys ih =>
      obtain ⟨t', hget, h'⟩ := h.get hne hlim htomb key
      rw [FileTable.getAll, hget]
      simp only [Option.bind_eq_bind, Option.bind_some, ih h', List.map_cons]

/-- **Point lookups.** The table that `flush` returns and the one that is opened on its file both answer every
    lookup with the snapshot's entry, as long as the size of the filter fits. -/
theorem getAll_flush (hne : m.isEmpty = false)
    (htomb : ∀ k e, m.find? k = some e → e.type = .delete → e.value = []) (hlim : FormatLimits m)
    (hsize : (BloomFilter.new m.size).serializedSize < 2 ^ 32) (keys : List Bytes) :
    ∃ t file, FileTable.flush none m = some (t, file) ∧ t.getAll file keys = some (keys.map m.find?) ∧
      ∃ t', FileTable.construct (some file) = some t' ∧ t'.getAll file keys = some (keys.map m.find?) := by
  have hall := (servesFlushed_flushedTable m).getAll hne hlim htomb keys
  exact ⟨_, _, flush_eq hne, hall, _, construct_flushed hne hlim hsize, hall⟩

/-! The file and the table of `Engine.SSTable`: they answer the same, and the size is right. -/

omit [Platform] in
theorem length_sparseIndex_bytes (hfits : ∀ entry ∈ sparseIndex m.entries, entry.key.length < 2 ^ 32) :
    ((sparseIndex m.entries).flatMap IndexEntry.bytes).length
      = ((m.keys.zipIdx.filter (·.2 % 16 = 0)).map fun (k, _) => 4 + k.length + 8).sum := by
  have hbytes : (sparseIndex m.entries).map (fun entry => entry.bytes.length)
      = (sparseIndex m.entries).map fun entry => 4 + entry.key.length + 8 := by
    apply List.map_congr_left
    intro entry hentry
    unfold IndexEntry.bytes length32
    rw [Nat.mod_eq_of_lt (hfits entry hentry), List.take_length]
    simp only [List.length_append, length_encode]
  rw [List.length_flatMap, hbytes]
  unfold sparseIndex SortedMap.keys
  rw [List.zipIdx_map, List.filter_map, List.map_map, List.map_map]
  rfl

/-- The length of the file is what the table states as its size. -/
theorem length_flushed (hne : m.isEmpty = false) (hlim : FormatLimits m)
    (hsize : (BloomFilter.new m.size).serializedSize < 2 ^ 32) (dirPath : Bytes) (id : Nat) :
    (dataBytes m.entries ++ flushedMetadata m).length = (SSTable.flush m dirPath id).fileSize := by
  obtain ⟨lo, hi, hlo, hhi⟩ := SortedMap.exists_bounds hne
  have hlo32 : length32 lo = lo.length := Nat.mod_eq_of_lt (hlim.key (List.mem_of_head? hlo))
  have hhi32 : length32 hi = hi.length := Nat.mod_eq_of_lt (hlim.key (List.mem_of_getLast? hhi))
  have hfilter : (flushedFilter m).serialize.length = (flushedFilter m).serializedSize :=
    BloomFilter.length_serialize _
  have hfilter32 : length32 (flushedFilter m).serialize = (flushedFilter m).serialize.length := by
    apply Nat.mod_eq_of_lt
    rw [hfilter, flushedFilter, serializedSize_addAll]
    exact hsize
  have hdata : (dataBytes m.entries).length
      = (m.entries.map fun record => 8 + 1 + 4 + 4 + record.1.length + record.2.value.length).sum := by
    unfold dataBytes
    rw [List.length_flatMap]
    refine congrArg List.sum (List.map_congr_left ?_)
    intro record hrecord
    rw [recordBytes_eq (hlim.records record hrecord)]
    simp only [List.length_append, length_encode, List.length_singleton]
    omega
  have hindex := length_sparseIndex_bytes fun entry hentry => (hlim.indexEntry (m := m) hentry).1
  have hmeta : (flushedMetadata m).length = (4 + 4 + lo.length + hi.length)
      + (4 + ((sparseIndex m.entries).flatMap IndexEntry.bytes).length)
      + (4 + (flushedFilter m).serializedSize) + 8 := by
    unfold flushedMetadata metadataWith metadataBytes
    rw [hlo, hhi, Option.getD_some, Option.getD_some, hlo32, hhi32, hfilter32, List.take_length,
      List.take_length, List.take_length]
    simp only [List.length_append, length_encode, hfilter]
    omega
  have hlo' : m.firstKey?.getD [] = lo := by rw [hlo]; rfl
  have hhi' : m.lastKey?.getD [] = hi := by rw [hhi]; rfl
  have hassoc : ∀ a b c d e : Nat, a + (b + c + d + e) = a + b + c + d + e := by
    intro a b c d e
    omega
  rw [List.length_append, hmeta, hdata, hindex, ← hlo', ← hhi', hassoc]
  rfl

/-- A lookup in a flushed table is one in the memtable it was flushed from. -/
theorem get_flush_eq_find? (m : SortedMap Bytes Entry) (dirPath : Bytes) (id : Nat) :
    (SSTable.flush m dirPath id).get = m.find? := by
  funext key
  rw [SSTable.get_eq, SSTable.records_flush]

/-- A put and a tombstone. -/
def smallSnapshot : SortedMap Bytes Entry where
  entries := [(Bytes.ascii "a", ⟨Bytes.ascii "1", 1, .put⟩), (Bytes.ascii "b", ⟨[], 2, .delete⟩)]
  sorted := by decide

omit [Platform] in
theorem tombstones_smallSnapshot (k : Bytes) (e : Entry) (he : smallSnapshot.find? k = some e)
    (hdelete : e.type = .delete) : e.value = [] := by
  rcases List.mem_cons.mp (SortedMap.find?_eq_some.mp he) with h | h
  · rw [(Prod.mk.inj h).2] at hdelete
    exact absurd hdelete (by decide)
  · rw [(Prod.mk.inj (List.mem_singleton.mp h)).2]

omit [Platform] in
theorem length_sparseIndex_le (records : List (Bytes × Entry)) : (sparseIndex records).length ≤ records.length := by
  unfold sparseIndex
  rw [List.length_map]
  exact (List.length_filter_le _ _).trans_eq List.length_zipIdx

omit [Platform] in
/-- For a snapshot of less than 4 GiB only the sizes of its records can be too large. -/
theorem limits_of_small {m : SortedMap Bytes Entry} (hfits : ∀ record ∈ m.entries, RecordFits record)
    (hdata : (dataBytes m.entries).length < 2 ^ 32) : letI := Platform.sample; FormatLimits m := by
  let := Platform.sample
  have hlength := length_le_dataBytes m.entries
  have hindex := length_sparseIndex_le m.entries
  have hsize : m.size < 2 ^ 32 := hlength.trans_lt hdata
  refine ⟨hfits, by omega, by omega, ?_, ?_⟩
  · show 9585 * m.size / 1000 < 2 ^ 64
    omega
  · show (if 6 < 1 then 1 else 6) < 2 ^ 64
    decide

omit [Platform] in
theorem limits_smallSnapshot : letI := Platform.sample; FormatLimits smallSnapshot := by
  refine limits_of_small ?_ (by decide)
  unfold RecordFits
  decide

omit [Platform] in
/-- Both are found again, and a key between them is not. -/
theorem getAll_flush_smallSnapshot : letI := Platform.sample
    ∃ t file, FileTable.flush none smallSnapshot = some (t, file) ∧
      t.getAll file [Bytes.ascii "a", Bytes.ascii "aa", Bytes.ascii "b"]
        = some [some ⟨Bytes.ascii "1", 1, .put⟩, none, some ⟨[], 2, .delete⟩] ∧
      ∃ t', FileTable.construct (some file) = some t' ∧
        t'.getAll file [Bytes.ascii "a", Bytes.ascii "aa", Bytes.ascii "b"]
          = some [some ⟨Bytes.ascii "1", 1, .put⟩, none, some ⟨[], 2, .delete⟩] := by
  let := Platform.sample
  exact getAll_flush (by decide) tombstones_smallSnapshot limits_smallSnapshot (by decide)
    [Bytes.ascii "a", Bytes.ascii "aa", Bytes.ascii "b"]

end Lookups

/-! ## F. A table too large

The size of the filter is written as a `uint32_t`; above that the constructor hands `deserialize` fewer bytes than the
filter has, and that reads past their end. -/

section TooLarge

/-- **A table that cannot be opened again**: the size of its filter does not fit into the four bytes for it. -/
theorem construct_with_of_large [Platform] {m : SortedMap Bytes Entry} (hne : m.isEmpty = false)
    (hlim : FormatLimits m) (hsize : 2 ^ 32 ≤ (BloomFilter.new m.size).serializedSize) {index : List IndexEntry}
    (hcount : index.length < 2 ^ 32)
    (hindex : ∀ entry ∈ index, entry.key.length < 2 ^ 32 ∧ entry.offset < 2 ^ 64) :
    FileTable.construct (some (dataBytes m.entries ++ metadataWith index m)) = none := by
  have hbits : (flushedFilter m).bitArraySize < 2 ^ 64 := by
    rw [flushedFilter, bitArraySize_addAll]
    exact hlim.bits
  have hlt : length32 (flushedFilter m).serialize < (flushedFilter m).serializedSize := by
    have hle : 2 ^ 32 ≤ (flushedFilter m).serializedSize := by
      rw [flushedFilter, serializedSize_addAll]
      exact hsize
    exact (Nat.mod_lt _ (by decide)).trans_le hle
  show FileTable.loadMetadata _ = _
  rw [loadMetadata_with hne hlim hcount hindex, BloomFilter.deserialize_take hbits hlt]
  rfl

/-- A table whose filter has 4 GiB is not read back. -/
theorem construct_flushed_of_large [Platform] {m : SortedMap Bytes Entry} (hne : m.isEmpty = false)
    (hlim : FormatLimits m) (hsize : 2 ^ 32 ≤ (BloomFilter.new m.size).serializedSize) :
    FileTable.construct (some (dataBytes m.entries ++ flushedMetadata m)) = none :=
  construct_with_of_large hne hlim hsize hlim.index fun _ => hlim.indexEntry

/-- The numbers below `n` as keys of four bytes, each put with an empty value. -/
def numberedKeys (n : Nat) (h : n ≤ 256 ^ 4) : SortedMap Bytes Entry where
  entries := (List.range n).map fun i => ((encode 4 i).reverse, ⟨[], i, .put⟩)
  sorted := by
    rw [List.pairwise_map]
    refine List.pairwise_lt_range.imp_of_mem ?_
    intro i j _ hj hij
    exact reverse_encode_lt hij ((List.mem_range.mp hj).trans_le h)

variable {n : Nat} (h : n ≤ 256 ^ 4)

theorem size_numberedKeys : (numberedKeys n h).size = n := by
  show ((List.range n).map _).length = n
  rw [List.length_map, List.length_range]

theorem mem_numberedKeys {record : Bytes × Entry} (hr : record ∈ (numberedKeys n h).entries) :
    ∃ i < n, record = ((encode 4 i).reverse, ⟨[], i, .put⟩) := by
  obtain ⟨i, hi, rfl⟩ := List.mem_map.mp hr
  exact ⟨i, List.mem_range.mp hi, rfl⟩

theorem recordFits_numberedKeys {record : Bytes × Entry} (hr : record ∈ (numberedKeys n h).entries) :
    RecordFits record := by
  obtain ⟨i, hi, rfl⟩ := mem_numberedKeys h hr
  refine ⟨?_, ?_, ?_⟩
  · show (encode 4 i).reverse.length < _
    rw [List.length_reverse, length_encode]
    decide
  · show 0 < 2 ^ 32
    decide
  · exact (hi.trans_le h).trans_le (by decide)

theorem length_dataBytes_le {c : Nat} {records : List (Bytes × Entry)}
    (hc : ∀ record ∈ records, (recordBytes record).length ≤ c) :
    (dataBytes records).length ≤ c * records.length := by
  induction records with
  | nil => exact Nat.zero_le _
  | cons record records ih =>
      obtain ⟨hrecord, hrest⟩ := List.forall_mem_cons.mp hc
      have hle := ih hrest
      rw [dataBytes_cons, List.length_append, List.length_cons, Nat.mul_succ]
      omega

/-- With enough numbered keys the filter is too large, and nothing else is. -/
theorem not_construct_of_many : letI := Platform.sample
    2 ^ 32 ≤ 24 + (9585 * n / 1000 + 7) / 8 → n < 2 ^ 32 →
      ∃ t file, FileTable.flush none (numberedKeys n h) = some (t, file) ∧
        FileTable.construct (some file) = none := by
  let := Platform.sample
  intro hlarge hn
  have hsize := size_numberedKeys h
  have hlength : (numberedKeys n h).entries.length = n := hsize
  have hne : (numberedKeys n h).isEmpty = false := by
    show (numberedKeys n h).entries.isEmpty = false
    rw [List.isEmpty_eq_false_iff, ← List.length_pos_iff, hlength]
    omega
  have hbits : (BloomFilter.new (numberedKeys n h).size).bitArraySize = 9585 * n / 1000 := by
    show 9585 * (numberedKeys n h).size / 1000 = _
    rw [hsize]
  have hlim : FormatLimits (numberedKeys n h) := by
    refine ⟨fun record => recordFits_numberedKeys h, ?_, ?_, ?_, ?_⟩
    -- 17 bytes of header and a key of 4
    · have hle : (dataBytes (numberedKeys n h).entries).length ≤ 21 * (numberedKeys n h).entries.length := by
        apply length_dataBytes_le
        intro record hr
        obtain ⟨i, -, rfl⟩ := mem_numberedKeys h hr
        rw [recordBytes_eq (recordFits_numberedKeys h hr)]
        simp
      rw [hlength] at hle
      omega
    · have hle := length_sparseIndex_le (numberedKeys n h).entries
      omega
    · rw [hbits]
      omega
    · show (if 6 < 1 then 1 else 6) < 2 ^ 64
      decide
  refine ⟨_, _, flush_eq hne, construct_flushed_of_large hne hlim ?_⟩
  unfold BloomFilter.serializedSize
  rw [hbits]
  exact hlarge

/-- 3.6 billion keys. -/
theorem not_construct_numberedKeys : letI := Platform.sample
    ∃ m : SortedMap Bytes Entry, m = numberedKeys 3600000000 (by decide) ∧
      (∀ record ∈ m.entries, RecordFits record ∧ record.2.type = .put) ∧
      ∃ t file, FileTable.flush none m = some (t, file) ∧ FileTable.construct (some file) = none := by
  let := Platform.sample
  refine ⟨_, rfl, ?_, not_construct_of_many _ (by decide) (by decide)⟩
  intro record hr
  refine ⟨recordFits_numberedKeys _ hr, ?_⟩
  obtain ⟨i, -, rfl⟩ := mem_numberedKeys _ hr
  rfl

end TooLarge

end KvStorageEngine
