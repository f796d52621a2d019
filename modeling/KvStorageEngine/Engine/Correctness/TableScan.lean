import KvStorageEngine.Engine.Correctness.MergeReference

/-!
# `Engine.Correctness.TableScan` — a table read as a whole

Besides the lookup of one key there are two loops that decode the records of a table, `SSTable::Iterator` for
compactions and `getData`. Both compare the position of their stream with the offset of the metadata before each record.
In front of some records that reach up to there, each reads these records and nothing else (`shows_of_at`,
`dataLoop_records`).

The offset is the one thing that they take from the table, so it makes no difference whether `flush` has returned the
table or the constructor has found the offset at the end of the file (`scans_flush`).
-/

namespace KvStorageEngine

open LittleEndian InputStream

/-- A record of a snapshot, as the iterator yields it. -/
def tableEntry (record : Bytes × Entry) : SSTableEntry := ⟨record.1, record.2.value, record.2.seq, record.2.type⟩

section Loops

variable {rest : Bytes} {records : List (Bytes × Entry)} (hfits : ∀ record ∈ records, RecordFits record)
  (htomb : ∀ record ∈ records, record.2.type = .delete → record.2.value = [])
include hfits htomb

/-! ## A. The iterator

`readNext` compares the position with the offset of the metadata, and decodes one record. -/

namespace TableIterator

omit hfits htomb in
/-- An iterator that has come to its end stays there. -/
theorem nexts_of_end {it : TableIterator} (hgood : it.file.good = true) (hend : it.dataEnd = it.file.pos) (n : Nat) :
    nexts n { it with valid := false } = some { it with valid := false } := by
  induction n with
  | zero => rfl
  | succ n ih =>
      have hnext : readNext { it with valid := false } = some { it with valid := false } := readNext_of_end hgood hend
      rw [nexts, hnext, Option.bind_some, ih]

/-- **In front of some records**, `readNext` starts to yield them, one at each call, and after the last one the iterator
    is invalid for good. -/
theorem shows_of_at {it : TableIterator} (h : it.file.At (dataBytes records ++ rest))
    (hend : it.dataEnd = it.file.pos + (dataBytes records).length) :
    ∃ it', it.readNext = some it' ∧ ∀ i, ∃ it'', it'.nexts i = some it'' ∧ it''.Shows (records[i]?.map tableEntry) := by
  induction records generalizing it with
  | nil =>
      have hstop : it.dataEnd = it.file.pos := hend
      refine ⟨{ it with valid := false }, readNext_of_end h.1 hstop, ?_⟩
      intro i
      exact ⟨{ it with valid := false }, nexts_of_end h.1 hstop i, rfl⟩
  | cons record records ih =>
      obtain ⟨hrecord, hfits⟩ := List.forall_mem_cons.mp hfits
      obtain ⟨htombRecord, htomb⟩ := List.forall_mem_cons.mp htomb
      rw [dataBytes_cons, List.append_assoc] at h
      rw [dataBytes_cons, List.length_append] at hend
      have hpos := recordBytes_pos record
      have hnext := readNext_record hrecord htombRecord h (by omega)
      refine ⟨_, hnext, ?_⟩
      have hend' : it.dataEnd = (it.file.skip (recordBytes record).length).pos + (dataBytes records).length := by
        show it.dataEnd = it.file.pos + (recordBytes record).length + _
        omega
      obtain ⟨it', hnext', hshows⟩ := @ih hfits htomb
        { it with
          file := it.file.skip (recordBytes record).length
          valid := true
          current := ⟨record.1, record.2.value, record.2.seq, record.2.type⟩ } h.skip hend'
      intro i
      cases i with
      | zero => exact ⟨_, rfl, rfl, rfl⟩
      | succ i =>
          obtain ⟨it'', hnexts, hshow⟩ := hshows i
          refine ⟨it'', ?_, hshow⟩
          rw [nexts, hnext', Option.bind_some, hnexts]

end TableIterator

/-! ## B. The map

`getData` has the same loop, and puts what it decodes into a map. -/

namespace FileTable

omit hfits htomb in
/-- One round of `getData` at a record. -/
theorem dataLoop_record {record : Bytes × Entry} (hfits : RecordFits record)
    (htomb : record.2.type = .delete → record.2.value = []) {s : InputStream} (h : s.At (recordBytes record ++ rest))
    {metadataOffset : Nat} (hend : s.pos < metadataOffset) (fuel : Nat) (data : SortedMap Bytes Entry) :
    dataLoop metadataOffset (fuel + 1) s data =
      dataLoop metadataOffset fuel (s.skip (recordBytes record).length) (data.insert record.1 record.2) := by
  obtain ⟨hseq, hgood, htype, hkeyLen, hvalueLen, hkey, hvalue, hlength⟩ := reads_of_record hfits h
  obtain ⟨k, value, seq, type⟩ := record
  have htell : s.tellg.all (fun pos => decide (pos < metadataOffset)) = true := by
    rw [tellg_all h.1, decide_eq_true hend]
  have hseq' : decode (encode 8 seq) = seq := decode_encode hfits.2.2
  rw [dataLoop]
  simp only [htell, if_true, hseq, hgood, htype, hkeyLen, hvalueLen, hkey, ofByte_decode, Option.bind_eq_bind,
    Option.bind_some, hseq', hlength]
  cases type with
  | put => simp only [if_true, hvalue]
  | delete =>
      obtain rfl : value = [] := htomb rfl
      simp only [reduceCtorEq, if_false, List.length_nil, Nat.add_zero]
      rfl

/-- **In front of some records** the loop of `getData` puts them into the map. -/
theorem dataLoop_records {s : InputStream} (h : s.At (dataBytes records ++ rest)) {metadataOffset : Nat}
    (hend : metadataOffset = s.pos + (dataBytes records).length) {fuel : Nat} (hfuel : records.length < fuel)
    (data : SortedMap Bytes Entry) : dataLoop metadataOffset fuel s data =
      some (records.foldl (fun data r => data.insert r.1 r.2) data, s.skip (dataBytes records).length) := by
  induction records generalizing s fuel data with
  | nil =>
      obtain ⟨fuel, rfl⟩ := Nat.exists_eq_succ_of_ne_zero (Nat.ne_of_gt hfuel)
      have htell : s.tellg.all (fun pos => decide (pos < metadataOffset)) = false := by
        rw [tellg_all h.1, hend]
        simp [dataBytes]
      rw [dataLoop, htell]
      rfl
  | cons record records ih =>
      obtain ⟨fuel, rfl⟩ := Nat.exists_eq_succ_of_ne_zero (Nat.ne_of_gt (Nat.zero_lt_of_lt hfuel))
      obtain ⟨hrecord, hfits⟩ := List.forall_mem_cons.mp hfits
      obtain ⟨htombRecord, htomb⟩ := List.forall_mem_cons.mp htomb
      rw [dataBytes_cons, List.append_assoc] at h
      rw [dataBytes_cons, List.length_append] at hend
      have hpos := recordBytes_pos record
      have hnext : metadataOffset = (s.skip (recordBytes record).length).pos + (dataBytes records).length := by
        show metadataOffset = s.pos + (recordBytes record).length + _
        omega
      rw [dataLoop_record hrecord htombRecord h (by omega), ih hfits htomb h.skip hnext (Nat.lt_of_succ_lt_succ hfuel),
        InputStream.skip_skip, dataBytes_cons, List.length_append]
      rfl

end FileTable

end Loops

/-! ## C. Both of them

The file of a flushed table is the records and then the metadata, whether it was written just now or opened again. -/

namespace FileTable

/-- An opened table has the offset in the last eight bytes of its file. -/
theorem metadataOffset_of_construct {front : Bytes} {offset : Nat} (hoffset : offset < 2 ^ 64) {t : FileTable}
    (h : construct (some (front ++ encode 8 offset)) = some t) : t.metadataOffset = offset := by
  have hlen : (front ++ encode 8 offset).length = front.length + 8 := by
    rw [List.length_append, length_encode]
  have hat : ((ofFile (front ++ encode 8 offset)).seekg (front.length + 8 - 8)).At (encode 8 offset ++ []) := by
    rw [Nat.add_sub_cancel]
    apply at_seekg rfl
    rw [List.append_nil]
    rfl
  have hload : loadMetadata (front ++ encode 8 offset) = some t := h
  unfold loadMetadata at hload
  rw [hlen, if_neg (by omega)] at hload
  simp only [readUInt_encode hat hoffset, Option.bind_eq_bind, Option.bind_some, Option.bind_eq_some_iff, Prod.exists,
    Option.some.injEq] at hload
  obtain ⟨minLen, s₁, -, maxLen, s₂, -, lo, s₃, -, hi, s₄, -, count, s₅, -, index, s₆, -, bloomLen, s₇, -, filter, -,
    rfl⟩ := hload
  rfl

/-- What the two loops make of a table and its file: the iterator shows the entries of the snapshot, one after the
    other, and nothing after them, and `getData` returns the snapshot, also when the table has served lookups before. -/
def Scans (t : FileTable) (file : Bytes) (m : SortedMap Bytes Entry) : Prop :=
  (∃ it, TableIterator.construct file t.metadataOffset = some it ∧
    ∀ i, ∃ it', it.nexts i = some it' ∧ it'.Shows (m.entries[i]?.map tableEntry)) ∧
  ∀ t', t.Serves file t' → ∃ t'', t'.getData file = some (m, t'') ∧ t.Serves file t''

/-- A table scans what is in front of its metadata. -/
theorem scans_of_metadataOffset {m : SortedMap Bytes Entry} (hfits : ∀ record ∈ m.entries, RecordFits record)
    (htomb : ∀ record ∈ m.entries, record.2.type = .delete → record.2.value = []) {t : FileTable}
    (hend : t.metadataOffset = (dataBytes m.entries).length) (metadata : Bytes) :
    t.Scans (dataBytes m.entries ++ metadata) m := by
  constructor
  · have hat : ((ofFile (dataBytes m.entries ++ metadata)).seekg 0).At (dataBytes m.entries ++ metadata) :=
      at_seekg (a := []) rfl rfl
    apply TableIterator.shows_of_at hfits htomb hat
    rw [hend]
    exact (Nat.zero_add _).symm
  · intro t' hserves
    obtain ⟨hgood, hcontents⟩ := hserves.stream
    have hat : ((t'.cachedFile.getD (ofFile (dataBytes m.entries ++ metadata))).seekg 0).At
        (dataBytes m.entries ++ metadata) := at_seekg (a := []) hgood hcontents
    have hstart : (t'.cachedFile.getD (ofFile (dataBytes m.entries ++ metadata))).seekg 0 =
        { t'.cachedFile.getD (ofFile (dataBytes m.entries ++ metadata)) with pos := 0 } := if_pos hgood
    have hend' : t'.metadataOffset =
        ((t'.cachedFile.getD (ofFile (dataBytes m.entries ++ metadata))).seekg 0).pos + (dataBytes m.entries).length := by
      rw [hstart, Nat.zero_add, hserves.1]
      exact hend
    have hfuel : m.entries.length < (dataBytes m.entries ++ metadata).length + 1 := by
      have hle := length_le_dataBytes m.entries
      rw [List.length_append]
      omega
    have hloop := dataLoop_records hfits htomb hat hend' hfuel SortedMap.empty
    rw [SortedMap.foldl_insert_entries] at hloop
    unfold getData
    simp only [hloop, Option.bind_eq_bind, Option.bind_some]
    refine ⟨_, rfl, hserves.keep ?_⟩
    rw [hstart]
    exact ⟨hgood, hcontents⟩

variable [Platform]

/-- **Full scans.** The table that `flush` returns, and the one that is opened on its file, scan exactly the snapshot.
    -/
theorem scans_flush {m : SortedMap Bytes Entry} (hne : m.isEmpty = false)
    (hfits : ∀ record ∈ m.entries, RecordFits record)
    (htomb : ∀ record ∈ m.entries, record.2.type = .delete → record.2.value = []) :
    ∃ t file, flush none m = some (t, file) ∧ t.Scans file m ∧
      ((dataBytes m.entries).length < 2 ^ 64 → ∀ t', construct (some file) = some t' → t'.Scans file m) := by
  refine ⟨_, _, flush_eq hne, scans_of_metadataOffset hfits htomb rfl _, ?_⟩
  intro hlt t' hopen
  have hoffset : t'.metadataOffset = (dataBytes m.entries).length := by
    unfold flushedMetadata metadataWith metadataBytes at hopen
    rw [← List.append_assoc] at hopen
    exact metadataOffset_of_construct hlt hopen
  exact scans_of_metadataOffset hfits htomb hoffset _

omit [Platform] in
/-- A table with a put and a tombstone. -/
theorem scans_flush_smallSnapshot : letI := Platform.sample
    ∃ t file, flush none smallSnapshot = some (t, file) ∧ t.Scans file smallSnapshot ∧
      ((dataBytes smallSnapshot.entries).length < 2 ^ 64 → ∀ t', construct (some file) = some t' →
        t'.Scans file smallSnapshot) := by
  let := Platform.sample
  have hfits : ∀ record ∈ smallSnapshot.entries, RecordFits record := by
    unfold RecordFits
    decide
  exact scans_flush (by decide) hfits
    fun record hrecord => tombstones_smallSnapshot record.1 record.2 (SortedMap.find?_eq_some.mpr hrecord)

end FileTable

end KvStorageEngine
