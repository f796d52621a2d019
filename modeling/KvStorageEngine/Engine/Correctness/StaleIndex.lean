import KvStorageEngine.Engine.Correctness.PointLookup

/-!
# `Engine.Correctness.StaleIndex` — flushing over a file that is there

`SSTable::flush` constructs its table on the target path before it opens the file for writing. Where a table file is left
there, the constructor loads its index, and `flush` appends to that: the entries in front are keys and offsets of a file
that is gone.

A lookup searches the doubled index. What it then scans of the new file is the right part if the scan begins at a record
and the record of the key stands in it (`scanLoop_from`), and that decides the answer (`answersLike_iff`). A lookup that
ends behind the stale entries is not misled by them (`inRange_of_behind`), and where there is only one it always does
(`answersLike_of_single`).
-/

namespace KvStorageEngine

open LittleEndian InputStream

/-! ## A. The scan of an arbitrary part of the file

The scan of a sparse block is known to begin at an index entry. A stale offset begins anywhere, and what the scan then
finds is said here for any beginning at a record and any end. -/

/-- Where the record of a key stands, or would stand. -/
def placeOf (key : Bytes) (records : List (Bytes × Entry)) : Nat :=
  (dataBytes (records.takeWhile (·.1 < key))).length

theorem placeOf_cons_of_lt {key : Bytes} {record : Bytes × Entry} (h : record.1 < key) (records : List (Bytes × Entry)) :
    placeOf key (record :: records) = (recordBytes record).length + placeOf key records := by
  unfold placeOf
  rw [List.takeWhile_cons, if_pos (decide_eq_true h), dataBytes_cons, List.length_append]

theorem placeOf_cons_of_le {key : Bytes} {record : Bytes × Entry} (h : key ≤ record.1) (records : List (Bytes × Entry)) :
    placeOf key (record :: records) = 0 := by
  unfold placeOf
  rw [List.takeWhile_cons, if_neg (by simpa using h)]
  rfl

section Scan

variable {key : Bytes} {searchEnd : Nat} {s : InputStream} {rest : Bytes}

/-- A scan of nothing. -/
theorem scanLoop_empty (hgood : s.good = true) (h : searchEnd ≤ s.pos) (fuel : Nat) :
    FileTable.scanLoop key searchEnd (fuel + 1) s = some (none, s) := by
  have htell : s.tellg.all (fun pos => decide (pos < searchEnd)) = false := by
    rw [tellg_all hgood, decide_eq_false (Nat.not_lt.mpr h)]
  rw [FileTable.scanLoop, htell]
  rfl

/-- **The scan from a record on** finds the key's record if this begins in front of the end, and stops behind it. -/
theorem scanLoop_from (searchEnd : Nat) {records : List (Bytes × Entry)} (hsorted : records.Pairwise (·.1 < ·.1))
    (hfits : ∀ record ∈ records, RecordFits record)
    (htomb : ∀ record ∈ records, record.2.type = .delete → record.2.value = [])
    (h : s.At (dataBytes records ++ rest)) (hlast : ∃ record ∈ records, key ≤ record.1) {fuel : Nat}
    (hfuel : records.length < fuel) : ∃ n, FileTable.scanLoop key searchEnd fuel s =
      some (if s.pos + placeOf key records < searchEnd then SortedMap.findEntry key records else none, s.skip n) := by
  induction records generalizing s fuel with
  | nil =>
      obtain ⟨record, hrecord, -⟩ := hlast
      exact absurd hrecord List.not_mem_nil
  | cons record records ih =>
      obtain ⟨fuel, rfl⟩ := Nat.exists_eq_succ_of_ne_zero (Nat.ne_of_gt (Nat.zero_lt_of_lt hfuel))
      obtain ⟨hrecord, hfits⟩ := List.forall_mem_cons.mp hfits
      obtain ⟨htombRecord, htomb⟩ := List.forall_mem_cons.mp htomb
      obtain ⟨hfirst, hsorted⟩ := List.pairwise_cons.mp hsorted
      rw [dataBytes_cons, List.append_assoc] at h
      by_cases hend : s.pos < searchEnd
      · rw [scanLoop_record hrecord htombRecord h hend]
        rcases lt_trichotomy record.1 key with hlt | heq | hgt
        · -- the key is further on
          have hlast' : ∃ r ∈ records, key ≤ r.1 := by
            obtain ⟨r, hr, hle⟩ := hlast
            rcases List.mem_cons.mp hr with rfl | hr
            · exact absurd hle (not_le.mpr hlt)
            · exact ⟨r, hr, hle⟩
          obtain ⟨n, hn⟩ := ih hsorted hfits htomb h.skip hlast' (Nat.lt_of_succ_lt_succ hfuel)
          refine ⟨(recordBytes record).length + n, ?_⟩
          rw [if_neg hlt.ne, if_neg (lt_asymm hlt), hn, InputStream.skip_skip, placeOf_cons_of_lt hlt,
            SortedMap.findEntry, if_neg hlt.ne', ← Nat.add_assoc]
          rfl
        · refine ⟨(recordBytes record).length, ?_⟩
          rw [if_pos heq, placeOf_cons_of_le heq.ge, Nat.add_zero, if_pos hend, SortedMap.findEntry, if_pos heq.symm]
        · refine ⟨(recordBytes record).length, ?_⟩
          rw [if_neg hgt.ne', if_pos hgt, SortedMap.findEntry, if_neg hgt.ne,
            SortedMap.findEntry_eq_none fun q hq => (hgt.trans (hfirst q hq)).ne', ite_self]
      · -- nothing is scanned
        refine ⟨0, ?_⟩
        rw [scanLoop_empty h.1 (not_lt.mp hend), if_neg (show ¬ _ + _ < _ by omega)]
        rfl

end Scan

/-- A key beyond some records has its place behind them. -/
theorem placeOf_append_of_lt {key : Bytes} {records : List (Bytes × Entry)} (h : ∀ record ∈ records, record.1 < key)
    (more : List (Bytes × Entry)) : placeOf key (records ++ more) = (dataBytes records).length + placeOf key more := by
  unfold placeOf
  rw [List.takeWhile_append_of_pos (fun record hr => decide_eq_true (h record hr)), dataBytes_append, List.length_append]

/-- A key not beyond some of the records has its place in front of their end. -/
theorem placeOf_append_lt {key : Bytes} {records : List (Bytes × Entry)} (h : ∃ record ∈ records, key ≤ record.1)
    (more : List (Bytes × Entry)) : placeOf key (records ++ more) < (dataBytes records).length := by
  induction records with
  | nil =>
      obtain ⟨record, hrecord, -⟩ := h
      exact absurd hrecord List.not_mem_nil
  | cons record records ih =>
      have hpos := recordBytes_pos record
      rw [List.cons_append, dataBytes_cons, List.length_append]
      by_cases hlt : record.1 < key
      · rw [placeOf_cons_of_lt hlt, Nat.add_lt_add_iff_left]
        apply ih
        obtain ⟨r, hr, hle⟩ := h
        rcases List.mem_cons.mp hr with rfl | hr
        · exact absurd hle (not_le.mpr hlt)
        · exact ⟨r, hr, hle⟩
      · rw [placeOf_cons_of_le (not_lt.mp hlt)]
        have hnil : (dataBytes ([] : List (Bytes × Entry))).length = 0 := rfl
        omega

/-- The scan of a part of a file that begins at a record. -/
theorem scanLoop_part {m : SortedMap Bytes Entry} (hfits : ∀ record ∈ m.entries, RecordFits record)
    (htomb : ∀ k e, m.find? k = some e → e.type = .delete → e.value = []) {i : Nat} {key hi tail : Bytes}
    (hlt : i < m.entries.length) (hhi : m.lastKey? = some hi) (hkey : key ≤ hi) {s : InputStream}
    (hgood : s.good = true) (hcontents : s.contents = dataBytes m.entries ++ tail) (searchEnd : Nat) :
    ∃ n, FileTable.scanLoop key searchEnd ((dataBytes m.entries ++ tail).length + 1)
        (s.seekg (dataBytes (m.entries.take i)).length) =
      some (if (dataBytes (m.entries.take i)).length ≤ placeOf key m.entries ∧ placeOf key m.entries < searchEnd
        then m.find? key else none, (s.seekg (dataBytes (m.entries.take i)).length).skip n) := by
  have hsplit : m.entries = m.entries.take i ++ m.entries.drop i := (List.take_append_drop i m.entries).symm
  have hsorted := m.sorted
  have hat : (s.seekg (dataBytes (m.entries.take i)).length).At (dataBytes (m.entries.drop i) ++ tail) := by
    apply at_seekg hgood
    rw [hcontents, ← List.append_assoc, ← dataBytes_append, ← hsplit]
  have hpos : (s.seekg (dataBytes (m.entries.take i)).length).pos = (dataBytes (m.entries.take i)).length := by
    unfold seekg
    rw [if_pos hgood]
  have hlast : ∃ record ∈ m.entries.drop i, key ≤ record.1 := by
    obtain ⟨record, hrecord, rfl⟩ : ∃ record, m.entries.getLast? = some record ∧ record.1 = hi := by
      have hmap : m.entries.getLast?.map (·.1) = some hi := by
        rw [← List.getLast?_map]
        exact hhi
      exact Option.map_eq_some_iff.mp hmap
    refine ⟨record, ?_, hkey⟩
    have hdrop : (m.entries.drop i).getLast? = some record := by
      rw [List.getLast?_drop, if_neg (by omega), hrecord]
    exact List.mem_of_getLast? hdrop
  have hfuel : (m.entries.drop i).length < (dataBytes m.entries ++ tail).length + 1 := by
    have hle := length_le_dataBytes m.entries
    rw [List.length_drop, List.length_append]
    omega
  rw [hsplit] at hsorted
  obtain ⟨-, hdropSorted, hbefore⟩ := List.pairwise_append.mp hsorted
  obtain ⟨n, hn⟩ := scanLoop_from searchEnd hdropSorted (fun record hr => hfits record (List.mem_of_mem_drop hr))
    (fun record hr => htomb record.1 record.2 (SortedMap.find?_eq_some.mpr (List.mem_of_mem_drop hr))) hat hlast hfuel
  refine ⟨n, ?_⟩
  rw [hn, hpos]
  by_cases hin : ∃ record ∈ m.entries.take i, key ≤ record.1
  · -- the key is in front of the part, if anywhere
    have hplace := placeOf_append_lt hin (m.entries.drop i)
    rw [← hsplit] at hplace
    obtain ⟨record, hrecord, hle⟩ := hin
    have hnone : SortedMap.findEntry key (m.entries.drop i) = none :=
      SortedMap.findEntry_eq_none fun q hq => (hle.trans_lt (hbefore record hrecord q hq)).ne'
    rw [hnone, ite_self, if_neg (by omega)]
  · have hall : ∀ record ∈ m.entries.take i, record.1 < key := by
      intro record hrecord
      exact not_le.mp fun hle => hin ⟨record, hrecord, hle⟩
    have hplace := placeOf_append_of_lt hall (m.entries.drop i)
    rw [← hsplit] at hplace
    have hfind : m.find? key = SortedMap.findEntry key (m.entries.drop i) := by
      unfold SortedMap.find?
      conv_lhs => rw [hsplit]
      rw [SortedMap.findEntry_append, SortedMap.findEntry_eq_none fun q hq => (hall q hq).ne, Option.none_or]
    rw [hplace, hfind]
    simp

/-! ## B. The index of the file that was there

What the constructor has loaded from the old file fits the widths it was read with, so it can be written again. -/

theorem length_readExactly {s s' : InputStream} {n : Nat} {bytes : Bytes} (h : s.readExactly n = some (bytes, s')) :
    bytes.length = n := by
  unfold readExactly at h
  dsimp only at h
  split_ifs at h
  rw [← (Prod.mk.inj (Option.some.inj h)).1]
  exact (InputStream.length_read _ _).trans (Bytes.length_zeros n)

/-- A number that was read fits the width it was read with. -/
theorem readUInt_lt {s s' : InputStream} {w n : Nat} (h : readUInt s w = some (n, s')) : n < 256 ^ w := by
  unfold readUInt at h
  obtain ⟨⟨bytes, s₁⟩, hread, heq⟩ := Option.map_eq_some_iff.mp h
  rw [← (Prod.mk.inj heq).1, ← length_readExactly hread]
  exact decode_lt bytes

/-- What is loaded fits where it was. -/
theorem loadIndex_fits {n : Nat} {s s' : InputStream} {index : List IndexEntry}
    (h : FileTable.loadIndex n s = some (index, s')) :
    ∀ entry ∈ index, entry.key.length < 2 ^ 32 ∧ entry.offset < 2 ^ 64 := by
  induction n generalizing s s' index with
  | zero =>
      obtain rfl : [] = index := (Prod.mk.inj (Option.some.inj h)).1
      exact fun entry hentry => absurd hentry List.not_mem_nil
  | succ n ih =>
      rw [FileTable.loadIndex] at h
      simp only [Option.bind_eq_bind, Option.bind_eq_some_iff, Prod.exists, Option.some.injEq, Prod.mk.injEq] at h
      obtain ⟨keyLen, s₁, hlen, key, s₂, hkey, offset, s₃, hoffset, more, s₄, hmore, rfl, -⟩ := h
      refine List.forall_mem_cons.mpr ⟨⟨?_, readUInt_lt hoffset⟩, ih hmore⟩
      show key.length < _
      rw [length_readExactly hkey]
      exact readUInt_lt hlen

/-- The table that the constructor makes of a file has no stream yet, and its index can be written again. -/
theorem construct_fits {old : Bytes} {t : FileTable} (h : FileTable.construct (some old) = some t) :
    (∀ entry ∈ t.index, entry.key.length < 2 ^ 32 ∧ entry.offset < 2 ^ 64) ∧ t.cachedFile = none := by
  change FileTable.loadMetadata old = some t at h
  unfold FileTable.loadMetadata at h
  split_ifs at h
  simp only [Option.bind_eq_bind, Option.bind_eq_some_iff, Prod.exists, Option.some.injEq] at h
  obtain ⟨offset, s₁, -, minLen, s₂, -, maxLen, s₃, -, lo, s₄, -, hi, s₅, -, count, s₆, -, index, s₇, hindex, bloomLen,
    s₈, -, filter, -, rfl⟩ := h
  exact ⟨loadIndex_fits hindex, rfl⟩

/-! ## C. Lookups in the doubled index

The binary search goes through the stale entries as if they were the table's own. `InRange` compares the range it ends
with against the place of the key, and this decides what a lookup answers. -/

section Lookups

variable [Platform] {stale : List IndexEntry} {m : SortedMap Bytes Entry}

/-- The table that `flush` returns over a file with the index `stale`. -/
def overTable (stale : List IndexEntry) (m : SortedMap Bytes Entry) : FileTable :=
  { flushedTable m with index := stale ++ sparseIndex m.entries }

/-- The file that it writes. -/
def overFile (stale : List IndexEntry) (m : SortedMap Bytes Entry) : Bytes :=
  dataBytes m.entries ++ metadataWith (stale ++ sparseIndex m.entries) m

/-- A flush over a file that is there keeps its index. -/
theorem flush_old {old : Bytes} {t₀ : FileTable} (hne : m.isEmpty = false)
    (hold : FileTable.construct (some old) = some t₀) :
    FileTable.flush (some old) m = some (overTable t₀.index m, overFile t₀.index m) := by
  rw [flush_over hne hold, (construct_fits hold).2]
  rfl

/-- The table that `flush` returns answers from the file it wrote. -/
theorem serves_overTable (stale : List IndexEntry) (m : SortedMap Bytes Entry) :
    (overTable stale m).Serves (overFile stale m) (overTable stale m) :=
  ⟨rfl, fun s hs => absurd hs (by simp [overTable, flushedTable])⟩

/-- The part of the file that is scanned for a key is empty or begins at a record. -/
def BeginsAtRecord (stale : List IndexEntry) (m : SortedMap Bytes Entry) (key : Bytes) : Prop :=
  ((overTable stale m).searchRange key).1 < ((overTable stale m).searchRange key).2 →
    ∃ i < m.entries.length, ((overTable stale m).searchRange key).1 = (dataBytes (m.entries.take i)).length

/-- The place of the key is in the part of the file that is scanned for it. -/
def InRange (stale : List IndexEntry) (m : SortedMap Bytes Entry) (key : Bytes) : Prop :=
  ((overTable stale m).searchRange key).1 ≤ placeOf key m.entries ∧
    placeOf key m.entries < ((overTable stale m).searchRange key).2

instance (stale : List IndexEntry) (m : SortedMap Bytes Entry) (key : Bytes) : Decidable (InRange stale m key) :=
  inferInstanceAs (Decidable (_ ∧ _))

/-- A lookup that ends behind the stale entries takes its range from the new ones. -/
theorem searchRange_of_behind {key : Bytes}
    (h : stale.length < FileTable.upperBound key (stale ++ sparseIndex m.entries)) :
    ∃ i e k, m.entries[i]? = some (k, e) ∧ k ≤ key ∧
      ((overTable stale m).searchRange key).1 = (dataBytes (m.entries.take i)).length ∧
        (((overTable stale m).searchRange key).2 = (dataBytes m.entries).length ∨
          ∃ j e' k', m.entries[j]? = some (k', e') ∧ key < k' ∧
            ((overTable stale m).searchRange key).2 = (dataBytes (m.entries.take j)).length) := by
  obtain ⟨bound, hbound⟩ : ∃ bound, FileTable.upperBound key (stale ++ sparseIndex m.entries) = bound := ⟨_, rfl⟩
  rw [hbound] at h
  obtain ⟨hbefore, hat⟩ := LowerBound.lowerBound_boundary (fun entry : IndexEntry => !(key < entry.key))
    (stale ++ sparseIndex m.entries)
  rw [show LowerBound.lowerBound _ (stale ++ sparseIndex m.entries) = bound from hbound] at hbefore hat
  obtain ⟨a, ha, hakey⟩ := hbefore.resolve_left (by omega)
  have hrange := searchRange_eq (t := overTable stale m) hbound (by omega) ha
  rw [List.getElem?_append_right (by omega)] at ha
  obtain ⟨i, e, hi, hoffset⟩ := sparseIndex_spec (List.mem_of_getElem? ha)
  refine ⟨i, e, a.key, hi, by simpa using hakey, by rw [hrange, hoffset], ?_⟩
  have hend : ((overTable stale m).searchRange key).2
      = ((stale ++ sparseIndex m.entries)[bound]?.map IndexEntry.offset).getD (dataBytes m.entries).length :=
    congrArg Prod.snd hrange
  cases hb : (stale ++ sparseIndex m.entries)[bound]? with
  | none =>
      rw [hb] at hend
      exact Or.inl hend
  | some b =>
      have hbkey := hat b hb
      rw [hb] at hend
      rw [List.getElem?_append_right (by omega)] at hb
      obtain ⟨j, e', hj, hboffset⟩ := sparseIndex_spec (List.mem_of_getElem? hb)
      exact Or.inr ⟨j, e', b.key, hj, by simpa using hbkey, hend.trans hboffset⟩

/-- Such a lookup begins at a record. -/
theorem beginsAtRecord_of_behind {key : Bytes}
    (h : stale.length < FileTable.upperBound key (stale ++ sparseIndex m.entries)) : BeginsAtRecord stale m key := by
  obtain ⟨i, e, k, hi, -, hbegin, -⟩ := searchRange_of_behind h
  exact fun _ => ⟨i, (List.getElem?_eq_some_iff.mp hi).1, hbegin⟩

/-- **The stale entries do no harm** to a lookup that ends behind them. -/
theorem inRange_of_behind {key : Bytes} {e : Entry} (hfind : m.find? key = some e)
    (h : stale.length < FileTable.upperBound key (stale ++ sparseIndex m.entries)) : InRange stale m key := by
  obtain ⟨i, ea, k, hi, hk, hbegin, hend⟩ := searchRange_of_behind h
  have hmem := SortedMap.find?_eq_some.mp hfind
  constructor
  · have hbefore : ∀ record ∈ m.entries.take i, record.1 < key :=
      fun record hr => (lt_of_mem_take m.sorted hi record hr).trans_le hk
    have hplace := placeOf_append_of_lt hbefore (m.entries.drop i)
    rw [List.take_append_drop] at hplace
    omega
  · rcases hend with hend | ⟨j, eb, k', hj, hk', hend⟩
    · have hplace := placeOf_append_lt ⟨_, hmem, le_refl key⟩ []
      rw [List.append_nil] at hplace
      omega
    · -- the record of the key is in front of the one the next entry is for
      have hin : ∃ record ∈ m.entries.take j, key ≤ record.1 := by
        refine ⟨(key, e), ?_, le_refl key⟩
        rw [← List.take_append_drop j m.entries] at hmem
        refine (List.mem_append.mp hmem).resolve_right ?_
        intro hdrop
        exact absurd (le_of_mem_drop m.sorted hj _ hdrop) (not_le.mpr hk')
      have hplace := placeOf_append_lt hin (m.entries.drop j)
      rw [List.take_append_drop] at hplace
      omega

omit [Platform] in
/-- A single stale entry is never looked at. -/
theorem behind_of_single (hsingle : stale.length = 1) {lo key : Bytes} (hlo : m.firstKey? = some lo) (hkey : lo ≤ key) :
    stale.length < FileTable.upperBound key (stale ++ sparseIndex m.entries) := by
  obtain ⟨e, hfirst⟩ := head_entries hlo
  have hnew : (sparseIndex m.entries)[0]? = some ⟨lo, 0⟩ := by
    cases hentries : m.entries with
    | nil => rw [hentries] at hfirst; exact absurd hfirst (by simp)
    | cons record records =>
        rw [hentries] at hfirst
        obtain rfl : record = (lo, e) := Option.some.inj hfirst
        exact head_sparseIndex _ records
  have hsecond : (stale ++ sparseIndex m.entries)[1]? = some ⟨lo, 0⟩ := by
    rw [List.getElem?_append_right (by omega), hsingle]
    exact hnew
  rw [hsingle]
  exact LowerBound.two_le_lowerBound hsecond (by simpa using hkey)

/-- What a lookup answers that begins at a record. -/
def overAnswer (stale : List IndexEntry) (m : SortedMap Bytes Entry) (key : Bytes) : Option Entry :=
  if InRange stale m key then m.find? key else none

section Answers

variable (hne : m.isEmpty = false) (hlim : FormatLimits m)
  (htomb : ∀ k e, m.find? k = some e → e.type = .delete → e.value = [])
  (hstart : ∀ key, ¬ (overTable stale m).Skips key → BeginsAtRecord stale m key)
include hne hlim htomb hstart

/-- **A lookup** that begins at a record answers from the snapshot if the place of the key is in its range. -/
theorem get_over {t : FileTable} (h : (overTable stale m).Serves (overFile stale m) t) (key : Bytes) :
    ∃ t', t.get (overFile stale m) key = some (overAnswer stale m key, t') ∧
      (overTable stale m).Serves (overFile stale m) t' := by
  obtain ⟨lo, hi, -, hhi⟩ := SortedMap.exists_bounds hne
  have hsearch : t.searchRange key = (overTable stale m).searchRange key := by
    rw [h.1]
    rfl
  have hskip : t.Skips key ↔ (overTable stale m).Skips key := by
    rw [h.1]
    rfl
  by_cases hskips : t.Skips key
  · refine ⟨t, ?_, h⟩
    have hnone : m.find? key = none := find?_eq_none_of_skips hne rfl rfl rfl (hskip.mp hskips)
    unfold overAnswer
    rw [FileTable.get_of_skips hskips, hnone, ite_self]
  · obtain ⟨hgood, hcontents⟩ := h.stream
    have hkey : key ≤ hi := by
      have hmax : (overTable stale m).maxKey = hi := congrArg (·.getD []) hhi
      obtain ⟨hrange, -⟩ := not_or.mp (mt hskip.mpr hskips)
      exact not_lt.mp (hmax ▸ (not_or.mp hrange).2)
    obtain ⟨n, hscan⟩ : ∃ n, FileTable.scanLoop key (t.searchRange key).2 ((overFile stale m).length + 1)
        ((t.cachedFile.getD (ofFile (overFile stale m))).seekg (t.searchRange key).1)
      = some (overAnswer stale m key,
          ((t.cachedFile.getD (ofFile (overFile stale m))).seekg (t.searchRange key).1).skip n) := by
      rw [hsearch]
      by_cases hrange : ((overTable stale m).searchRange key).1 < ((overTable stale m).searchRange key).2
      · obtain ⟨i, hi, hbegin⟩ := hstart key (mt hskip.mpr hskips) hrange
        obtain ⟨n, hn⟩ := scanLoop_part hlim.records htomb hi hhi hkey hgood hcontents
          ((overTable stale m).searchRange key).2
        rw [← hbegin] at hn
        exact ⟨n, hn⟩
      · refine ⟨0, ?_⟩
        have hout : ¬ InRange stale m key := fun hin => hrange (hin.1.trans_lt hin.2)
        unfold overAnswer
        rw [if_neg hout]
        have hpos : ((t.cachedFile.getD (ofFile (overFile stale m))).seekg
            ((overTable stale m).searchRange key).1).pos = ((overTable stale m).searchRange key).1 := by
          unfold seekg
          rw [if_pos hgood]
        apply scanLoop_empty
        · unfold seekg
          rw [if_pos hgood]
          exact hgood
        · rw [hpos]
          exact not_lt.mp hrange
    refine ⟨_, FileTable.get_of_scan hskips hscan, h.keep ?_⟩
    unfold seekg skip
    rw [if_pos hgood]
    exact ⟨hgood, hcontents⟩

theorem getAll_over {t : FileTable} (h : (overTable stale m).Serves (overFile stale m) t) (keys : List Bytes) :
    t.getAll (overFile stale m) keys = some (keys.map (overAnswer stale m)) := by
  induction keys generalizing t with
  | nil => rfl
  | cons key keys ih =>
      obtain ⟨t', hget, h'⟩ := get_over hne hlim htomb hstart h key
      rw [FileTable.getAll, hget]
      simp only [Option.bind_eq_bind, Option.bind_some, ih h', List.map_cons]

end Answers

/-- The table that `flush` returns over a file that was there, and the table opened on the file it wrote, answer every
    lookup like the snapshot. -/
def AnswersLike (old : Bytes) (m : SortedMap Bytes Entry) : Prop :=
  ∃ t file, FileTable.flush (some old) m = some (t, file) ∧
    (∀ keys, t.getAll file keys = some (keys.map m.find?)) ∧
      ∃ t', FileTable.construct (some file) = some t' ∧ ∀ keys, t'.getAll file keys = some (keys.map m.find?)

/-- The constructor reads the doubled index back. -/
theorem construct_overFile_iff (hne : m.isEmpty = false) (hlim : FormatLimits m)
    (hstale : ∀ entry ∈ stale, entry.key.length < 2 ^ 32 ∧ entry.offset < 2 ^ 64)
    (hcount : (stale ++ sparseIndex m.entries).length < 2 ^ 32) (t : FileTable) :
    FileTable.construct (some (overFile stale m)) = some t ↔
      (BloomFilter.new m.size).serializedSize < 2 ^ 32 ∧ t = overTable stale m := by
  have hindex : ∀ entry ∈ stale ++ sparseIndex m.entries, entry.key.length < 2 ^ 32 ∧ entry.offset < 2 ^ 64 := by
    intro entry hentry
    rcases List.mem_append.mp hentry with hentry | hentry
    · exact hstale entry hentry
    · exact hlim.indexEntry hentry
  unfold overFile
  by_cases hsize : (BloomFilter.new m.size).serializedSize < 2 ^ 32
  · rw [construct_with hne hlim hsize hcount hindex, Option.some_inj, eq_comm]
    exact (and_iff_right hsize).symm
  · rw [construct_with_of_large hne hlim (not_lt.mp hsize) hcount hindex]
    exact iff_of_false (by simp) fun h => hsize h.1

section OldFile

variable (hne : m.isEmpty = false) (hlim : FormatLimits m)
  (htomb : ∀ k e, m.find? k = some e → e.type = .delete → e.value = []) {old : Bytes} {t₀ : FileTable}
  (hold : FileTable.construct (some old) = some t₀)
  (hstart : ∀ key, ¬ (overTable t₀.index m).Skips key → BeginsAtRecord t₀.index m key)
include hne hlim htomb hold hstart

/-- Where every lookup is answered like the snapshot, every key is in its range. -/
theorem inRange_of_answersLike (h : AnswersLike old m) {key : Bytes} {e : Entry} (he : m.find? key = some e) :
    InRange t₀.index m key := by
  obtain ⟨t, file, ht, hlike, -⟩ := h
  obtain ⟨rfl, rfl⟩ := Prod.mk.inj (Option.some.inj ((flush_old hne hold).symm.trans ht))
  have hone := (getAll_over hne hlim htomb hstart (serves_overTable t₀.index m) [key]).symm.trans (hlike [key])
  rw [List.map_singleton, List.map_singleton, he] at hone
  have hanswer : overAnswer t₀.index m key = some e := List.singleton_inj.mp (Option.some.inj hone)
  unfold overAnswer at hanswer
  by_contra hout
  rw [if_neg hout] at hanswer
  exact absurd hanswer (by simp)

/-- Where every key is in its range, every lookup is answered like the snapshot. -/
theorem answersLike_of_inRange (hsize : (BloomFilter.new m.size).serializedSize < 2 ^ 32)
    (hcount : (t₀.index ++ sparseIndex m.entries).length < 2 ^ 32)
    (hin : ∀ key e, m.find? key = some e → InRange t₀.index m key) : AnswersLike old m := by
  have hopen := (construct_overFile_iff hne hlim (construct_fits hold).1 hcount _).mpr ⟨hsize, rfl⟩
  have hanswer : overAnswer t₀.index m = m.find? := by
    funext key
    unfold overAnswer
    split_ifs with hkey
    · rfl
    · cases hfind : m.find? key with
      | none => rfl
      | some e => exact absurd (hin key e hfind) hkey
  have hall := getAll_over hne hlim htomb hstart (serves_overTable t₀.index m)
  rw [hanswer] at hall
  exact ⟨_, _, flush_old hne hold, hall, _, hopen, hall⟩

end OldFile

/-- **Flushing over a table file.** Where no lookup begins inside a record, the old file does no harm exactly if the
    place of every key of the snapshot is in the part of the file that is scanned for it, and the filter is not too large
    to be opened again. -/
theorem answersLike_iff (hne : m.isEmpty = false)
    (htomb : ∀ k e, m.find? k = some e → e.type = .delete → e.value = []) (hlim : FormatLimits m) {old : Bytes}
    {t₀ : FileTable} (hold : FileTable.construct (some old) = some t₀)
    (hcount : (t₀.index ++ sparseIndex m.entries).length < 2 ^ 32)
    (hstart : ∀ key, ¬ (overTable t₀.index m).Skips key → BeginsAtRecord t₀.index m key) :
    AnswersLike old m ↔ (BloomFilter.new m.size).serializedSize < 2 ^ 32 ∧
      ∀ key e, m.find? key = some e → InRange t₀.index m key := by
  constructor
  · intro h
    refine ⟨?_, fun key e he => inRange_of_answersLike hne hlim htomb hold hstart h he⟩
    obtain ⟨t, file, ht, -, t', hopen, -⟩ := h
    obtain ⟨rfl, rfl⟩ := Prod.mk.inj (Option.some.inj ((flush_old hne hold).symm.trans ht))
    exact ((construct_overFile_iff hne hlim (construct_fits hold).1 hcount t').mp hopen).1
  · rintro ⟨hsize, hin⟩
    exact answersLike_of_inRange hne hlim htomb hold hstart hsize hcount hin

omit [Platform] in
/-- The same snapshot is flushed again over its own file. -/
theorem answersLike_smallSnapshot : letI := Platform.sample
    AnswersLike (dataBytes smallSnapshot.entries ++ flushedMetadata smallSnapshot) smallSnapshot := by
  let := Platform.sample
  have hbehind : ∀ key, Bytes.ascii "a" ≤ key → (flushedTable smallSnapshot).index.length <
      FileTable.upperBound key ((flushedTable smallSnapshot).index ++ sparseIndex smallSnapshot.entries) :=
    fun key hkey => behind_of_single (by decide) rfl hkey
  refine (answersLike_iff (by decide) tombstones_smallSnapshot limits_smallSnapshot
    (construct_flushed (by decide) limits_smallSnapshot (by decide)) (by decide) ?_).mpr ⟨by decide, ?_⟩
  · intro key hskips
    obtain ⟨hrange, -⟩ := not_or.mp hskips
    exact beginsAtRecord_of_behind (hbehind key (not_lt.mp (not_or.mp hrange).1))
  · intro key e he
    exact inRange_of_behind he (hbehind key (SortedMap.firstKey?_le rfl he))

/-- **An old file of at most 16 records** has a single index entry and does no harm to any snapshot. -/
theorem answersLike_of_single (hne : m.isEmpty = false)
    (htomb : ∀ k e, m.find? k = some e → e.type = .delete → e.value = []) (hlim : FormatLimits m)
    (hsize : (BloomFilter.new m.size).serializedSize < 2 ^ 32) {old : Bytes} {t₀ : FileTable}
    (hold : FileTable.construct (some old) = some t₀) (hsingle : t₀.index.length = 1)
    (hcount : (t₀.index ++ sparseIndex m.entries).length < 2 ^ 32) : AnswersLike old m := by
  obtain ⟨lo, hi, hlo, -⟩ := SortedMap.exists_bounds hne
  have hmin : (overTable t₀.index m).minKey = lo := congrArg (·.getD []) hlo
  refine answersLike_of_inRange hne hlim htomb hold ?_ hsize hcount ?_
  · intro key hskips
    obtain ⟨hrange, -⟩ := not_or.mp hskips
    exact beginsAtRecord_of_behind (behind_of_single hsingle hlo (not_lt.mp (hmin ▸ (not_or.mp hrange).1)))
  · intro key e he
    exact inRange_of_behind he (behind_of_single hsingle hlo (SortedMap.firstKey?_le hlo he))

/-- Seventeen keys, so there are two index entries: `m` at 0 and `}` at 288. -/
def seventeenKeys : SortedMap Bytes Entry where
  entries := (List.range 17).map fun i => ([UInt8.ofNat (109 + i)], ⟨[], i, .put⟩)
  sorted := by decide

/-- Two keys in front of these, the first with a value of 300 bytes. -/
def longFirst : SortedMap Bytes Entry where
  entries := [(Bytes.ascii "a", ⟨Bytes.zeros 300, 18, .put⟩), (Bytes.ascii "b", ⟨Bytes.ascii "1", 19, .put⟩)]
  sorted := by decide

omit [Platform] in
theorem limits_seventeenKeys : letI := Platform.sample; FormatLimits seventeenKeys := by
  refine limits_of_small ?_ (by decide +kernel)
  unfold RecordFits
  decide

omit [Platform] in
theorem limits_longFirst : letI := Platform.sample; FormatLimits longFirst := by
  refine limits_of_small ?_ (by decide +kernel)
  unfold RecordFits
  decide +kernel

omit [Platform] in
theorem type_longFirst {k : Bytes} {e : Entry} (he : longFirst.find? k = some e) : e.type = .put := by
  have hput : ∀ record ∈ longFirst.entries, record.2.type = .put := by decide +kernel
  exact hput _ (SortedMap.find?_eq_some.mp he)

omit [Platform] in
/-- **The second key is lost**: the lookup scans the first 288 bytes only. -/
theorem not_answersLike_longFirst : letI := Platform.sample
    ∃ t₀ old, FileTable.flush none seventeenKeys = some (t₀, old) ∧ FileTable.construct (some old) = some t₀ ∧
      longFirst.find? (Bytes.ascii "b") = some ⟨Bytes.ascii "1", 19, .put⟩ ∧ ¬ AnswersLike old longFirst := by
  let := Platform.sample
  have hopen := construct_flushed (m := seventeenKeys) (by decide) limits_seventeenKeys (by decide)
  have htomb : ∀ k e, longFirst.find? k = some e → e.type = .delete → e.value = [] := by
    intro k e he hdelete
    rw [type_longFirst he] at hdelete
    cases hdelete
  -- every key up to the last one is below all stale keys
  have hindex : (flushedTable seventeenKeys).index ++ sparseIndex longFirst.entries
      = [⟨Bytes.ascii "m", 0⟩, ⟨Bytes.ascii "\x7d", 288⟩, ⟨Bytes.ascii "a", 0⟩] := by decide +kernel
  have hrange : ∀ key, key ≤ Bytes.ascii "b" →
      (overTable (flushedTable seventeenKeys).index longFirst).searchRange key = (0, 288) := by
    intro key hkey
    have hm : key < Bytes.ascii "m" := hkey.trans_lt (by decide)
    have hbrace : key < Bytes.ascii "\x7d" := hkey.trans_lt (by decide)
    unfold FileTable.searchRange overTable
    simp [hindex, FileTable.upperBound, LowerBound.lowerBound, LowerBound.lowerBoundLoop, hm, hbrace]
  refine ⟨_, _, flush_eq (by decide), hopen, by decide +kernel, ?_⟩
  rintro ⟨t, file, ht, hlike, -⟩
  obtain ⟨rfl, rfl⟩ := Prod.mk.inj (Option.some.inj ((flush_old (by decide) hopen).symm.trans ht))
  have hstart : ∀ key, ¬ (overTable (flushedTable seventeenKeys).index longFirst).Skips key →
      BeginsAtRecord (flushedTable seventeenKeys).index longFirst key := by
    intro key hskips _
    obtain ⟨hkey, -⟩ := not_or.mp hskips
    refine ⟨0, by decide, ?_⟩
    rw [hrange key (not_lt.mp (not_or.mp hkey).2)]
    rfl
  have hall := getAll_over (by decide) limits_longFirst htomb hstart (serves_overTable _ longFirst) [Bytes.ascii "b"]
  have hout : ¬ InRange (flushedTable seventeenKeys).index longFirst (Bytes.ascii "b") := by
    unfold InRange
    rw [hrange _ (le_refl _)]
    decide +kernel
  have hanswer : overAnswer (flushedTable seventeenKeys).index longFirst (Bytes.ascii "b") = none := if_neg hout
  rw [List.map_singleton, hanswer, hlike [Bytes.ascii "b"]] at hall
  exact absurd hall (by decide +kernel)

end Lookups

end KvStorageEngine
