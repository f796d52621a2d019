import KvStorageEngine.Engine.Merge
import KvStorageEngine.Engine.SSTableFile
import KvStorageEngine.Engine.Correctness.PointLookup
import Mathlib.Data.List.MinMax
import Mathlib.Data.List.Pairwise

/-!
# `Engine.Correctness.MergeReference` — the merge of a compaction and its reference

The loop of `compactL0toL1` and `compactlevelN` is compared with a definition that knows nothing of queues: the newest
record of each key over all inputs, if it is a put (`reference`). The loop comes to its end because every round passes
an entry (`exists_rounds`), and what it has put into `merged_data` by then is the reference (`merge_eq_reference`).

An input is the sequence of its entries. That is what `SSTable::Iterator` makes of the file of a flushed table
(`iterator_flushed`).
-/

namespace KvStorageEngine

/-! ## A. The reference

`argmax` takes the first of several records with the greatest sequence number; `NoSharedSeqs` excludes that there are
several, as the queue of the merge could take another one. -/

/-- The records of a key in the inputs. -/
def recordsOf (inputs : Iterators) (k : Bytes) : List Entry :=
  (inputs.flatten.filter fun e => e.key = k).map SSTableEntry.entry

/-- What a merge has to hold: the newest record of the key, if it is a put. -/
def reference (inputs : Iterators) (k : Bytes) : Option Entry :=
  ((recordsOf inputs k).argmax Entry.seq).filter fun e => e.type = .put

/-- No two inputs hold a key with the same sequence number. -/
def NoSharedSeqs (inputs : Iterators) : Prop :=
  inputs.Pairwise fun l l' => ∀ x ∈ l, ∀ y ∈ l', x.key = y.key → x.seq ≠ y.seq

variable {inputs : Iterators} {k : Bytes}

/-- The records of a key are those that occur for it. -/
theorem mem_recordsOf {e : Entry} : e ∈ recordsOf inputs k ↔ Occurs inputs k e := by
  unfold recordsOf Occurs
  simp only [List.mem_map, List.mem_filter, List.mem_flatten, decide_eq_true_eq]
  constructor
  · rintro ⟨x, ⟨⟨l, hl, hx⟩, hk⟩, he⟩
    exact ⟨l, hl, x, hx, hk, he⟩
  · rintro ⟨l, hl, x, hx, hk, he⟩
    exact ⟨x, ⟨⟨l, hl, hx⟩, hk⟩, he⟩

theorem noTies_of_noSharedSeqs (hsorted : KeySorted inputs) (hseqs : NoSharedSeqs inputs) : NoTies inputs := by
  rintro k e e' ⟨l, hl, x, hx, hxk, rfl⟩ ⟨l', hl', y, hy, hyk, rfl⟩ hseq
  have hkey : x.key = y.key := hxk.trans hyk.symm
  by_cases hsame : l = l'
  · -- one input has a key once
    subst hsame
    by_contra hne
    have : Std.Symm fun a b : SSTableEntry => a.key ≠ b.key := ⟨fun _ _ h => h.symm⟩
    have hdistinct : l.Pairwise fun a b => a.key ≠ b.key := (hsorted l hl).imp fun h => ne_of_lt h
    exact hdistinct.forall hx hy (fun h => hne (congrArg SSTableEntry.entry h)) hkey
  · exfalso
    have : Std.Symm fun l l' : List SSTableEntry => ∀ x ∈ l, ∀ y ∈ l', x.key = y.key → x.seq ≠ y.seq :=
      ⟨fun _ _ h y hy x hx hk => (h x hx y hy hk.symm).symm⟩
    exact hseqs.forall hl hl' hsame x hx y hy hkey hseq

/-- The newest record of a key is the one with the highest sequence number. -/
theorem argmax_eq_some_iff (hties : NoTies inputs) {e : Entry} :
    (recordsOf inputs k).argmax Entry.seq = some e ↔ NewestLeft inputs k e := by
  have hnewest : ∀ e, (recordsOf inputs k).argmax Entry.seq = some e → NewestLeft inputs k e := by
    intro e he
    refine ⟨mem_recordsOf.mp (List.argmax_mem he), ?_⟩
    intro e' he'
    exact List.le_of_mem_argmax (mem_recordsOf.mpr he') he
  constructor
  · exact hnewest e
  · intro h
    cases hmax : (recordsOf inputs k).argmax Entry.seq with
    | none =>
        rw [List.argmax_eq_none] at hmax
        have hmem := mem_recordsOf.mpr h.1
        rw [hmax] at hmem
        exact absurd hmem List.not_mem_nil
    | some e' =>
        obtain ⟨hocc, hle⟩ := hnewest e' hmax
        rw [hties k e e' h.1 hocc (Nat.le_antisymm (hle e h.1) (h.2 e' hocc))]

/-- The reference is the newest record, if it is a put. -/
theorem reference_eq_some_iff (hties : NoTies inputs) {e : Entry} :
    reference inputs k = some e ↔ NewestLeft inputs k e ∧ e.type = .put := by
  unfold reference
  rw [Option.filter_eq_some_iff, argmax_eq_some_iff hties, decide_eq_true_eq]

/-! ## B. The loop

The invariant of the loop is that of `Engine.Merge`; here it is run to its end. Every round passes an entry of one
iterator, so the number of entries left bounds the rounds. -/

namespace MergeState

/-- Before the first round. -/
def start (inputs : Iterators) : MergeState := ⟨inputs, initialQueue inputs, SortedMap.empty⟩

/-- `n` rounds. -/
def rounds : Nat → MergeState → Option MergeState
  | 0, s => some s
  | n + 1, s => (mergeRound s).bind (rounds n)

theorem rounds_succ {s s' : MergeState} (h : mergeRound s = some s') (n : Nat) : s.rounds (n + 1) = s'.rounds n := by
  rw [rounds, h, Option.bind_some]

/-- **The loop comes to its end**, after at most as many rounds as there are entries, with what `mergeLoop` returns. -/
theorem exists_rounds (fuel : Nat) : ∀ {s : MergeState}, remaining s.iters ≤ fuel → QueueInv s.iters s.queue [] →
    KeySorted s.iters → ∃ n ≤ remaining s.iters, ∃ s', s.rounds n = some s' ∧ s'.queue = [] ∧
      s'.mergedData = mergeLoop fuel s.iters s.queue s.mergedData := by
  induction fuel with
  | zero =>
      intro s hfuel hinv hs
      obtain ⟨iters, queue, mergedData⟩ := s
      cases queue with
      | nil => exact ⟨0, Nat.zero_le _, _, rfl, rfl, rfl⟩
      | cons top pq =>
          obtain ⟨best, iters', pq', -, -, -, hlt, -⟩ := mergeRound_spec hinv hs
          exact absurd (hlt.trans_le hfuel) (Nat.not_lt_zero _)
  | succ fuel ih =>
      intro s hfuel hinv hs
      obtain ⟨iters, queue, mergedData⟩ := s
      cases queue with
      | nil => exact ⟨0, Nat.zero_le _, _, rfl, rfl, rfl⟩
      | cons top pq =>
          obtain ⟨best, iters', pq', -, hinv', hs', hlt, -, hround⟩ := mergeRound_spec hinv hs
          obtain ⟨n, hn, s', hrounds, hqueue, hdata⟩ := ih
            (s := ⟨iters', pq', if best.type = .put then mergedData.insert top.key best else mergedData⟩)
            (Nat.le_of_lt_succ (hlt.trans_le hfuel)) hinv' hs'
          refine ⟨n + 1, hn.trans_lt hlt, s', ?_, hqueue, ?_⟩
          · rw [rounds_succ (hround mergedData), hrounds]
          · rw [hdata, mergeLoop_cons, hround]

end MergeState

/-- **The merge equals its reference.** The loop ends, after no more rounds than there are entries, and by then it has
    for every key the newest record of the inputs, if that is a put, and no other keys. -/
theorem merge_eq_reference {inputs : Iterators} (hsorted : KeySorted inputs) (hseqs : NoSharedSeqs inputs) :
    ∃ n ≤ remaining inputs, ∃ s, (MergeState.start inputs).rounds n = some s ∧ s.queue = [] ∧
      ∀ k, s.mergedData.find? k = reference inputs k := by
  have hties := noTies_of_noSharedSeqs hsorted hseqs
  have hinv := initialQueue_inv inputs
  obtain ⟨n, hn, s, hrounds, hqueue, hdata⟩ := MergeState.exists_rounds (s := MergeState.start inputs)
    (remaining inputs) (Nat.le_refl _) hinv hsorted
  refine ⟨n, hn, s, hrounds, hqueue, ?_⟩
  intro k
  apply Option.ext
  intro e
  rw [hdata, reference_eq_some_iff hties]
  show (mergeLoop (remaining inputs) inputs (initialQueue inputs) SortedMap.empty).find? k = some e ↔ _
  rw [mergeLoop_spec (remaining inputs) (Nat.le_refl _) hinv hsorted hties (fun _ _ _ => SortedMap.find?_empty _) k e,
    SortedMap.find?_empty]
  simp

/-- Three tables: `a` is overwritten and then deleted, `b` is only in the first, `c` is put again after its deletion, and
    one input is empty. -/
def overlappingInputs : Iterators :=
  [[⟨Bytes.ascii "a", Bytes.ascii "1", 1, .put⟩, ⟨Bytes.ascii "b", Bytes.ascii "2", 2, .put⟩,
      ⟨Bytes.ascii "c", [], 3, .delete⟩],
    [],
    [⟨Bytes.ascii "a", Bytes.ascii "3", 4, .put⟩, ⟨Bytes.ascii "c", Bytes.ascii "4", 6, .put⟩],
    [⟨Bytes.ascii "a", [], 5, .delete⟩]]

theorem merge_eq_reference_overlapping : ∃ n ≤ remaining overlappingInputs, ∃ s,
    (MergeState.start overlappingInputs).rounds n = some s ∧ s.queue = [] ∧
      ∀ k, s.mergedData.find? k = reference overlappingInputs k :=
  merge_eq_reference (by unfold KeySorted; decide) (by unfold NoSharedSeqs; decide)

/-! ## C. The iterators

`SSTable::Iterator` reads record by record up to the offset where the filter begins. So on the file of a flushed table
it yields the snapshot in order, and then ends. -/

namespace TableIterator

open InputStream LittleEndian

variable {rest : Bytes}

/-- `readNext` at a record. -/
theorem readNext_record {it : TableIterator} {record : Bytes × Entry} (hfits : RecordFits record)
    (htomb : record.2.type = .delete → record.2.value = []) (h : it.file.At (recordBytes record ++ rest))
    (hend : it.file.pos < it.dataEnd) : it.readNext = some { it with
      file := it.file.skip (recordBytes record).length
      valid := true
      current := ⟨record.1, record.2.value, record.2.seq, record.2.type⟩ } := by
  obtain ⟨hseq, hgood, htype, hkeyLen, hvalueLen, hkey, hvalue, hlength⟩ := reads_of_record hfits h
  obtain ⟨k, value, seq, type⟩ := record
  have htell : it.file.tellg.all (fun pos => decide (pos < it.dataEnd)) = true := by
    rw [tellg_all h.1, decide_eq_true hend]
  have hseq' : decode (encode 8 seq) = seq := decode_encode hfits.2.2
  unfold readNext
  simp only [htell, if_true, hseq, hgood, htype, hkeyLen, hvalueLen, hkey, ofByte_decode, Option.bind_eq_bind,
    Option.bind_some, hseq', hlength]
  cases type with
  | put => simp only [if_true, hvalue]
  | delete =>
      obtain rfl : value = [] := htomb rfl
      simp only [reduceCtorEq, if_false, List.length_nil, Nat.add_zero]
      rfl

/-- At the metadata the iterator becomes invalid. -/
theorem readNext_of_end {it : TableIterator} (hgood : it.file.good = true) (hend : it.dataEnd = it.file.pos) :
    it.readNext = some { it with valid := false } := by
  have htell : it.file.tellg.all (fun pos => decide (pos < it.dataEnd)) = false := by
    rw [tellg_all hgood, hend, decide_eq_false (Nat.lt_irrefl _)]
  unfold readNext
  rw [htell]
  rfl

/-- In front of some records, `readNext` starts to yield them. -/
theorem yields_of_at {records : List (Bytes × Entry)} (hfits : ∀ record ∈ records, RecordFits record)
    (htomb : ∀ record ∈ records, record.2.type = .delete → record.2.value = []) {it : TableIterator}
    (h : it.file.At (dataBytes records ++ rest)) (hend : it.dataEnd = it.file.pos + (dataBytes records).length) :
    ∃ it', it.readNext = some it' ∧ it'.Yields (records.map fun r => ⟨r.1, r.2.value, r.2.seq, r.2.type⟩) := by
  induction records generalizing it with
  | nil => exact ⟨{ it with valid := false }, readNext_of_end h.1 hend, rfl⟩
  | cons record records ih =>
      obtain ⟨hrecord, hfits⟩ := List.forall_mem_cons.mp hfits
      obtain ⟨htombRecord, htomb⟩ := List.forall_mem_cons.mp htomb
      rw [dataBytes_cons, List.append_assoc] at h
      rw [dataBytes_cons, List.length_append] at hend
      have hpos := recordBytes_pos record
      refine ⟨_, readNext_record hrecord htombRecord h (by omega), rfl, rfl, ?_⟩
      apply ih hfits htomb h.skip
      show it.dataEnd = it.file.pos + (recordBytes record).length + _
      omega

/-- **An iterator on a flushed table** yields the records of the snapshot, in the order of their keys. -/
theorem iterator_flushed [Platform] {m : SortedMap Bytes Entry} (hne : m.isEmpty = false) (hlim : FormatLimits m)
    (htomb : ∀ k e, m.find? k = some e → e.type = .delete → e.value = []) (dirPath : Bytes) (id : Nat) :
    ∃ t file, FileTable.flush none m = some (t, file) ∧ ∃ it, construct file t.metadataOffset = some it ∧
      it.Yields (SSTable.flush m dirPath id).iterate := by
  have hat : ((ofFile (dataBytes m.entries ++ flushedMetadata m)).seekg 0).At (dataBytes m.entries ++ flushedMetadata m) :=
    at_seekg (a := []) rfl rfl
  refine ⟨_, _, flush_eq hne, yields_of_at hlim.records ?_ hat (Nat.zero_add _).symm⟩
  intro record hrecord
  exact htomb record.1 record.2 (SortedMap.find?_eq_some.mpr hrecord)

end TableIterator

end KvStorageEngine
