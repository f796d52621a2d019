import KvStorageEngine.Engine.Correctness.LiveRequests
import KvStorageEngine.Engine.Correctness.MapRefinement
import KvStorageEngine.Engine.Correctness.StoreRecords
import KvStorageEngine.Lib.KeyedWrites
import KvStorageEngine.Lib.Relay

/-!
# `Engine.Correctness.LivePlaces` — where the records of a running engine are

The records of one key are a relay (`Lib.Relay`): they go from the active memtable, through the copy that a rotation
makes, to the immutable memtable and on into the version, and a reader looks into these places in the same order. As
long as the steps of the threads meet the condition `Sound`, no record is lost on the way (`Placed.step`), and what is
found in all places together is what the writes leave, in the order in which they reached the memtable.

Layout of the file:
* **A** — records and the writes they come from.
* **B** — the condition.
* **C** — the store and the places of its records (`Placed`).
* **D** — one step.
-/

namespace KvStorageEngine

open KeyedWrites Run

variable [Platform]

/-! ## A. Records and writes

The records of a running engine come from the engine at the beginning, or from the writes since, which are numbered
one by one. What a key has after the first `m` writes is `valueAfter`. -/

/-- What a request does to the map. -/
def WriteRequest.write : WriteRequest → Write Bytes Bytes
  | .put key value => ⟨key, some value⟩
  | .delete key => ⟨key, none⟩

omit [Platform] in
@[simp] theorem WriteRequest.key_write (request : WriteRequest) : request.write.key = request.key := by
  cases request <;> rfl

/-- What the engine holds, as a map. -/
def StorageEngine.contents (s : StorageEngine) : MapState := fun key => (answer (s.lookup key)).map (·.value)

omit [Platform] in
/-- A request's record reads as what the request does. -/
theorem WriteRequest.value_entry (request : WriteRequest) (n : Nat) :
    (answer (some (request.entry n))).map (·.value) = request.write.value := by
  cases request <;> rfl

section Records

variable {ι : Type} {e₀ : StorageEngine} {ws ws' : List (LiveWrite ι)} {key : Bytes} {e : Entry} {since : Nat}

/-- What the first `m` of the writes leave. -/
def valueAfter (e₀ : StorageEngine) (ws : List (LiveWrite ι)) (m : Nat) : MapState :=
  applyWrites e₀.contents ((ws.take m).map (·.request.write))

/-- A record of the key: that of one of the writes, or one from the beginning, which is then no newer than what the
    engine read there. -/
structure Recorded (e₀ : StorageEngine) (ws : List (LiveWrite ι)) (key : Bytes) (e : Entry) : Prop where
  old : e.seq < e₀.seqNumber → ∃ n, e₀.lookup key = some n ∧ (e.seq < n.seq ∨ e = n)
  new : e₀.seqNumber ≤ e.seq → ∃ w ∈ ws, w.request.key = key ∧ e = w.request.entry w.seq

/-- The numbers of the key's writes, and of the record the engine read at the beginning. -/
def Dated (e₀ : StorageEngine) (ws : List (LiveWrite ι)) (key : Bytes) (q : Nat) : Prop :=
  (∃ n, e₀.lookup key = some n ∧ q = n.seq) ∨ ∃ w ∈ ws, w.request.key = key ∧ q = w.seq

/-- The writes are numbered one by one. -/
def Counted (e₀ : StorageEngine) (ws : List (LiveWrite ι)) : Prop :=
  ∀ i w, ws[i]? = some w → w.seq = e₀.seqNumber + i

/-- More writes, more records that may be there. -/
theorem Recorded.mono (h : Recorded e₀ ws key e) (hws : ws ⊆ ws') : Recorded e₀ ws' key e where
  old := h.old
  new hle := by
    obtain ⟨w, hw, hkey, he⟩ := h.new hle
    exact ⟨w, hws hw, hkey, he⟩

theorem Dated.mono {q : Nat} (h : Dated e₀ ws key q) (hws : ws ⊆ ws') : Dated e₀ ws' key q := by
  refine h.imp_right ?_
  rintro ⟨w, hw, hkey, hq⟩
  exact ⟨w, hws hw, hkey, hq⟩

theorem Counted.take (h : Counted e₀ ws) (m : Nat) : Counted e₀ (ws.take m) := by
  intro i w hw
  rw [List.getElem?_take] at hw
  split_ifs at hw
  exact h i w hw

/-- The numbers of the writes lie between the two counters. -/
theorem Counted.lt (h : Counted e₀ ws) {w : LiveWrite ι} (hw : w ∈ ws) :
    e₀.seqNumber ≤ w.seq ∧ w.seq < e₀.seqNumber + ws.length := by
  obtain ⟨i, hi⟩ := List.getElem?_of_mem hw
  have hlt := (List.getElem?_eq_some_iff.mp hi).1
  rw [h i w hi]
  omega

/-- A record is older than the next number. -/
theorem Recorded.seq_lt (h : Recorded e₀ ws key e) (hn : Counted e₀ ws) : e.seq < e₀.seqNumber + ws.length := by
  by_cases hold : e.seq < e₀.seqNumber
  · omega
  · obtain ⟨w, hw, -, rfl⟩ := h.new (by omega)
    rw [WriteRequest.seq_entry]
    exact (hn.lt hw).2

/-- No write of the key among the first ones, so they leave what was there. -/
theorem valueAfter_of_unwritten (h : ∀ w ∈ ws.take since, w.request.key ≠ key) :
    valueAfter e₀ ws since key = e₀.contents key := by
  unfold valueAfter
  rw [← List.nil_append ((ws.take since).map _), applyWrites_append_of_ne, applyWrites_nil]
  intro w hw
  obtain ⟨v, hv, rfl⟩ := List.mem_map.mp hw
  rw [WriteRequest.key_write]
  exact h v hv

/-- A write that is the last one of its key among the first `m`. -/
theorem valueAfter_of_last {i m : Nat} {w : LiveWrite ι} (hw : ws[i]? = some w) (hm : i < m)
    (hlast : ∀ j v, i < j → j < m → ws[j]? = some v → v.request.key ≠ w.request.key) :
    valueAfter e₀ ws m w.request.key = w.request.write.value := by
  have hsplit : ws.take m = (ws.take i ++ [w]) ++ (ws.take m).drop (i + 1) := by
    have hhead : ws.take i ++ [w] = (ws.take m).take (i + 1) := by
      rw [List.take_take, min_eq_left (by omega), List.take_add_one, hw, Option.toList_some]
    rw [hhead, List.take_append_drop]
  unfold valueAfter
  rw [hsplit, List.map_append, applyWrites_append_of_ne, List.map_append, List.map_cons, List.map_nil,
    applyWrites_concat, ← w.request.key_write]
  · exact Write.apply_key
  · intro v hv
    obtain ⟨u, hu, rfl⟩ := List.mem_map.mp hv
    obtain ⟨j, hj⟩ := List.getElem?_of_mem hu
    rw [List.getElem?_drop, List.getElem?_take] at hj
    split_ifs at hj with hlt
    rw [WriteRequest.key_write]
    exact hlast (i + 1 + j) u (by omega) hlt hj

/-- What a call has found for its key is what the first `m` writes leave, for an `m` between the number of those
    acknowledged when it began and that of those made by now. -/
def Looked (e₀ : StorageEngine) (ws : List (LiveWrite ι)) (since : Nat) (key : Bytes) (P : Option Bytes → Prop) :
    Prop := ∃ m, since ≤ m ∧ m ≤ ws.length ∧ P (valueAfter e₀ ws m key)

/-- Later writes do not change what the earlier ones leave. -/
theorem valueAfter_append (hm : since ≤ ws.length) (more : List (LiveWrite ι)) :
    valueAfter e₀ (ws ++ more) since key = valueAfter e₀ ws since key := by
  unfold valueAfter
  rw [List.take_append_of_le_length hm]

/-- What was looked up stays looked up. -/
theorem Looked.append {P : Option Bytes → Prop} (h : Looked e₀ ws since key P) (more : List (LiveWrite ι)) :
    Looked e₀ (ws ++ more) since key P := by
  obtain ⟨m, hsince, hle, hP⟩ := h
  refine ⟨m, hsince, ?_, by rwa [valueAfter_append hle]⟩
  rw [List.length_append]
  omega

/-- A record that is as new as everything acknowledged reads as some of the writes leave it. -/
theorem Recorded.looked (h : Recorded e₀ ws key e) (hn : Counted e₀ ws) (hsince : since ≤ ws.length)
    (hnew : ∀ q, Dated e₀ (ws.take since) key q → q ≤ e.seq) :
    Looked e₀ ws since key (· = (answer (some e)).map (·.value)) := by
  by_cases hold : e.seq < e₀.seqNumber
  · -- it is what the engine read at the beginning, and the key has not been written since
    obtain ⟨n, hlookup, hn'⟩ := h.old hold
    have hle := hnew n.seq (Or.inl ⟨n, hlookup, rfl⟩)
    obtain rfl : e = n := hn'.resolve_left (by omega)
    refine ⟨since, Nat.le_refl _, hsince, ?_⟩
    rw [valueAfter_of_unwritten]
    · unfold StorageEngine.contents
      rw [hlookup]
    · intro w hw hkey
      have hle := hnew w.seq (Or.inr ⟨w, hw, hkey, rfl⟩)
      have hge := (hn.take since).lt hw
      omega
  · obtain ⟨w, hw, rfl, rfl⟩ := h.new (by omega)
    obtain ⟨i, hi⟩ := List.getElem?_of_mem hw
    have hlt := (List.getElem?_eq_some_iff.mp hi).1
    refine ⟨max since (i + 1), by omega, by omega, ?_⟩
    rw [WriteRequest.value_entry]
    refine valueAfter_of_last hi (by omega) fun j v hij hjm hv hkey => ?_
    -- a later write of the key would have been acknowledged, and newer
    have hmem : v ∈ ws.take since := by
      refine List.mem_of_getElem? (i := j) ?_
      rw [List.getElem?_take, if_pos (by omega)]
      exact hv
    have hle := hnew v.seq (Or.inr ⟨v, hmem, hkey, rfl⟩)
    rw [WriteRequest.seq_entry, hn i w hi, hn j v hv] at hle
    omega

/-- Where nothing is dated there is nothing. -/
theorem looked_of_undated (hsince : since ≤ ws.length) (h : ∀ q, ¬ Dated e₀ (ws.take since) key q) :
    Looked e₀ ws since key (· = none) := by
  refine ⟨since, Nat.le_refl _, hsince, ?_⟩
  rw [valueAfter_of_unwritten]
  · unfold StorageEngine.contents
    cases hlookup : e₀.lookup key with
    | none => rfl
    | some n => exact absurd (Or.inl ⟨n, hlookup, rfl⟩) (h n.seq)
  · intro w hw hkey
    exact h w.seq (Or.inr ⟨w, hw, hkey, rfl⟩)

end Records

/-! ## B. The condition

The engine is no map by itself. A step is `Sound` if none of the ways is taken in which it can lose a record or go back
behind one: an exception in a batch, or in a lookup for want of the file; a lookup past a record that is on its way from
the one memtable to the other; a cache that is filled with a record that is out of date; and a version that is installed
over another thread's, or without a tombstone that has something behind it. -/

/-- What a search of the version finds. -/
def TableVersion.record (v : TableVersion) (key : Bytes) : Option Entry := searchVersion v key none

/-- It is the same record, or it was a tombstone and is gone. -/
def Forgets (before after : Option Entry) : Prop :=
  after = before ∨ after = none ∧ ∃ e, before = some e ∧ e.type = .delete

omit [Platform] in
/-- What two compactions drop, one after the other. -/
theorem Forgets.trans {a b c : Option Entry} (hab : Forgets a b) (hbc : Forgets b c) : Forgets a c := by
  rcases hab with rfl | ⟨rfl, e, ha, he⟩
  · exact hbc
  · rcases hbc with rfl | ⟨-, e', hb, -⟩
    · exact Or.inr ⟨rfl, e, ha, he⟩
    · exact absurd hb (by simp)

omit [Platform] in
/-- With a record in front of it. -/
theorem Forgets.behind {a b : Option Entry} (h : Forgets a b) (front : Option Entry) :
    Forgets (front.or a) (front.or b) := by
  cases front with
  | none => exact h
  | some e => exact Or.inl rfl

namespace LiveWriterPc

variable {ι : Type}

/-- The copy that a rotation has made of the memtable, -/
def copy? : LiveWriterPc ι → Option MemTable
  | .copied imm _ => some imm
  | _ => none

/-- and the one that nobody sees any more, and not yet. -/
def hidden? : LiveWriterPc ι → Option MemTable
  | .cleared imm _ => some imm
  | _ => none

/-- The request whose key is still to be dropped from the cache. -/
def updated? : LiveWriterPc ι → Option (ι × WriteRequest)
  | .updated call _ _ => some call
  | _ => none

end LiveWriterPc

/-- Each thread installs what was there with its own change: the flushed records in front, or the merged ones in the
    place of those they were merged from. And no table is written to the path of another. -/
def Store.Keeps (s : Store) : StoreOp → Prop
  | .flushWrite | .compactWrite => s.FreshPath
  | .flushInstall => ∀ v, s.flusher = .copied v → ∀ key,
      v.record key = (s.engine.immutableMemtable.bind (·.get key)).or (s.engine.version.record key)
  | .compactInstall => ∀ v ids, s.compactor = .copied v ids → ∀ key,
      Forgets (s.engine.version.record key) (v.record key)
  | _ => True

namespace LiveEngine

variable {ι : Type} [DecidableEq ι]

/-- The writer thread will drop the key from the cache before it completes any more requests. -/
def Pending (s : LiveEngine ι) (key : Bytes) : Prop :=
  (∃ call, s.writer.updated? = some call ∧ call.2.key = key) ∨ ∃ call ∈ s.writer.batch, call.2.key = key

/-- The writes whose key has been dropped from the cache. -/
def invalidated (s : LiveEngine ι) : List (LiveWrite ι) :=
  if s.writer.updated?.isSome then s.writes.dropLast else s.writes

/-- No newer write of the key is acknowledged, nor can be before the key is dropped from the cache. -/
def MayStay (s : LiveEngine ι) (key : Bytes) (e : Entry) : Prop :=
  (∀ w ∈ s.writes.take s.acked, w.request.key = key → w.seq ≤ e.seq) ∧
    (s.Pending key ∨ ∀ w ∈ s.invalidated, w.request.key = key → w.seq ≤ e.seq)

/-- The key that a call without a candidate is about to look up in the immutable memtable. -/
def passing? (s : LiveEngine ι) (i : ι) : Option Bytes :=
  match s.calls i with
  | some ⟨call, _, .searching (.readActive none)⟩ => some call.key
  | _ => none

/-- What a call is about to store in the cache. -/
def filling? (s : LiveEngine ι) (i : ι) : Option (Bytes × Entry) :=
  match s.calls i with
  | some ⟨call, _, .searching (.found out)⟩ => some (call.key, out)
  | _ => none

/-- A record of the key that no reader sees. -/
def hidden (s : LiveEngine ι) (key : Bytes) : Option Entry := s.writer.hidden?.bind (·.get key)

/-- The step neither loses a record nor goes back behind one. -/
def Sound (s : LiveEngine ι) (op : LiveOp ι) : Prop :=
  s.Unthrown op ∧
    match op with
    | .readImmutable i => ∀ key, s.passing? i = some key → s.hidden key = none
    | .fill i => ∀ key out, s.filling? i = some (key, out) → s.MayStay key out
    | .background op => s.store.Keeps op
    | _ => True

end LiveEngine

/-! ## C. The store

From here on `virt` is what the version would have of a key if compactions did not drop tombstones. -/

/-- All records of the store are of the kind `P`. -/
structure Store.Only (P : Bytes → Entry → Prop) (s : Store) : Prop where
  memtable : s.engine.memtable.Only P
  immutable : ∀ imm, s.engine.immutableMemtable = some imm → imm.Only P
  version : ∀ t ∈ s.engine.version.sstables, t.Only P
  flusher : s.flusher.All (fun c => c.sst.Only P) (fun v => ∀ t ∈ v.sstables, t.Only P)
  compactor : s.compactor.All (fun plan => ∀ k e, plan.mergedData.find? k = some e → P k e) (fun c => c.sst.Only P)
    (fun v => ∀ t ∈ v.sstables, t.Only P)

namespace Store

variable {P Q : Bytes → Entry → Prop} {s s' : Store}

/-- A store of one kind is a store of any wider kind. -/
theorem Only.mono (h : s.Only P) (hPQ : ∀ k e, P k e → Q k e) : s.Only Q where
  memtable := h.memtable.mono hPQ
  immutable imm himm := (h.immutable imm himm).mono hPQ
  version t ht := (h.version t ht).mono hPQ
  flusher := h.flusher.mono (fun _ hc => hc.mono hPQ) fun _ hv t ht => (hv t ht).mono hPQ
  compactor := h.compactor.mono (fun _ hplan k e he => hPQ k e (hplan k e he)) (fun _ hc => hc.mono hPQ)
    fun _ hv t ht => (hv t ht).mono hPQ

/-- The edit of a version has the records of the version and those of the new table. -/
theorem only_edit {c : Change} {v : TableVersion} (hc : c.sst.Only P) (hv : ∀ t ∈ v.sstables, t.Only P) :
    ∀ t ∈ (c.edit v).sstables, t.Only P := by
  intro t ht
  rcases mem_sstables_edit ht with ht | rfl
  · exact hv t ht
  · exact hc

/-- The threads make up no record. -/
theorem Only.step (h : s.Only P) {op : StoreOp} (hop : op.ofThread = true) (hs : s.step op = some s') : s'.Only P := by
  have hversion := h.version
  have hflusher := h.flusher
  have hcompactor := h.compactor
  cases Effect.of_step hs with
  | write | get | fill _ | rotate _ | clearRemove _ | clearMemtable _ | clearCounters _ | clearVersion _ | clearCache _
  | restart _ _ _ => exact absurd hop (by simp [StoreOp.ofThread])
  | unlink | nothingInL0 | nothingInLevel => exact ⟨h.memtable, h.immutable, hversion, hflusher, hcompactor⟩
  | flushEmpty _ _ _ => exact ⟨h.memtable, h.immutable, hversion, trivial, hcompactor⟩
  | @flushWrite imm _ himm _ =>
      exact ⟨h.memtable, h.immutable, hversion, (h.immutable imm himm).flush _ _, hcompactor⟩
  | @flushCopy c hpc =>
      rw [hpc] at hflusher
      exact ⟨h.memtable, h.immutable, hversion, only_edit hflusher hversion, hcompactor⟩
  | @flushInstall v hpc =>
      rw [hpc] at hflusher
      exact ⟨h.memtable, h.immutable, hflusher, trivial, hcompactor⟩
  | flushSave _ => exact ⟨h.memtable, h.immutable, hversion, trivial, hcompactor⟩
  | flushReset _ =>
      exact ⟨h.memtable, fun imm himm => absurd himm (by simp [StorageEngine.resetImmutable]), hversion, trivial,
        hcompactor⟩
  | compactL0toL1 _ hplan | compactlevelN _ hplan =>
      refine ⟨h.memtable, h.immutable, hversion, hflusher, fun k e he => ?_⟩
      obtain ⟨⟨t, ht, hk⟩, -⟩ := hplan.of_find? he
      exact hversion t ht k e hk
  | @compactWrite plan kind hpc =>
      rw [hpc] at hcompactor
      exact ⟨h.memtable, h.immutable, hversion, hflusher, hcompactor⟩
  | @compactCopy c hpc =>
      rw [hpc] at hcompactor
      exact ⟨h.memtable, h.immutable, hversion, hflusher, only_edit hcompactor hversion⟩
  | @compactInstall v ids hpc =>
      rw [hpc] at hcompactor
      exact ⟨h.memtable, h.immutable, hcompactor, hflusher, trivial⟩
  | compactSave _ | compactRemove _ => exact ⟨h.memtable, h.immutable, hversion, hflusher, trivial⟩

end Store

/-- The change of the flush thread is in the version. -/
def FlushRound.isDone : FlushRound → Bool
  | .installed | .saved => true
  | .idle | .written _ | .copied _ => false

namespace LiveEngine

variable {ι : Type} [DecidableEq ι] {e₀ : StorageEngine} {virt : Bytes → Option Entry} {s s' : LiveEngine ι}

/-- The places of a key. -/
def places (virt : Bytes → Option Entry) (s : LiveEngine ι) (key : Bytes) : Relay Entry where
  active := s.engine.memtable.get key
  hidden := s.hidden key
  waiting := s.engine.immutableMemtable.bind (·.get key)
  settled := virt key

/-- Where the records are, for an engine that started as `e₀`. -/
structure Placed (e₀ : StorageEngine) (virt : Bytes → Option Entry) (s : LiveEngine ι) : Prop where
  next : s.engine.seqNumber = e₀.seqNumber + s.writes.length
  counted : Counted e₀ s.writes
  records : s.store.Only (Recorded e₀ s.writes)
  virtual : ∀ key e, virt key = some e → Recorded e₀ s.writes key e
  shows : ∀ key, Forgets (virt key) (s.engine.version.record key)
  sorted : ∀ key, Relay.Sorted Entry.seq (s.places virt key)
  reaches : ∀ key, Relay.Reaches Entry.seq (Dated e₀ s.writes key) (s.places virt key).held
  copied : ∀ imm, s.writer.copy? = some imm → imm = s.engine.memtable ∧ s.engine.immutableMemtable = none
  cleared : ∀ imm, s.writer.hidden? = some imm → imm.Only (Recorded e₀ s.writes) ∧ s.engine.immutableMemtable = none
  flushed : s.store.flusher.isDone = true → ∀ imm, s.engine.immutableMemtable = some imm →
    ∀ key e, imm.get key = some e → virt key = some e
  busy : s.engine.immutableMemtable = none → s.store.flusher = .idle

/-- The records are where they were, or have moved on. -/
def Follows (virt virt' : Bytes → Option Entry) (s s' : LiveEngine ι) : Prop :=
  ∀ key, s'.places virt' key = s.places virt key ∨ Relay.Move Entry.seq (s.places virt key) (s'.places virt' key)

/-! ## D. One step

One lemma for each thing a step does to the places of a key's records; `Placed.step` puts them together. -/

section Step

omit [DecidableEq ι] in
/-- What happens elsewhere: with the same memtables, version and threads, and the writer thread at the same point of its
    rotation. -/
theorem Placed.congr (h : Placed e₀ virt s) (hmemtable : s'.engine.memtable = s.engine.memtable)
    (himm : s'.engine.immutableMemtable = s.engine.immutableMemtable) (hversion : s'.engine.version = s.engine.version)
    (hseq : s'.engine.seqNumber = s.engine.seqNumber) (hflusher : s'.store.flusher = s.store.flusher)
    (hcompactor : s'.store.compactor = s.store.compactor) (hwrites : s'.writes = s.writes)
    (hcopy : s'.writer.copy? = s.writer.copy?) (hhidden : s'.writer.hidden? = s.writer.hidden?) :
    Placed e₀ virt s' ∧ Follows virt virt s s' := by
  have hplaces : s'.places virt = s.places virt := by
    funext key
    unfold places hidden
    rw [hmemtable, himm, hhidden]
  have hrecords : s'.store.Only (Recorded e₀ s'.writes) := by
    rw [hwrites]
    have hr := h.records
    refine ⟨hmemtable.symm ▸ hr.memtable, himm.symm ▸ hr.immutable, hversion.symm ▸ hr.version,
      hflusher.symm ▸ hr.flusher, hcompactor.symm ▸ hr.compactor⟩
  refine ⟨⟨?_, ?_, hrecords, ?_, ?_, ?_, ?_, ?_, ?_, ?_, ?_⟩, fun key => Or.inl (congrFun hplaces key)⟩
  · rw [hseq, hwrites]
    exact h.next
  · rw [hwrites]
    exact h.counted
  · rw [hwrites]
    exact h.virtual
  · rw [hversion]
    exact h.shows
  · rw [hplaces]
    exact h.sorted
  · rw [hplaces, hwrites]
    exact h.reaches
  · rw [hcopy, hmemtable, himm]
    exact h.copied
  · rw [hhidden, himm, hwrites]
    exact h.cleared
  · rw [hflusher, himm]
    exact h.flushed
  · rw [hflusher, himm]
    exact h.busy

omit [DecidableEq ι] in
/-- Every record of a key is older than the next number. -/
theorem Placed.held_lt (h : Placed e₀ virt s) {key : Bytes} {e : Entry} (he : e ∈ (s.places virt key).held) :
    e.seq < s.engine.seqNumber := by
  have hknown : Recorded e₀ s.writes key e := by
    unfold Relay.held places at he
    simp only [List.reduceOption_mem_iff, List.mem_cons, List.not_mem_nil, or_false] at he
    rcases he with he | he | he | he
    · exact h.records.memtable key e he.symm
    · obtain ⟨imm, himm, hget⟩ := Option.bind_eq_some_iff.mp he.symm
      exact (h.cleared imm himm).1 key e hget
    · obtain ⟨imm, himm, hget⟩ := Option.bind_eq_some_iff.mp he.symm
      exact h.records.immutable imm himm key e hget
    · exact h.virtual key e he.symm
  have hlt := hknown.seq_lt h.counted
  have hnext := h.next
  omega

omit [DecidableEq ι] in
/-- The records move on: what is left to show is where they are then. -/
theorem Placed.follow {virt' : Bytes → Option Entry} (h : Placed e₀ virt s) (hf : Follows virt virt' s s')
    (hwrites : s'.writes = s.writes) :
    (∀ key, Relay.Sorted Entry.seq (s'.places virt' key)) ∧
      ∀ key, Relay.Reaches Entry.seq (Dated e₀ s'.writes key) (s'.places virt' key).held := by
  rw [hwrites]
  constructor
  · intro key
    rcases hf key with heq | hmove
    · rw [heq]
      exact h.sorted key
    · exact hmove.sorted (h.sorted key)
  · intro key
    rcases hf key with heq | hmove
    · rw [heq]
      exact h.reaches key
    · exact (h.reaches key).moveHeld hmove

omit [DecidableEq ι] in
/-- The memtable takes a request. -/
theorem Placed.update (h : Placed e₀ virt s) {call : ι × WriteRequest} {batch : List (ι × WriteRequest)}
    {results : List ι} (hpc : s.writer = .applying (call :: batch) results) :
    Placed e₀ virt { s.update call with writer := .updated call batch results } ∧
      Follows virt virt s { s.update call with writer := .updated call batch results } := by
  obtain ⟨i, request⟩ := call
  have hcopy : s.writer.copy? = none := by rw [hpc]; rfl
  have hhidden : s.writer.hidden? = none := by rw [hpc]; rfl
  have hnext := h.next
  generalize hs' : ({ s.update (i, request) with writer := .updated (i, request) batch results } : LiveEngine ι) = s'
  have hwrites : s'.writes = s.writes ++ [⟨i, request, s.engine.seqNumber⟩] := by rw [← hs']; rfl
  have hsub : s.writes ⊆ s'.writes := by rw [hwrites]; exact List.subset_append_left _ _
  have hmemtable : s'.engine.memtable = s.engine.memtable.apply request s.engine.seqNumber := by rw [← hs']; rfl
  have hplaces : ∀ key, s'.places virt key = if key = request.key then
      { s.places virt key with active := some (request.entry s.engine.seqNumber) } else s.places virt key := by
    intro key
    have hget := s.engine.memtable.get_apply request s.engine.seqNumber key
    have hhid : s'.hidden key = s.hidden key := by
      unfold hidden
      rw [hhidden, ← hs']
      rfl
    have himm : s'.engine.immutableMemtable = s.engine.immutableMemtable := by rw [← hs']; rfl
    unfold places
    rw [hmemtable, hget, hhid, himm]
    split_ifs <;> rfl
  have hfollows : Follows virt virt s s' := by
    intro key
    rw [hplaces]
    split_ifs with hkey
    · refine Or.inr (.write fun x hx => ?_)
      rw [WriteRequest.seq_entry]
      exact h.held_lt hx
    · exact Or.inl rfl
  have hrecorded : Recorded e₀ s'.writes request.key (request.entry s.engine.seqNumber) := by
    refine ⟨fun hlt => ?_, fun _ => ⟨_, by rw [hwrites]; exact List.mem_append_right _ List.mem_cons_self, rfl, rfl⟩⟩
    rw [WriteRequest.seq_entry] at hlt
    omega
  have hmono : ∀ k e, Recorded e₀ s.writes k e → Recorded e₀ s'.writes k e := fun _ _ he => he.mono hsub
  have hr := h.records.mono hmono
  refine ⟨⟨?_, ?_, ?_, fun key e he => hmono _ _ (h.virtual key e he), ?_, ?_, ?_, ?_, ?_, ?_, ?_⟩, hfollows⟩
  · rw [hwrites, ← hs']
    show s.engine.seqNumber + 1 = _
    rw [List.length_append, List.length_singleton]
    omega
  · intro j w hw
    rw [hwrites] at hw
    rcases Nat.lt_or_ge j s.writes.length with hlt | hge
    · rw [List.getElem?_append_left hlt] at hw
      exact h.counted j w hw
    · have hj : j = s.writes.length := by
        have := (List.getElem?_eq_some_iff.mp hw).1
        rw [List.length_append, List.length_singleton] at this
        omega
      subst hj
      rw [List.getElem?_concat_length] at hw
      obtain rfl := Option.some.inj hw
      exact hnext
  · rw [← hs'] at hr hrecorded ⊢
    exact ⟨hr.memtable.apply hrecorded, hr.immutable, hr.version, hr.flusher, hr.compactor⟩
  · rw [← hs']
    exact h.shows
  · intro key
    rcases hfollows key with heq | hmove
    · rw [heq]
      exact h.sorted key
    · exact hmove.sorted (h.sorted key)
  · intro key q hq
    rw [hplaces]
    split_ifs with hkey
    · -- the new record is newer than all others
      refine ⟨_, rfl, ?_⟩
      rw [WriteRequest.seq_entry]
      rcases hq with ⟨n, hn, rfl⟩ | ⟨w, hw, -, rfl⟩
      · obtain ⟨e, he, hle⟩ := h.reaches key n.seq (Or.inl ⟨n, hn, rfl⟩)
        exact hle.trans (h.held_lt (List.mem_of_head? he)).le
      · rw [hwrites] at hw
        rcases List.mem_append.mp hw with hw | hw
        · have hlt := (h.counted.lt hw).2
          omega
        · obtain rfl := List.mem_singleton.mp hw
          exact le_rfl
    · refine h.reaches key q (hq.imp_right ?_)
      rintro ⟨w, hw, hwkey, rfl⟩
      rw [hwrites] at hw
      rcases List.mem_append.mp hw with hw | hw
      · exact ⟨w, hw, hwkey, rfl⟩
      · obtain rfl := List.mem_singleton.mp hw
        exact absurd hwkey.symm hkey
  · rw [← hs']
    exact fun imm himm => absurd himm (by simp [LiveWriterPc.copy?])
  · rw [← hs']
    exact fun imm himm => absurd himm (by simp [LiveWriterPc.hidden?])
  · rw [← hs']
    exact h.flushed
  · rw [← hs']
    exact h.busy

omit [DecidableEq ι] in
/-- A rotation copies the memtable, -/
theorem Placed.rotate (h : Placed e₀ virt s) {results : List ι} (hpc : s.writer = .checking results)
    (himm : s.engine.immutableMemtable = none) :
    Placed e₀ virt { s with writer := .copied s.engine.memtable results } ∧
      Follows virt virt s { s with writer := .copied s.engine.memtable results } := by
  have hhidden : s.writer.hidden? = none := by rw [hpc]; rfl
  have hplaces : places virt { s with writer := .copied s.engine.memtable results } = s.places virt := by
    funext key
    unfold places hidden
    rw [hhidden]
    rfl
  refine ⟨⟨h.next, h.counted, h.records, h.virtual, h.shows, ?_, ?_, ?_, ?_, h.flushed, h.busy⟩,
    fun key => Or.inl (congrFun hplaces key)⟩
  · rw [hplaces]
    exact h.sorted
  · rw [hplaces]
    exact h.reaches
  · rintro imm heq
    exact ⟨(Option.some.inj heq).symm, himm⟩
  · exact fun imm heq => absurd heq (by simp [LiveWriterPc.hidden?])

omit [DecidableEq ι] in
/-- clears it, -/
theorem Placed.rotateClear (h : Placed e₀ virt s) {imm : MemTable} {results : List ι}
    (hpc : s.writer = .copied imm results) :
    Placed e₀ virt { s.setEngine { s.engine with memtable := s.engine.memtable.clear } with
        writer := .cleared imm results } ∧
      Follows virt virt s { s.setEngine { s.engine with memtable := s.engine.memtable.clear } with
        writer := .cleared imm results } := by
  obtain ⟨rfl, hnone⟩ := h.copied imm (by rw [hpc]; rfl)
  have hhidden : s.writer.hidden? = none := by rw [hpc]; rfl
  have hfollows : Follows virt virt s { s.setEngine { s.engine with memtable := s.engine.memtable.clear } with
      writer := .cleared s.engine.memtable results } := by
    intro key
    right
    have hplaces : s.places virt key = ⟨s.engine.memtable.get key, none, none, virt key⟩ := by
      unfold places hidden
      rw [hhidden, hnone]
      rfl
    have hplaces' : places virt { s.setEngine { s.engine with memtable := s.engine.memtable.clear } with
        writer := .cleared s.engine.memtable results } key = ⟨none, s.engine.memtable.get key, none, virt key⟩ := by
      show Relay.mk _ _ (s.engine.immutableMemtable.bind (·.get key)) _ = _
      rw [hnone]
      rfl
    rw [hplaces, hplaces']
    exact .hide rfl rfl
  obtain ⟨hsorted, hreaches⟩ := h.follow hfollows rfl
  have hr := h.records
  refine ⟨⟨h.next, h.counted, ⟨MemTable.only_empty, hr.immutable, hr.version, hr.flusher, hr.compactor⟩, h.virtual,
    h.shows, hsorted, hreaches, ?_, ?_, h.flushed, h.busy⟩, hfollows⟩
  · exact fun imm heq => absurd heq (by simp [LiveWriterPc.copy?])
  · rintro imm heq
    obtain rfl := Option.some.inj heq
    exact ⟨hr.memtable, hnone⟩

omit [DecidableEq ι] in
/-- and publishes the copy. -/
theorem Placed.rotatePublish (h : Placed e₀ virt s) {imm : MemTable} {results : List ι} {unlinks : Nat}
    (hpc : s.writer = .cleared imm results) :
    Placed e₀ virt { s with
        store := { s.store with engine := { s.engine with immutableMemtable := some imm }, unlinks }
        writer := .completing true results [] } ∧
      Follows virt virt s { s with
        store := { s.store with engine := { s.engine with immutableMemtable := some imm }, unlinks }
        writer := .completing true results [] } := by
  have hhidden : s.writer.hidden? = some imm := by rw [hpc]; rfl
  obtain ⟨honly, hnone⟩ := h.cleared imm hhidden
  have hidle := h.busy hnone
  have hfollows : Follows virt virt s { s with
      store := { s.store with engine := { s.engine with immutableMemtable := some imm }, unlinks }
      writer := .completing true results [] } := by
    intro key
    right
    have hplaces : s.places virt key = ⟨s.engine.memtable.get key, imm.get key, none, virt key⟩ := by
      unfold places hidden
      rw [hhidden, hnone]
      rfl
    rw [hplaces]
    exact .publish rfl
  obtain ⟨hsorted, hreaches⟩ := h.follow hfollows rfl
  have hr := h.records
  refine ⟨⟨h.next, h.counted, ⟨hr.memtable, ?_, hr.version, hr.flusher, hr.compactor⟩, h.virtual,
    h.shows, hsorted, hreaches, ?_, ?_, ?_, ?_⟩, hfollows⟩
  · rintro imm' heq
    obtain rfl := Option.some.inj heq
    exact honly
  · exact fun imm heq => absurd heq (by simp [LiveWriterPc.copy?])
  · exact fun imm heq => absurd heq (by simp [LiveWriterPc.hidden?])
  · -- the flush thread is between two rounds
    show s.store.flusher.isDone = true → _
    rw [hidle]
    exact fun hdone => absurd hdone (by simp [FlushRound.isDone])
  · exact fun heq => absurd heq (by simp [engine])

omit [DecidableEq ι] in
/-- A thread moves on and leaves the memtables and the version alone. -/
theorem Placed.thread (h : Placed e₀ virt s) {t : Store} (hmemtable : t.engine.memtable = s.engine.memtable)
    (himm : t.engine.immutableMemtable = s.engine.immutableMemtable) (hversion : t.engine.version = s.engine.version)
    (hseq : t.engine.seqNumber = s.engine.seqNumber) (honly : t.Only (Recorded e₀ s.writes))
    (hflushed : t.flusher.isDone = true → ∀ imm, s.engine.immutableMemtable = some imm →
      ∀ key e, imm.get key = some e → virt key = some e)
    (hbusy : s.engine.immutableMemtable = none → t.flusher = .idle) :
    ∃ virt', Placed e₀ virt' { s with store := t } ∧ Follows virt virt' s { s with store := t } := by
  have hplaces : places virt { s with store := t } = s.places virt := by
    funext key
    show Relay.mk (t.engine.memtable.get key) _ (t.engine.immutableMemtable.bind (·.get key)) _ = _
    rw [hmemtable, himm]
    rfl
  refine ⟨virt, ⟨hseq.trans h.next, h.counted, honly, h.virtual, ?_, ?_, ?_, ?_, ?_, ?_, ?_⟩,
    fun key => Or.inl (congrFun hplaces key)⟩
  · show ∀ key, Forgets (virt key) (t.engine.version.record key)
    rw [hversion]
    exact h.shows
  · rw [hplaces]
    exact h.sorted
  · rw [hplaces]
    exact h.reaches
  · show ∀ imm, s.writer.copy? = some imm → imm = t.engine.memtable ∧ t.engine.immutableMemtable = none
    rw [hmemtable, himm]
    exact h.copied
  · show ∀ imm, s.writer.hidden? = some imm → imm.Only (Recorded e₀ s.writes) ∧ t.engine.immutableMemtable = none
    rw [himm]
    exact h.cleared
  · show t.flusher.isDone = true → ∀ imm, t.engine.immutableMemtable = some imm → _
    rw [himm]
    exact hflushed
  · show t.engine.immutableMemtable = none → t.flusher = .idle
    rw [himm]
    exact hbusy

omit [DecidableEq ι] in
/-- The flush thread installs its version: the immutable memtable's records are in it. -/
theorem Placed.flushInstall (h : Placed e₀ virt s) {v : TableVersion} (hpc : s.store.flusher = .copied v)
    (hkeeps : ∀ key, v.record key =
      (s.engine.immutableMemtable.bind (·.get key)).or (s.engine.version.record key))
    (honly : Store.Only (Recorded e₀ s.writes)
      { s.store with engine := { s.engine with version := v }, flusher := .installed }) :
    ∃ virt', Placed e₀ virt' { s with
        store := { s.store with engine := { s.engine with version := v }, flusher := .installed } } ∧
      Follows virt virt' s { s with
        store := { s.store with engine := { s.engine with version := v }, flusher := .installed } } := by
  have hfollows : Follows virt (fun key => (s.engine.immutableMemtable.bind (·.get key)).or (virt key)) s { s with
      store := { s.store with engine := { s.engine with version := v }, flusher := .installed } } :=
    fun key => Or.inr .settle
  obtain ⟨hsorted, hreaches⟩ := h.follow hfollows rfl
  refine ⟨_, ⟨h.next, h.counted, honly, ?_, ?_, hsorted, hreaches, h.copied, h.cleared, ?_, ?_⟩, hfollows⟩
  · intro key e he
    rcases Option.or_eq_some_iff.mp he with he | ⟨-, he⟩
    · obtain ⟨imm, himm, hget⟩ := Option.bind_eq_some_iff.mp he
      exact h.records.immutable imm himm key e hget
    · exact h.virtual key e he
  · intro key
    show Forgets _ (v.record key)
    rw [hkeeps key]
    exact (h.shows key).behind _
  · intro _ imm himm key e he
    have himm : s.engine.immutableMemtable = some imm := himm
    rw [himm, Option.bind_some, he]
    rfl
  · intro hnone
    exact absurd ((h.busy hnone).symm.trans hpc) (by simp)

omit [DecidableEq ι] in
/-- It resets the immutable memtable, whose records are in the version. -/
theorem Placed.flushReset (h : Placed e₀ virt s) (hpc : s.store.flusher = .saved) :
    ∃ virt', Placed e₀ virt' { s with
        store := { s.store with engine := s.engine.resetImmutable, flusher := .idle } } ∧
      Follows virt virt' s { s with
        store := { s.store with engine := s.engine.resetImmutable, flusher := .idle } } := by
  have hdone := h.flushed (by rw [hpc]; rfl)
  have hfollows : Follows virt virt s { s with
      store := { s.store with engine := s.engine.resetImmutable, flusher := .idle } } := by
    intro key
    refine Or.inr (.drop fun e he => ?_)
    obtain ⟨imm, himm, hget⟩ := Option.bind_eq_some_iff.mp (Option.mem_def.mp he)
    exact hdone imm himm key e hget
  obtain ⟨hsorted, hreaches⟩ := h.follow hfollows rfl
  have hr := h.records
  refine ⟨virt, ⟨h.next, h.counted, ⟨hr.memtable, ?_, hr.version, trivial, hr.compactor⟩, h.virtual, h.shows, hsorted,
    hreaches, ?_, ?_, ?_, fun _ => rfl⟩, hfollows⟩
  · exact fun imm himm => absurd himm (by simp [StorageEngine.resetImmutable])
  · exact fun imm hcopy => ⟨(h.copied imm hcopy).1, rfl⟩
  · exact fun imm hhidden => ⟨(h.cleared imm hhidden).1, rfl⟩
  · exact fun hdone => absurd hdone (by simp [FlushRound.isDone])

omit [DecidableEq ι] in
/-- The compaction thread installs its version. -/
theorem Placed.compactInstall (h : Placed e₀ virt s) {v : TableVersion} {ids : List Nat}
    (hkeeps : ∀ key, Forgets (s.engine.version.record key) (v.record key))
    (honly : Store.Only (Recorded e₀ s.writes)
      { s.store with engine := { s.engine with version := v }, compactor := .installed ids }) :
    ∃ virt', Placed e₀ virt' { s with
        store := { s.store with engine := { s.engine with version := v }, compactor := .installed ids } } ∧
      Follows virt virt' s { s with
        store := { s.store with engine := { s.engine with version := v }, compactor := .installed ids } } :=
  ⟨virt, ⟨h.next, h.counted, honly, h.virtual, fun key => (h.shows key).trans (hkeeps key), h.sorted, h.reaches,
    h.copied, h.cleared, h.flushed, h.busy⟩, fun _ => Or.inl rfl⟩

omit [DecidableEq ι] in
/-- A step of the flush thread or the compaction thread. -/
theorem Placed.background (h : Placed e₀ virt s) {op : StoreOp} {store : Store} (hop : op.ofThread = true)
    (hC : s.store.Keeps op) (hs : s.store.step op = some store) :
    ∃ virt', Placed e₀ virt' { s with store } ∧ Follows virt virt' s { s with store } := by
  have honly := h.records.step hop hs
  have hnone : s.store.flusher ≠ .idle → s.engine.immutableMemtable ≠ none := fun hpc himm => hpc (h.busy himm)
  cases Store.Effect.of_step hs with
  | write | get | fill _ | rotate _ | clearRemove _ | clearMemtable _ | clearCounters _ | clearVersion _ | clearCache _
  | restart _ _ _ => exact absurd hop (by simp [StoreOp.ofThread])
  | unlink | nothingInL0 | nothingInLevel | compactL0toL1 _ _ | compactlevelN _ _ | compactWrite _ | compactCopy _
  | compactSave _ | compactRemove _ => exact h.thread rfl rfl rfl rfl honly h.flushed h.busy
  | @flushEmpty imm hpc himm hempty =>
      refine h.thread rfl rfl rfl rfl honly (fun _ imm' himm' key e he => ?_) fun heq => ?_
      · obtain rfl := Option.some.inj (himm.symm.trans himm')
        exact absurd (he.symm.trans (SortedMap.isEmpty_iff.mp hempty key)) (by simp)
      · exact absurd (himm.symm.trans heq) (by simp)
  | @flushWrite imm hpc himm hne =>
      exact h.thread rfl rfl rfl rfl honly (fun hdone => absurd hdone (by simp [FlushRound.isDone])) fun heq =>
        absurd (himm.symm.trans heq) (by simp)
  | flushCopy hpc =>
      exact h.thread rfl rfl rfl rfl honly (fun hdone => absurd hdone (by simp [FlushRound.isDone])) fun heq =>
        absurd heq (hnone (by simp [hpc]))
  | flushInstall hpc => exact h.flushInstall hpc (hC _ hpc) honly
  | flushSave hpc =>
      exact h.thread rfl rfl rfl rfl honly (fun _ => h.flushed (by rw [hpc]; rfl)) fun heq =>
        absurd heq (hnone (by simp [hpc]))
  | flushReset hpc => exact h.flushReset hpc
  | compactInstall hpc => exact h.compactInstall (hC _ _ hpc) honly

/-- **One step.** -/
theorem Placed.step (h : Placed e₀ virt s) {op : LiveOp ι} (hC : s.Sound op) (hs : s.step op = some s') :
    ∃ virt', Placed e₀ virt' s' ∧ Follows virt virt' s s' := by
  obtain ⟨hthrow, hsound⟩ := hC
  cases Effect.of_step hs with
  | throwsApplying _ => exact hthrow.elim
  | throwsChecking _ => exact hthrow.elim
  | background hop hthread => exact h.background hop hsound hthread
  | update hpc => exact ⟨virt, h.update hpc⟩
  | rotate hpc himm => exact ⟨virt, h.rotate hpc himm⟩
  | rotateClear hpc => exact ⟨virt, h.rotateClear hpc⟩
  | rotatePublish hpc => exact ⟨virt, h.rotatePublish hpc⟩
  | call _ | uncached _ _ | hit _ _ _ | miss _ _ _ | readActive _ | readImmutable _ | takeVersion _ | found _ _
  | searched _ | threw _ _ _ | looked _ | fill _ | push _ _ => exact ⟨virt, h.congr rfl rfl rfl rfl rfl rfl rfl rfl rfl⟩
  | popBatch hpc _ | invalidate hpc | endBatch hpc | checkFlush hpc | complete hpc | completed hpc =>
      exact ⟨virt, h.congr rfl rfl rfl rfl rfl rfl rfl (by rw [hpc]; rfl) (by rw [hpc]; rfl)⟩

end Step

end LiveEngine

end KvStorageEngine
