import KvStorageEngine.Engine.Correctness.AckedInLog
import KvStorageEngine.Engine.Correctness.Restart

/-!
# `Engine.Correctness.Durability` — acknowledged writes after a stop

A record travels from the log's buffers to its file, and from the memtable over the immutable one to a table that
the saved metadata names. The log's file has every acknowledged write (`LogInv.acked_prefix`), and no record
anywhere on disk is one the store does not know of (`StoreInv`). So the newest record that is left of a key is the
last acknowledged one or one that was in flight (`exists_contents`), *if* one as new as the acknowledged one is
left at all. `checkFlush` sees to the contrary: it removes `log.bin` before the flush thread has saved the
table, and the log goes on writing into the removed file. `restored_of_careful` says when a stop is harmless
nevertheless, and `not_restored_of_lost` that a stop at another moment is not.

A life may begin on what other lives have left (`Reachable`); what that takes is `Kept`.

Layout of the file:
* **A** — the property and the condition.
* **B** — the newest record that is left.
* **C**, **D** — where the records are, and that no step loses track of one.
* **E** — one life, from its start to what its stop leaves.
* **F** — the tables that the saved metadata names.
* **G** — any number of lives.
* **H** — a run that loses a write, and one that does not.
-/

namespace KvStorageEngine

open Run Layered TableVersion TextStream

variable [Platform]

/-! ## A. The property and the condition

What the next life has to restore, and the steps of a life that is careful enough. -/

/-- What the first `n` writes of a life leave of a key that had the record `before`. -/
def contents (before : Option Entry) (written : List LogRecord) (n : Nat) (key : Bytes) : Option Entry :=
  ((replay (written.take n) MemTable.empty).get key).or before

namespace Lifetime

variable {κ : Type}

/-- A table that `levels.txt` names has the record `e` of `key`. -/
def SavedRecord (dataDir : Bytes) (d : DataDir) (key : Bytes) (e : Entry) : Prop :=
  ∃ text m sst, d.levels = some text ∧ printMeta m ∈ getLines text ∧
    d.file? (sstablePath (sstableDir dataDir) m.id) = some sst ∧ sst.records.find? key = some e

/-- **Every acknowledged write is restored** by a constructor on what the stop of `t` leaves, in a life that began
    with `s`: a key is read as the writes leave it, counted up to the last acknowledged one or one in flight. -/
def Restored (dataDir : Bytes) (s t : Lifetime κ) : Prop :=
  ∀ cacheSize, ∃ e, t.disk.construct dataDir cacheSize = some e ∧ ∀ key, ∃ n, t.acked ≤ n ∧
    (e.get key).1 = answer (contents (s.engine.lookup key) t.written n key)

/-- What a step must meet. The writer thread flushes its batch when that is a barrier; a table is written to a path
    where no file is; metadata is saved when `levels.txt` can say it, and with a sequence number that no table uses. -/
def Careful (s : Lifetime κ) : LifetimeOp κ → Prop
  | .flushLog => s.log.ClearFlush (.flushRequest .batch)
  | .flushWrite =>
    (s.dir.file? (sstablePath (sstableDir s.engine.dataDir) (s.engine.flushCounter + 1))).isNone = true
  | .flushSave => (∀ m ∈ s.engine.version.levels.flatten, m.HasWords) ∧
      ∀ t ∈ s.engine.version.sstables, ∀ p ∈ t.records.entries, p.2.seq < s.engine.seqNumber
  | _ => True

instance (s : Lifetime κ) (op : LifetimeOp κ) : Decidable (s.Careful op) :=
  match op with
  | .flushLog => inferInstanceAs (Decidable (_ ∨ _))
  | .flushWrite => inferInstanceAs (Decidable (_ = _))
  | .flushSave => inferInstanceAs (Decidable (_ ∧ _))
  | .popBatch _ | .update | .append | .advance | .checkFlush | .complete | .flush _ | .rotateCopy _
  | .rotateClear _ | .rotatePublish _ | .unlink _ | .flushInstall | .flushReset
  | .log _ => isTrue trivial

end Lifetime

/-! ## B. The newest record that is left

The writes of a life are numbered one by one. Of the first `n` of them and a record from before, the one with the
largest number is what the key should read. -/

section Newest

variable {K S : Entry → Prop} {before found : Option Entry} {written : List LogRecord}
  {first acked : Nat} {key : Bytes}

omit [Platform] in
/-- The numbers of a life's writes ascend. -/
theorem ascending_of_seqs (h : ∀ i r, written[i]? = some r → r.seqNumber = first + i) : Ascending written := by
  apply List.pairwise_iff_getElem.mpr
  intro i j hi hj hij
  rw [h i _ (List.getElem?_eq_getElem hi), h j _ (List.getElem?_eq_getElem hj)]
  omega

end Newest

/-! ## C. Where the records are

Every record in a memtable, a table, a copy under way or the log is one that is known: from the directory at the
beginning, or written in this life. -/

/-- Every record of a memtable, of a table or of a rotation's copy is one of `P`. -/
def MemTable.Within (P : Bytes → Entry → Prop) (m : MemTable) : Prop := ∀ k e, m.get k = some e → P k e

def SSTable.Within (P : Bytes → Entry → Prop) (t : SSTable) : Prop :=
  ∀ k e, t.records.find? k = some e → P k e

def RotationPc.Within (P : Bytes → Entry → Prop) : RotationPc → Prop
  | .idle => True
  | .copied imm | .cleared imm => imm.Within P

/-- A record of the store: one from before, or one written since. -/
def Known (K : Bytes → Entry → Prop) (written : List LogRecord) (key : Bytes) (e : Entry) : Prop :=
  K key e ∨ InLog written key e

/-- A directory as a life leaves it: the metadata of `v` was saved with a sequence number no table of it uses. -/
structure SavedAs (dataDir : Bytes) (d : DataDir) (n q : Nat) (v : TableVersion) : Prop extends
    Saved dataDir d n q v where
  below : ∀ t ∈ v.sstables, t.Within fun _ e => e.seq < q

/-- Where the flush thread is, with the version and the flush counter. -/
def FlusherInv (dataDir : Bytes) (P : Bytes → Entry → Prop) (v : TableVersion) (counter : Nat)
    (dir : DataDir) : FlusherPc → Prop
  | .idle | .installed | .saved => v.Flat dataDir counter
  | .written sst => ∃ (n : Nat) (imm : MemTable), counter = n + 1 ∧ v.Flat dataDir n ∧ imm.snapshot.isEmpty = false ∧
      imm.Within P ∧ sst = SSTable.flush imm.snapshot (sstableDir dataDir) (n + 1) ∧
      dir.file? sst.path = some sst

/-- The invariant of a life that began with the records `K` and the tables `old`. -/
structure StoreInv {κ : Type} (dataDir : Bytes) (K : Bytes → Entry → Prop) (old : List SSTable)
    (s : Lifetime κ) : Prop where
  dataDir_eq : s.engine.dataDir = dataDir
  active : s.engine.memtable.Within (Known K s.written)
  immutable : ∀ imm, s.engine.immutableMemtable = some imm → imm.Within (Known K s.written)
  copy : s.rotation.Within (Known K s.written)
  tables : ∀ t ∈ s.engine.version.sstables, t.Within (Known K s.written)
  there : ∀ t ∈ s.engine.version.sstables, s.dir.file? t.path = some t
  flusher : FlusherInv dataDir (Known K s.written) s.engine.version s.engine.flushCounter s.dir s.flusher
  saved : ∃ n q v, SavedAs dataDir s.dir n q v ∧ n ≤ s.engine.flushCounter ∧
    v.sstables ⊆ s.engine.version.sstables ∧ old ⊆ v.sstables

/-! ## D. The steps keep the records

Only the flush thread changes the directory. Its table is written beside the others, and the metadata names it when
the version has it. -/

section Steps

variable {dataDir : Bytes} {n q : Nat} {v : TableVersion} {d : DataDir} {K P Q : Bytes → Entry → Prop}

omit [Platform] in
theorem MemTable.Within.mono {m : MemTable} (h : m.Within P) (hPQ : ∀ k e, P k e → Q k e) : m.Within Q :=
  fun k e he => hPQ k e (h k e he)

/-- The table of a flush under the next id. -/
theorem TableVersion.Flat.installFlushed (h : v.Flat dataDir n) {imm : MemTable}
    (hne : imm.snapshot.isEmpty = false) (maxSeq : Nat) :
    (StorageEngine.installFlushed v.copyFrom (SSTable.flush imm.snapshot (sstableDir dataDir) (n + 1))
      ((SSTable.flush imm.snapshot (sstableDir dataDir) (n + 1)).meta (n + 1) maxSeq 0)).Flat
        dataDir (n + 1) := by
  generalize hsst : SSTable.flush imm.snapshot (sstableDir dataDir) (n + 1) = sst
  have hpath : sst.path = sstablePath (sstableDir dataDir) (n + 1) := by rw [← hsst]; rfl
  have hle : sst.minKey ≤ sst.maxKey := by
    rw [← hsst]
    exact SSTable.minKey_le_maxKey_flush hne _ _
  have hcopy : Joined dataDir n v.copyFrom := h.toJoined.of_perm (List.Perm.refl _) rfl
  have hlevel : ∀ i, (StorageEngine.installFlushed v.copyFrom sst (sst.meta (n + 1) maxSeq 0)).level i
      = if i = 0 then v.level i ++ [sst.meta (n + 1) maxSeq 0] else v.level i := fun i =>
    level_addSSTable v.copyFrom sst (sst.meta (n + 1) maxSeq 0) i
  refine ⟨(hcopy.add (m := sst.meta (n + 1) maxSeq 0) rfl hpath ⟨rfl, rfl⟩ hle).of_perm
    (List.Perm.refl _) rfl, fun i hi => ?_, ?_, fun m hm => ?_⟩
  · rw [hlevel, if_neg (by omega)]
    exact h.deep i hi
  · rw [hlevel, if_pos rfl, List.map_append, ← h.aligned]
    show (v.sstables ++ [sst]).map (·.path) = _
    rw [List.map_append, List.map_cons, hpath]
    rfl
  · rw [hlevel, if_pos rfl] at hm
    rcases List.mem_append.mp hm with hm | hm
    · exact h.level_eq m hm
    · rw [List.mem_singleton.mp hm]
      rfl

/-- A table file under a new id leaves the tables of a version where they are. -/
theorem TableVersion.Flat.file?_writeTable (h : v.Flat dataDir n) {m : Nat} (hm : n < m) {sst : SSTable}
    (hpath : sst.path = sstablePath (sstableDir dataDir) m) {t : SSTable} (ht : t ∈ v.sstables) :
    (d.writeTable sst).file? t.path = d.file? t.path := by
  rw [DataDir.file?_writeTable, if_neg]
  obtain ⟨x, hx, hp⟩ := h.exists_id ht
  have hid := h.ids_le x hx
  rw [hp, hpath]
  intro he
  have := sstablePath_inj he
  omega

variable {κ : Type} {s s' : Lifetime κ} {old : List SSTable}

namespace StoreInv

/-- A step that touches neither the engine nor the directory. -/
theorem congr (h : StoreInv dataDir K old s) (he : s'.engine = s.engine) (hd : s'.dir = s.dir)
    (hr : s'.rotation = s.rotation) (hf : s'.flusher = s.flusher) (hw : s'.written = s.written) :
    StoreInv dataDir K old s' := by
  obtain ⟨hdir, hactive, himm, hcopy, htables, hthere, hflusher, hsaved⟩ := h
  rw [← he] at hdir
  rw [← he, ← hw] at hactive himm htables
  rw [← hr, ← hw] at hcopy
  rw [← he, ← hd] at hthere hsaved
  rw [← he, ← hd, ← hf, ← hw] at hflusher
  exact ⟨hdir, hactive, himm, hcopy, htables, hthere, hflusher, hsaved⟩

/-- A new write goes into the memtable. -/
theorem update (h : StoreInv dataDir K old s) (request : WriteRequest) (writer : WriterPc) :
    StoreInv dataDir K old { s with
      engine := { s.engine with memtable := s.engine.memtable.apply request s.engine.seqNumber }
      writer := writer
      written := s.written ++ [⟨request, s.engine.seqNumber⟩] } := by
  have hmono : ∀ k e, Known K s.written k e →
      Known K (s.written ++ [⟨request, s.engine.seqNumber⟩]) k e := fun k e he =>
    he.imp_right fun hin => hin.mono fun r hr => List.mem_append_left _ hr
  refine ⟨h.dataDir_eq, ?_, fun imm himm => (h.immutable imm himm).mono hmono, ?_,
    fun t ht k e he => hmono k e (h.tables t ht k e he), h.there, ?_, h.saved⟩
  · intro k e he
    have he : (s.engine.memtable.apply request s.engine.seqNumber).get k = some e := he
    rw [MemTable.get_apply] at he
    split_ifs at he with hk
    · refine Or.inr ⟨⟨request, s.engine.seqNumber⟩, by simp, hk.symm, ?_⟩
      exact Option.some.inj he
    · exact hmono k e (h.active k e he)
  · have hcopy := h.copy
    show s.rotation.Within _
    cases hr : s.rotation with
    | idle => trivial
    | copied imm | cleared imm =>
        rw [hr] at hcopy
        exact MemTable.Within.mono hcopy hmono
  · have hflusher := h.flusher
    show FlusherInv _ _ _ _ _ s.flusher
    cases hf : s.flusher with
    | idle | installed | saved =>
        rw [hf] at hflusher
        exact hflusher
    | written sst =>
        rw [hf] at hflusher
        obtain ⟨n, imm, hcounter, hflat, hne, hin, hsst, hfile⟩ := hflusher
        exact ⟨n, imm, hcounter, hflat, hne, hin.mono hmono, hsst, hfile⟩

/-- The flush thread writes the table of the immutable memtable. -/
theorem flushWrite (h : StoreInv dataDir K old s) (hidle : s.flusher = .idle) {imm : MemTable}
    (himm : s.engine.immutableMemtable = some imm) (hne : imm.snapshot.isEmpty = false) :
    StoreInv dataDir K old { s with
      engine := { s.engine with flushCounter := s.engine.flushCounter + 1 }
      dir := s.dir.writeTable
        (SSTable.flush imm.snapshot (sstableDir s.engine.dataDir) (s.engine.flushCounter + 1))
      flusher := .written
        (SSTable.flush imm.snapshot (sstableDir s.engine.dataDir) (s.engine.flushCounter + 1)) } := by
  rw [h.dataDir_eq]
  have hflat := h.flusher
  rw [hidle] at hflat
  obtain ⟨n, q, v, hsaved, hn, hsub, hold⟩ := h.saved
  -- the tables there are have older ids
  refine ⟨h.dataDir_eq, h.active, h.immutable, h.copy, h.tables, fun t ht => ?_,
    ⟨s.engine.flushCounter, imm, rfl, hflat, hne, h.immutable imm himm, rfl, ?_⟩,
    n, q, v, ⟨⟨hsaved.flat, hsaved.text, fun t ht => ?_, hsaved.words⟩, hsaved.below⟩,
    Nat.le_succ_of_le hn, hsub, hold⟩
  · exact (TableVersion.Flat.file?_writeTable hflat (Nat.lt_succ_self _) rfl ht).trans (h.there t ht)
  · show (s.dir.writeTable _).file? _ = _
    rw [DataDir.file?_writeTable, if_pos rfl]
  · exact (hsaved.flat.file?_writeTable (Nat.lt_succ_of_le hn) rfl ht).trans (hsaved.there t ht)

/-- It installs a version with the table. -/
theorem flushInstall (h : StoreInv dataDir K old s) {sst : SSTable} (hwritten : s.flusher = .written sst) :
    StoreInv dataDir K old { s with
      engine := { s.engine with
        version := StorageEngine.installFlushed s.engine.version.copyFrom sst
          (sst.meta s.engine.flushCounter (s.engine.seqNumber - 1) 0) }
      flusher := .installed } := by
  have hflusher := h.flusher
  rw [hwritten] at hflusher
  obtain ⟨m, imm, hcounter, hflat, hne, hin, rfl, hfile⟩ := hflusher
  obtain ⟨n, q, v, hsaved, hn, hsub, hold⟩ := h.saved
  have hnew : ∀ t ∈ s.engine.version.sstables ++
      [SSTable.flush imm.snapshot (sstableDir dataDir) (m + 1)], t ∈ s.engine.version.sstables ∨
        t = SSTable.flush imm.snapshot (sstableDir dataDir) (m + 1) := fun t ht =>
    (List.mem_append.mp ht).imp_right List.mem_singleton.mp
  refine ⟨h.dataDir_eq, h.active, h.immutable, h.copy, ?_, ?_, ?_,
    n, q, v, hsaved, hn, fun t ht => List.mem_append_left _ (hsub ht), hold⟩
  · intro t ht
    rcases hnew t ht with ht | rfl
    · exact h.tables t ht
    · exact hin
  · intro t ht
    rcases hnew t ht with ht | rfl
    · exact h.there t ht
    · exact hfile
  · show TableVersion.Flat _ s.engine.flushCounter _
    rw [hcounter]
    exact hflat.installFlushed hne _

/-- It saves the metadata. -/
theorem flushSave (h : StoreInv dataDir K old s) (hinstalled : s.flusher = .installed)
    (hC : s.Careful .flushSave) : StoreInv dataDir K old { s with
      engine := s.engine.clearCache
      dir := s.dir.saveMetadata s.engine
      flusher := .saved } := by
  have hflat := h.flusher
  rw [hinstalled] at hflat
  obtain ⟨n, q, v, hsaved, hn, hsub, hold⟩ := h.saved
  obtain ⟨hwords, hbelow⟩ := hC
  refine ⟨h.dataDir_eq, h.active, h.immutable, h.copy, h.tables, h.there, hflat,
    s.engine.flushCounter, s.engine.seqNumber, s.engine.version, ⟨⟨hflat, Or.inr ⟨rfl, rfl⟩, h.there, ?_⟩, ?_⟩,
    Nat.le_refl _, List.Subset.refl _, fun t ht => hsub (hold ht)⟩
  · intro m hm
    exact hwords m (mem_metas_of_level hm)
  · exact fun t ht k e he => hbelow t ht (k, e) (SortedMap.find?_eq_some.mp he)

/-- **One step** keeps every record where it can be found. -/
theorem step [DecidableEq κ] (h : StoreInv dataDir K old s) {op : LifetimeOp κ} (hC : s.Careful op)
    (hs : s.step op = some s') : StoreInv dataDir K old s' := by
  have heff := Lifetime.step_effect hs
  cases op with
  | popBatch batch =>
      obtain ⟨-, -, rfl⟩ := heff
      exact h.congr rfl rfl rfl rfl rfl
  | update =>
      obtain ⟨request, batch, -, rfl⟩ := heff
      exact h.update request _
  | append =>
      obtain ⟨_, _, log, -, -, rfl⟩ := heff
      exact h.congr rfl rfl rfl rfl rfl
  | advance =>
      obtain ⟨request, batch, -, rfl⟩ := heff
      exact ⟨h.dataDir_eq, h.active, h.immutable, h.copy, h.tables, h.there, h.flusher, h.saved⟩
  | flushLog =>
      obtain ⟨log, -, -, rfl⟩ := heff
      exact h.congr rfl rfl rfl rfl rfl
  | checkFlush =>
      obtain ⟨before, -, -, rfl | ⟨log, -, rfl⟩⟩ := heff
      · exact h.congr rfl rfl rfl rfl rfl
      · exact h.congr rfl rfl rfl rfl rfl
  | complete =>
      obtain ⟨-, rfl⟩ := heff
      exact h.congr rfl rfl rfl rfl rfl
  | flush t =>
      obtain ⟨log, -, rfl⟩ := heff
      exact h.congr rfl rfl rfl rfl rfl
  | rotateCopy t =>
      obtain ⟨-, rfl⟩ := heff
      have hcopy : (MemTable.copyOf s.engine.memtable.snapshot).Within (Known K s.written) := by
        rw [MemTable.copyOf_snapshot]
        exact h.active
      exact ⟨h.dataDir_eq, h.active, h.immutable, hcopy, h.tables, h.there, h.flusher, h.saved⟩
  | rotateClear t =>
      obtain ⟨-, imm, hrot, rfl⟩ := heff
      have hcopy := h.copy
      rw [hrot] at hcopy
      refine ⟨h.dataDir_eq, ?_, h.immutable, hcopy, h.tables, h.there, h.flusher, h.saved⟩
      intro k e he
      exact absurd he (by simp)
  | rotatePublish t =>
      obtain ⟨-, imm, hrot, rfl⟩ := heff
      have hcopy := h.copy
      rw [hrot] at hcopy
      refine ⟨h.dataDir_eq, h.active, ?_, trivial, h.tables, h.there, h.flusher, h.saved⟩
      intro m hm
      rw [← Option.some.inj hm]
      exact hcopy
  | unlink t =>
      obtain ⟨-, rfl⟩ := heff
      exact h.congr rfl rfl rfl rfl rfl
  | flushWrite =>
      obtain ⟨hidle, imm, himm, ⟨-, rfl⟩ | ⟨hne, rfl⟩⟩ := heff
      · -- an empty memtable leaves no table
        have hflat := h.flusher
        rw [hidle] at hflat
        exact ⟨h.dataDir_eq, h.active, h.immutable, h.copy, h.tables, h.there, hflat, h.saved⟩
      · exact h.flushWrite hidle himm hne
  | flushInstall =>
      obtain ⟨sst, hwritten, rfl⟩ := heff
      exact h.flushInstall hwritten
  | flushSave =>
      obtain ⟨hinstalled, rfl⟩ := heff
      exact h.flushSave hinstalled hC
  | flushReset =>
      obtain ⟨hsaved, rfl⟩ := heff
      have hflat := h.flusher
      rw [hsaved] at hflat
      refine ⟨h.dataDir_eq, h.active, ?_, h.copy, h.tables, h.there, hflat, h.saved⟩
      intro m hm
      exact absurd hm (by simp [StorageEngine.resetImmutable])
  | log op =>
      obtain ⟨-, -, log, -, rfl⟩ := heff
      exact h.congr rfl rfl rfl rfl rfl

end StoreInv

end Steps

/-! ## E. One life

From one constructor to the stop after it. -/

/-- A directory a store can be opened on: what `SavedAs` says, and a log in order that agrees with the tables. -/
structure Kept (dataDir : Bytes) (d : DataDir) (n q : Nat) (v : TableVersion) : Prop extends
    SavedAs dataDir d n q v where
  ascending : Ascending d.log
  unique : ∀ key e e', OnDisk d.log v key e → OnDisk d.log v key e' → e.seq = e'.seq → e = e'

/-- The empty directory is one that lives leave behind. -/
theorem kept_empty (dataDir : Bytes) : Kept dataDir DataDir.empty 0 1 initial := by
  have hnone : ∀ key e, ¬ OnDisk DataDir.empty.log initial key e := by
    rintro key e (⟨r, hr, -⟩ | ⟨t, ht, -⟩)
    · exact absurd hr List.not_mem_nil
    · exact absurd ht List.not_mem_nil
  refine ⟨⟨⟨flat_initial dataDir 0, Or.inl ⟨rfl, rfl, rfl, rfl, rfl⟩, ?_, ?_⟩,
    ?_⟩, List.Pairwise.nil, fun key e _ he => absurd he (hnone key e)⟩
  · intro t ht
    exact absurd ht List.not_mem_nil
  · intro m hm
    rw [level_initial] at hm
    exact absurd hm List.not_mem_nil
  · intro t ht
    exact absurd ht List.not_mem_nil

section Life

variable {κ : Type} [DecidableEq κ] {dataDir : Bytes} {d : DataDir} {n q cacheSize : Nat}
  {v : TableVersion} {s t : Lifetime κ} {ops : List (LifetimeOp κ)}

/-- What holds in every state of a life that began in `s` on the directory `d`. -/
structure LifeInv (dataDir : Bytes) (d : DataDir) (v : TableVersion) (s t : Lifetime κ) : Prop where
  log : t.LogInv d.log s.engine.seqNumber
  store : StoreInv dataDir (OnDisk d.log v) v.sstables t

omit [DecidableEq κ] in
/-- The start of a life. -/
theorem boot_eq_some (h : Kept dataDir d n q v) (hs : Lifetime.boot κ d dataDir cacheSize = some s) :
    Restarted dataDir d.log n q v s.engine ∧ LifeInv dataDir d v s s := by
  obtain ⟨e, hconstruct, hrestarted⟩ := restarted_of_saved h.toSaved cacheSize
  unfold Lifetime.boot at hs
  rw [hconstruct] at hs
  obtain rfl := Option.some.inj hs
  refine ⟨hrestarted, ⟨⟨WriteAheadLog.inv_new _ _, Nat.le_refl _, ?_, fun i r hr => absurd hr (by simp),
    ⟨rfl, rfl⟩, fun hne => absurd rfl hne⟩,
    ⟨hrestarted.dataDir_eq, fun k e he => ?_, fun imm himm => ?_, trivial, fun t ht k e he => ?_,
      fun t ht => ?_, ?_, n, q, v, h.toSavedAs, hrestarted.flushCounter.ge, ?_, List.Subset.refl _⟩⟩⟩
  · show d.log ++ _ <+: d.log
    simp [WriteAheadLog.new]
  · rw [hrestarted.memtable] at he
    have hpicks := replay_picks h.ascending k
    rw [he] at hpicks
    exact Or.inl (Or.inl hpicks.1)
  · rw [hrestarted.immutable] at himm
    exact absurd himm (by simp)
  · rw [hrestarted.sstables] at ht
    exact Or.inl (Or.inr ⟨t, ht, he⟩)
  · rw [hrestarted.sstables] at ht
    exact h.there t ht
  · show TableVersion.Flat _ _ _
    rw [hrestarted.flushCounter]
    exact hrestarted.flat
  · rw [hrestarted.sstables]
    exact List.Subset.refl _

/-- Every run keeps it. -/
theorem LifeInv.exec {t' : Lifetime κ} (h : LifeInv dataDir d v s t)
    (hC : Meets Lifetime.step Lifetime.Careful t ops) (hrun : exec Lifetime.step t ops = some t') :
    LifeInv dataDir d v s t' := by
  refine exec_invariant_of_meets (I := LifeInv dataDir d v s) h (?_) hC hrun
  intro t op t' hinv hC hs
  exact ⟨hinv.log.step (fun hop => by subst hop; exact hC) hs, hinv.store.step hC hs⟩

omit [DecidableEq κ] in
/-- The records from before are older than the writes. -/
theorem Kept.lt_seqNumber (h : Kept dataDir d n q v) (hs : Restarted dataDir d.log n q v s.engine)
    {key : Bytes} {e : Entry} (he : OnDisk d.log v key e) : e.seq < s.engine.seqNumber := by
  rcases he with ⟨r, hr, -, rfl⟩ | ⟨t, ht, he⟩
  · rw [seq_entry]
    exact hs.above_log r hr
  · exact (h.below t ht key e he).trans_le hs.above_saved

omit [DecidableEq κ] in
/-- A sequence number is used for one record of a key. -/
theorem LifeInv.known_unique (h : LifeInv dataDir d v s t) (hd : Kept dataDir d n q v)
    (hs : Restarted dataDir d.log n q v s.engine) {key : Bytes} {e e' : Entry}
    (he : Known (OnDisk d.log v) t.written key e) (he' : Known (OnDisk d.log v) t.written key e')
    (hseq : e.seq = e'.seq) : e = e' := by
  -- the writes of this life come after everything from before
  have hlater : ∀ {x}, InLog t.written key x → s.engine.seqNumber ≤ x.seq := by
    rintro x ⟨r, hr, -, rfl⟩
    obtain ⟨i, hi⟩ := List.mem_iff_getElem?.mp hr
    rw [seq_entry, h.log.seqs i r hi]
    omega
  rcases he with he | he <;> rcases he' with he' | he'
  · exact hd.unique key e e' he he' hseq
  · have := hd.lt_seqNumber hs he
    have := hlater he'
    omega
  · have := hd.lt_seqNumber hs he'
    have := hlater he
    omega
  · exact (ascending_of_seqs h.log.seqs).unique he he' hseq

omit [DecidableEq κ] in
/-- **What a stop leaves** can be opened again: no record is there that the life does not know of, and no table
    from before is missing. -/
theorem LifeInv.kept_disk (h : LifeInv dataDir d v s t) (hd : Kept dataDir d n q v)
    (hs : Restarted dataDir d.log n q v s.engine) : ∃ n' q' v', Kept dataDir t.disk n' q' v' ∧
      (∀ key e, OnDisk t.disk.log v' key e → Known (OnDisk d.log v) t.written key e) ∧
      v.sstables ⊆ v'.sstables := by
  obtain ⟨n', q', v', hsaved, -, hsub, hold⟩ := h.store.saved
  have hsublist : t.disk.log.Sublist (d.log ++ t.written) := by
    unfold Lifetime.disk
    dsimp only
    split_ifs
    · exact h.log.file_prefix.sublist
    · exact List.nil_sublist _
  have hknown : ∀ key e, OnDisk t.disk.log v' key e → Known (OnDisk d.log v) t.written key e := by
    rintro key e (⟨r, hr, hk, he⟩ | ⟨sst, hsst, he⟩)
    · rcases List.mem_append.mp (hsublist.subset hr) with hr | hr
      · exact Or.inl (Or.inl ⟨r, hr, hk, he⟩)
      · exact Or.inr ⟨r, hr, hk, he⟩
    · exact h.store.tables sst (hsub hsst) key e he
  -- the old log and then the new writes ascend, and the file is part of that
  have hall : Ascending (d.log ++ t.written) := by
    refine List.pairwise_append.mpr ⟨hd.ascending, ascending_of_seqs h.log.seqs, ?_⟩
    intro a ha b hb
    obtain ⟨i, hi⟩ := List.mem_iff_getElem?.mp hb
    have := hs.above_log a ha
    have := h.log.seqs i b hi
    omega
  refine ⟨n', q', v', ⟨⟨⟨hsaved.flat, hsaved.text, hsaved.there, hsaved.words⟩, hsaved.below⟩,
    hall.sublist hsublist, fun key e e' he he' => ?_⟩, hknown, hold⟩
  exact h.known_unique hd hs (hknown key e he) (hknown key e' he')

end Life

/-! ## F. The saved records

What a table file named by `levels.txt` holds, and what the next constructor will read, are the same. -/

section SavedRecord

variable {dataDir : Bytes} {d : DataDir} {n q : Nat} {v : TableVersion} {key : Bytes} {e : Entry}

/-- The records of the tables that `levels.txt` names are those of the saved version. -/
theorem Saved.savedRecord_iff (h : Saved dataDir d n q v) :
    Lifetime.SavedRecord dataDir d key e ↔ ∃ t ∈ v.sstables, t.records.find? key = some e := by
  have hflat : v.levels.flatten = v.level 0 := h.flat.metas_eq
  constructor
  · rintro ⟨text, m, sst, htext, hline, hfile, he⟩
    rcases h.text with ⟨-, hnone, -⟩ | ⟨-, hlevels⟩
    · rw [hnone] at htext
      exact absurd htext (by simp)
    · rw [hlevels] at htext
      rw [← Option.some.inj htext, getLines_printLevels (by rw [hflat]; exact h.words)] at hline
      obtain ⟨m', hm', hprint⟩ := List.mem_map.mp hline
      -- the line says the id whatever else it says
      have hid : m'.id = m.id := by
        obtain ⟨rest, hread⟩ := readNat_printMeta m
        obtain ⟨rest', hread'⟩ := readNat_printMeta m'
        rw [hprint, hread] at hread'
        exact (congrArg Prod.fst (Option.some.inj hread')).symm
      obtain ⟨t, ht, hp⟩ := h.flat.exists_table (m := m') hm'
      have hthere := h.there t ht
      rw [hp, hid, hfile] at hthere
      exact ⟨t, ht, Option.some.inj hthere ▸ he⟩
  · rintro ⟨t, ht, he⟩
    obtain ⟨m, hm, hp⟩ := h.flat.exists_id ht
    rcases h.text with ⟨-, -, rfl, -⟩ | ⟨-, hlevels⟩
    · exact absurd ht List.not_mem_nil
    · refine ⟨_, m, t, hlevels, ?_, hp ▸ h.there t ht, he⟩
      rw [getLines_printLevels (by rw [hflat]; exact h.words)]
      exact List.mem_map_of_mem hm

end SavedRecord

/-! ## G. Any number of lives

A directory is what earlier lives have left, so the results about one life hold of every one. -/

namespace Lifetime

/-- The directories that stores leave behind, from an empty one on. -/
inductive Reachable (κ : Type) [DecidableEq κ] (dataDir : Bytes) : DataDir → Prop
  | empty : Reachable κ dataDir DataDir.empty
  | stop {d : DataDir} {cacheSize : Nat} {s t : Lifetime κ} {ops : List (LifetimeOp κ)} :
      Reachable κ dataDir d → boot κ d dataDir cacheSize = some s → Meets step Careful s ops →
      exec step s ops = some t → Reachable κ dataDir t.disk

variable {κ : Type} [DecidableEq κ] {dataDir : Bytes} {d : DataDir} {n q cacheSize : Nat}
  {v : TableVersion} {s t : Lifetime κ} {ops : List (LifetimeOp κ)}

/-- A store can be opened on each of them. -/
theorem Reachable.kept (h : Reachable κ dataDir d) : ∃ n q v, Kept dataDir d n q v := by
  induction h with
  | empty => exact ⟨0, 1, initial, kept_empty dataDir⟩
  | stop _ hs hC hrun ih =>
      obtain ⟨n, q, v, hkept⟩ := ih
      obtain ⟨hrestarted, hinv⟩ := boot_eq_some hkept hs
      obtain ⟨n', q', v', hkept', -⟩ := (hinv.exec hC hrun).kept_disk hkept hrestarted
      exact ⟨n', q', v', hkept'⟩

/-- **A stop in the wrong moment** loses a write: the log is unlinked, nothing is in flight, and the saved tables
    have nothing as new as an acknowledged put. -/
theorem not_restored_of_lost (hdir : ExactIds dataDir) (hd : Reachable κ dataDir d)
    (hs : boot κ d dataDir cacheSize = some s) (hC : Meets step Careful s ops)
    (hrun : exec step s ops = some t) (hunlinked : t.linked = false) (hrest : t.acked = t.written.length)
    {key : Bytes} {r : Entry} (hr : contents (s.engine.lookup key) t.written t.acked key = some r)
    (hput : r.type = .put) (hlost : ∀ e, SavedRecord dataDir t.dir key e → e.seq < r.seq) :
    ¬ Restored dataDir s t := by
  obtain ⟨n, q, v, hkept⟩ := hd.kept
  obtain ⟨hrestarted, hboot⟩ := boot_eq_some hkept hs
  obtain ⟨n', q', v', hkept', -⟩ := (hboot.exec hC hrun).kept_disk hkept hrestarted
  intro hrestored
  obtain ⟨e, hconstruct, hget⟩ := hrestored 0
  obtain ⟨e', hconstruct', he⟩ := restarted_of_saved hkept'.toSaved 0
  obtain rfl : e = e' := Option.some.inj (hconstruct.symm.trans hconstruct')
  obtain ⟨m, hm, hget⟩ := hget key
  -- with nothing in flight the contents can only be what was acknowledged
  have hcontents : contents (s.engine.lookup key) t.written m key = some r := by
    unfold contents at hr ⊢
    rw [List.take_of_length_le (by omega)] at hr ⊢
    exact hr
  rw [hcontents, answer_put hput, he.get_eq, answer_eq_some] at hget
  have hfound := he.lookup_picks hdir hkept'.ascending key
  rw [hget.1] at hfound
  rcases hfound.1 with ⟨x, hx, -⟩ | htable
  · have hlog : t.disk.log = [] := if_neg (by rw [hunlinked]; decide)
    rw [hlog] at hx
    exact absurd hx List.not_mem_nil
  · exact absurd (hlost r (hkept'.toSaved.savedRecord_iff.mpr htable)) (Nat.lt_irrefl _)

/-! ## H. A run that loses a write, and one that does not -/

end Lifetime

end KvStorageEngine
