import KvStorageEngine.Engine.Correctness.CompactionCorrect
import KvStorageEngine.Lib.Run

/-!
# `Engine.Correctness.EngineInvariant` — what holds in every reachable state of the engine

The store is a stack of layers: the memtable, the immutable memtable, and the levels of the version
(`StorageEngine.Holds`). `Ordered` collects what a read relies on: a well-formed version and layers ordered
by age. `Inv` adds that every record is older than the next sequence number, that the deeper levels hold no
tombstones, and that the cache tells the truth.

Layout of the file:
* **A** — the layers, and what a read finds in an ordered store.
* **B** — `Inv` through every step: writes, reads, the two hand-overs, a compaction.
* **C** — `inv_of_exec`: `Inv` in every reachable state.
* **D**, **E** — what follows at once: `get_eq_fullScan` and `levelStructure_of_exec`.
-/

namespace KvStorageEngine

open Layered Run

variable [Platform]

/-! ## A. The layers of the store

The active memtable, the immutable one, and the levels of the version are layers, the newer ones in front. `Ordered`
says that of two records of a key the one in the layer in front has the larger number, so that the first record a
search meets is the newest. -/

namespace StorageEngine

/-- The store layer by layer: memtable, immutable memtable, then the levels. -/
def Holds (s : StorageEngine) : Layers Bytes Entry
  | 0, k, e => s.memtable.get k = some e
  | 1, k, e => s.immutableMemtable.bind (·.get k) = some e
  | l + 2, k, e => s.version.Holds l k e

/-- Some layer has the record `e` of `k`. -/
def HasRecord (s : StorageEngine) (k : Bytes) (e : Entry) : Prop := ∃ i, s.Holds i k e

/-- A record is in one of the memtables or on some level. -/
theorem hasRecord_iff {s : StorageEngine} {k : Bytes} {e : Entry} :
    s.HasRecord k e ↔ s.memtable.get k = some e ∨ s.immutableMemtable.bind (·.get k) = some e ∨
      ∃ l, s.version.Holds l k e := by
  constructor
  · rintro ⟨i, h⟩
    match i, h with
    | 0, h => exact Or.inl h
    | 1, h => exact Or.inr (Or.inl h)
    | l + 2, h => exact Or.inr (Or.inr ⟨l, h⟩)
  · rintro (h | h | ⟨l, h⟩)
    · exact ⟨0, h⟩
    · exact ⟨1, h⟩
    · exact ⟨l + 2, h⟩

/-- What a read relies on. -/
structure Ordered (s : StorageEngine) : Prop where
  wf : s.version.Wf s.dataDir s.flushCounter
  aged : Aged Entry.seq s.Holds

/-- What every reachable state satisfies. -/
structure Inv (s : StorageEngine) : Prop extends Ordered s where
  fresh : ∀ k e, s.HasRecord k e → e.seq < s.seqNumber
  deepPuts : ∀ l k e, 0 < l → s.version.Holds l k e → e.type = .put
  coherent : ∀ c, s.cache = some c → ∀ k e, c.cache.find? k = some e →
    s.lookup k = some e ∧ e.type = .put

section Read

variable {s s' : StorageEngine} {k : Bytes} {e : Entry}

theorem Ordered.version_aged (h : Ordered s) : Aged Entry.seq s.version.Holds := by
  refine ⟨?_, fun i k e e' hi hj => h.aged.unique (i + 2) k e e' hi hj⟩
  intro i j k e e' hij hi hj
  exact h.aged.newer (i + 2) (j + 2) k e e' (by omega) hi hj

/-- **What a read finds**: the newest of all records of the key. -/
theorem Ordered.lookup_picks (h : Ordered s) (hdir : ExactIds s.dataDir) (k : Bytes) :
    Picks Entry.seq (fun e => s.HasRecord k e) (s.lookup k) := by
  have hoption : ∀ c : Option Entry, Picks Entry.seq (fun e => c = some e) c := by
    intro c
    cases c with
    | none => simp [Picks]
    | some e => exact ⟨rfl, fun e' he' => (Option.some.inj he' ▸ Nat.le_refl _)⟩
  have hmem := considerRecord_picks (hoption (s.memtable.get k))
    (hoption (s.immutableMemtable.bind (·.get k)))
  refine (searchVersion_picks h.wf hdir (?_) ?_ hmem).congr ?_
  · intro i j e e' hij hi hj
    exact h.version_aged.newer i j k e e' hij hi hj
  · rintro e e' j (he | he) he'
    · exact (h.aged.newer 0 (j + 2) k e e' (by omega) he he').le
    · exact (h.aged.newer 1 (j + 2) k e e' (by omega) he he').le
  · intro e
    rw [hasRecord_iff, or_assoc]

/-- A lookup finds the newest record of the key, -/
theorem Ordered.lookup_eq_some (h : Ordered s) (hdir : ExactIds s.dataDir) :
    s.lookup k = some e ↔ Newest Entry.seq s.Holds k e :=
  picks_iff_newest h.aged (h.lookup_picks hdir k)

/-- and nothing only where there is none. -/
theorem Ordered.lookup_eq_none (h : Ordered s) (hdir : ExactIds s.dataDir) :
    s.lookup k = none ↔ ∀ e, ¬ s.HasRecord k e := by
  have hp := h.lookup_picks hdir k
  cases hl : s.lookup k with
  | none =>
      rw [hl] at hp
      exact ⟨fun _ => hp, fun _ => rfl⟩
  | some e =>
      rw [hl] at hp
      exact ⟨fun h => absurd h (by simp), fun h => absurd hp.1 (h e)⟩

/-- Two ordered stores with the same records of a key read it alike. -/
theorem Ordered.lookup_congr (h : Ordered s) (h' : Ordered s') (hdir : ExactIds s.dataDir)
    (hdir' : ExactIds s'.dataDir) (hk : ∀ e, s.HasRecord k e ↔ s'.HasRecord k e) :
    s.lookup k = s'.lookup k := by
  apply Option.ext
  intro e
  rw [h.lookup_eq_some hdir, h'.lookup_eq_some hdir']
  unfold Newest
  refine and_congr (hk e) ⟨?_, ?_⟩
  · intro hmax i e' he'
    obtain ⟨j, hj⟩ := (hk e').mpr ⟨i, he'⟩
    exact hmax j e' hj
  · intro hmax i e' he'
    obtain ⟨j, hj⟩ := (hk e').mp ⟨i, he'⟩
    exact hmax j e' hj

theorem get_uncached (hc : s.cache = none) : s.get k = (answer (s.lookup k), s) := by
  unfold get
  rw [hc]

theorem get_hit {c c' : LRUCache} (hc : s.cache = some c) (hg : c.get k = (some e, c')) :
    s.get k = (some e, { s with cache := some c' }) := by
  unfold get
  simp only [hc, hg]

/-- A miss fills the cache with what it answers. -/
theorem get_miss {c c' : LRUCache} (hc : s.cache = some c) (hg : c.get k = (none, c')) :
    s.get k = (answer (s.lookup k), { s with
      cache := some (match answer (s.lookup k) with
        | none => c'
        | some out => c'.put k out) }) := by
  unfold get
  simp only [hc, hg]
  cases answer (s.lookup k) <;> rfl

/-- A cached answer is the answer the search would give. -/
theorem Inv.get_eq (h : Inv s) (k : Bytes) : (s.get k).1 = answer (s.lookup k) := by
  cases hc : s.cache with
  | none => rw [get_uncached hc]
  | some c =>
      have hfst := c.fst_get k
      rcases hg : c.get k with ⟨_ | e, c'⟩
      · rw [get_miss hc hg]
      · rw [get_hit hc hg]
        rw [hg] at hfst
        obtain ⟨hl, hput⟩ := h.coherent c hc k e hfst.symm
        rw [hl, answer_put hput]

end Read

/-! ## B. The invariant through every step

One lemma for each thing a step does to the layers: a write puts a record in front, a rotation and a flush move a
whole layer back by one, a compaction moves records down. -/

section Write

variable {s : StorageEngine} {key : Bytes} {m' : MemTable} {e : Entry}

/-- The writer's effect on memory: a new record in the memtable under the next sequence number. -/
def stored (s : StorageEngine) (key : Bytes) (m' : MemTable) : StorageEngine :=
  { s with memtable := m', seqNumber := s.seqNumber + 1 }.invalidate key

/-- The layers after a write: the new record is in front of everything else. -/
theorem holds_stored (hm : ∀ k, m'.get k = if k = key then some e else s.memtable.get k) (i : Nat)
    (k : Bytes) (e' : Entry) : (s.stored key m').Holds i k e' ↔
      (i = 0 ∧ k = key ∧ e' = e) ∨ (s.Holds i k e' ∧ ¬ (i = 0 ∧ k = key)) := by
  match i with
  | 0 =>
      show m'.get k = some e' ↔ _
      rw [hm]
      split_ifs with hk
      · simp [hk, eq_comm]
      · simp [hk, Holds]
  | 1 => simp [Holds, stored, invalidate]
  | l + 2 => simp [Holds, stored, invalidate]

/-- A write leaves every other key's lookup as it was. -/
theorem lookup_stored_ne (hm : ∀ k, m'.get k = if k = key then some e else s.memtable.get k)
    {k : Bytes} (hk : k ≠ key) : (s.stored key m').lookup k = s.lookup k := by
  show searchVersion s.version k (considerRecord (m'.get k) _) = _
  rw [hm, if_neg hk]
  rfl

/-- A write with the next sequence number keeps the invariant. -/
theorem Inv.stored (h : Inv s) (hm : ∀ k, m'.get k = if k = key then some e else s.memtable.get k)
    (he : e.seq = s.seqNumber) : Inv (s.stored key m') := by
  have hnew : ∀ i e', s.Holds i key e' → e'.seq < e.seq := fun i e' hi => he ▸ h.fresh key e' ⟨i, hi⟩
  refine ⟨⟨h.wf, h.aged.of_write hnew fun i k e' => (holds_stored hm i k e').mp⟩, ?_, h.deepPuts, ?_⟩
  · rintro k e' ⟨i, hi⟩
    show e'.seq < s.seqNumber + 1
    rcases (holds_stored hm i k e').mp hi with ⟨-, -, rfl⟩ | ⟨hi, -⟩
    · omega
    · have := h.fresh k e' ⟨i, hi⟩
      omega
  · intro c hc k e' hf
    obtain ⟨c', hc', rfl⟩ := Option.map_eq_some_iff.mp hc
    obtain ⟨hk, hf⟩ := LRUCache.find?_invalidate hf
    rw [lookup_stored_ne hm hk]
    exact h.coherent c' hc' k e' hf

/-- The key just written reads as the new record. -/
theorem Inv.lookup_stored_self (h : Inv s) (hdir : ExactIds s.dataDir)
    (hm : ∀ k, m'.get k = if k = key then some e else s.memtable.get k) (he : e.seq = s.seqNumber) :
    (s.stored key m').lookup key = some e := by
  rw [(h.stored hm he).toOrdered.lookup_eq_some hdir]
  refine newest_of_first (h.stored hm he).aged (i := 0) (fun j hj => absurd hj (by omega)) ?_ ?_
  · exact (holds_stored hm 0 key e).mpr (Or.inl ⟨rfl, rfl, rfl⟩)
  · intro e' he'
    rcases (holds_stored hm 0 key e').mp he' with ⟨-, -, rfl⟩ | ⟨-, hn⟩
    · exact Nat.le_refl _
    · exact absurd ⟨rfl, rfl⟩ hn

end Write

section Get

variable {s : StorageEngine}

/-- A read changes nothing but the cache. -/
theorem get_snd (s : StorageEngine) (key : Bytes) :
    ∃ cache, (s.get key).2 = { s with cache } ∧
      ∀ c, cache = some c → ∃ c₀, s.cache = some c₀ ∧ ∀ k e, c.cache.find? k = some e →
        c₀.cache.find? k = some e ∨ (k = key ∧ answer (s.lookup key) = some e) := by
  cases hc : s.cache with
  | none => exact ⟨none, by rw [get_uncached hc, ← hc], fun c h => absurd h (by simp)⟩
  | some c₀ =>
      have hcache : (c₀.get key).2.cache = c₀.cache := c₀.cache_get key
      rcases hg : c₀.get key with ⟨_ | e, c'⟩ <;> rw [hg] at hcache
      · rw [get_miss hc hg]
        refine ⟨_, rfl, fun c h => ⟨c₀, rfl, ?_⟩⟩
        intro k e he
        rw [← Option.some.inj h] at he
        cases hl : answer (s.lookup key) with
        | none =>
            rw [hl] at he
            exact Or.inl (hcache ▸ he)
        | some out =>
            rw [hl] at he
            rcases LRUCache.find?_put he with ⟨rfl, rfl⟩ | ⟨-, he⟩
            · exact Or.inr ⟨rfl, rfl⟩
            · exact Or.inl (hcache ▸ he)
      · rw [get_hit hc hg]
        refine ⟨some c', rfl, fun c h => ⟨c₀, rfl, fun k e he => Or.inl ?_⟩⟩
        rwa [← Option.some.inj h, hcache] at he

/-- A read keeps the invariant, also where it fills the cache. -/
theorem Inv.get (h : Inv s) (key : Bytes) : Inv (s.get key).2 := by
  obtain ⟨cache, hs, hcache⟩ := get_snd s key
  rw [hs]
  refine ⟨⟨h.wf, h.aged⟩, h.fresh, h.deepPuts, ?_⟩
  intro c hc k e he
  show s.lookup k = some e ∧ _
  obtain ⟨c₀, hc₀, hfind⟩ := hcache c hc
  rcases hfind k e he with he | ⟨rfl, he⟩
  · exact h.coherent c₀ hc₀ k e he
  · exact answer_eq_some.mp he

theorem get_snd_lookup (s : StorageEngine) (key k : Bytes) : (s.get key).2.lookup k = s.lookup k := by
  obtain ⟨cache, hs, -⟩ := get_snd s key
  rw [hs]
  rfl

theorem get_snd_version (s : StorageEngine) (key : Bytes) : (s.get key).2.version = s.version := by
  obtain ⟨cache, hs, -⟩ := get_snd s key
  rw [hs]

theorem get_snd_dataDir (s : StorageEngine) (key : Bytes) : (s.get key).2.dataDir = s.dataDir := by
  obtain ⟨cache, hs, -⟩ := get_snd s key
  rw [hs]

end Get

section HandOver

variable {s s' : StorageEngine}

theorem rotate_eq_some (h : s.rotate = some s') :
    s.immutableMemtable = none ∧
      s' = { s with immutableMemtable := some s.memtable, memtable := MemTable.empty } := by
  unfold rotate at h
  cases hi : s.immutableMemtable with
  | some imm => rw [hi] at h; exact absurd h (by simp)
  | none =>
      rw [hi] at h
      refine ⟨rfl, (Option.some.inj h).symm.trans ?_⟩
      rw [MemTable.copyOf_snapshot]
      rfl

/-- The rotation moves the memtable's records to the immutable memtable. -/
theorem Inv.rotate (h : Inv s) (hs : s.rotate = some s') :
    Inv s' ∧ ∀ k, s'.lookup k = s.lookup k := by
  obtain ⟨himm, rfl⟩ := rotate_eq_some hs
  have hlookup : ∀ k, StorageEngine.lookup
      { s with immutableMemtable := some s.memtable, memtable := MemTable.empty } k = s.lookup k := by
    intro k
    show searchVersion s.version k (considerRecord none (s.memtable.get k))
      = searchVersion s.version k (considerRecord (s.memtable.get k) (s.immutableMemtable.bind _))
    rw [himm]
    cases s.memtable.get k <;> rfl
  -- layer 1 is now what layer 0 was, and layer 0 is empty
  have hfrom : ∀ i k e, StorageEngine.Holds
      { s with immutableMemtable := some s.memtable, memtable := MemTable.empty } i k e →
      (i = 1 ∧ s.Holds 0 k e) ∨ (2 ≤ i ∧ s.Holds i k e) := by
    intro i k e hi
    match i, hi with
    | 0, hi => exact absurd hi (by simp [Holds])
    | 1, hi => exact Or.inl ⟨rfl, hi⟩
    | l + 2, hi => exact Or.inr ⟨by omega, hi⟩
  refine ⟨⟨⟨h.wf, h.aged.of_moves ?_ ?_⟩, ?_, h.deepPuts, ?_⟩, hlookup⟩
  · intro i k e hi
    rcases hfrom i k e hi with ⟨-, hi⟩ | ⟨-, hi⟩
    · exact ⟨0, hi⟩
    · exact ⟨i, hi⟩
  · intro i j k e e' hij hi hj
    rcases hfrom i k e hi with ⟨rfl, hi⟩ | ⟨hi2, hi⟩ <;>
      rcases hfrom j k e' hj with ⟨rfl, hj⟩ | ⟨hj2, hj⟩
    · exact absurd hij (by omega)
    · exact ⟨0, j, by omega, hi, hj⟩
    · exact absurd hij (by omega)
    · exact ⟨i, j, hij, hi, hj⟩
  · rintro k e ⟨i, hi⟩
    rcases hfrom i k e hi with ⟨-, hi⟩ | ⟨-, hi⟩ <;> exact h.fresh k e ⟨_, hi⟩
  · intro c hc k e he
    rw [hlookup]
    exact h.coherent c hc k e he

/-- The version after the flush thread's installation of a non-empty memtable. -/
def flushed (s : StorageEngine) (imm : MemTable) : TableVersion :=
  let sst := SSTable.flush imm.snapshot (sstableDir s.dataDir) (s.flushCounter + 1)
  installFlushed s.version.copyFrom sst (sst.meta (s.flushCounter + 1) (s.seqNumber - 1) 0)

/-- What the flush thread installs: nothing for an empty memtable, otherwise a version with its table. -/
theorem flushInstall_eq_some (h : s.flushInstall = some s') :
    ∃ imm, s.immutableMemtable = some imm ∧
      ((imm.snapshot.isEmpty = true ∧ s' = { s with immutableMemtable := none }) ∨
        (imm.snapshot.isEmpty = false ∧ s' = { s with
          flushCounter := s.flushCounter + 1
          version := s.flushed imm
          immutableMemtable := none }.clearCache)) := by
  unfold flushInstall at h
  cases hi : s.immutableMemtable with
  | none => rw [hi] at h; exact absurd h (by simp)
  | some imm =>
      rw [hi] at h
      have hs' : (s.flushTable imm).resetImmutable = s' := Option.some.inj h
      unfold flushTable at hs'
      refine ⟨imm, rfl, ?_⟩
      split_ifs at hs' with hemp
      · exact Or.inl ⟨hemp, hs'.symm⟩
      · exact Or.inr ⟨by simpa using hemp, hs'.symm⟩

/-- The version with the flushed table is well-formed. -/
theorem flushed_wf (h : s.version.Wf s.dataDir s.flushCounter) {imm : MemTable}
    (hne : imm.snapshot.isEmpty = false) : (s.flushed imm).Wf s.dataDir (s.flushCounter + 1) := by
  have hle := SSTable.minKey_le_maxKey_flush hne (sstableDir s.dataDir) (s.flushCounter + 1)
  exact (Wf_copyFrom h).installFlushed rfl rfl rfl ⟨rfl, rfl⟩ hle

/-- The flushed version has the memtable's records on level 0, and otherwise what it had. -/
theorem holds_flushed (h : s.version.Wf s.dataDir s.flushCounter) (hdir : ExactIds s.dataDir)
    (imm : MemTable) (l : Nat) (k : Bytes) (e : Entry) :
    (s.flushed imm).Holds l k e ↔ (l = 0 ∧ imm.get k = some e) ∨ s.version.Holds l k e :=
  (Wf_copyFrom h).toJoined.holds_add hdir rfl rfl

/-- The flush thread moves the immutable memtable's records to level 0. -/
theorem Inv.flushInstall (h : Inv s) (hdir : ExactIds s.dataDir) (hs : s.flushInstall = some s') :
    Inv s' ∧ ∀ k, s'.lookup k = s.lookup k := by
  obtain ⟨imm, himm, ⟨hemp, rfl⟩ | ⟨hne, rfl⟩⟩ := flushInstall_eq_some hs
  · -- an empty memtable is dropped
    have hno : ∀ k, imm.get k = none := SortedMap.isEmpty_iff.mp hemp
    have hlookup : ∀ k, StorageEngine.lookup { s with immutableMemtable := none } k = s.lookup k := by
      intro k
      unfold StorageEngine.lookup
      rw [himm, Option.bind_none, Option.bind_some, hno]
    have hfrom : ∀ i k e, StorageEngine.Holds { s with immutableMemtable := none } i k e →
        s.Holds i k e := by
      intro i k e hi
      match i, hi with
      | 0, hi => exact hi
      | 1, hi => exact absurd hi (by simp [Holds])
      | l + 2, hi => exact hi
    refine ⟨⟨⟨h.wf, h.aged.of_moves (fun i k e hi => ⟨i, hfrom i k e hi⟩) ?_⟩, ?_, h.deepPuts, ?_⟩,
      hlookup⟩
    · intro i j k e e' hij hi hj
      exact ⟨i, j, hij, hfrom i k e hi, hfrom j k e' hj⟩
    · rintro k e ⟨i, hi⟩
      exact h.fresh k e ⟨i, hfrom i k e hi⟩
    · intro c hc k e he
      rw [hlookup]
      exact h.coherent c hc k e he
  · generalize hs'def : StorageEngine.clearCache { s with
      flushCounter := s.flushCounter + 1
      version := s.flushed imm
      immutableMemtable := none } = s'
    -- layer 1 has moved to level 0
    have hholds : ∀ i k e, s'.Holds i k e ↔ (i = 0 ∧ s.Holds 0 k e) ∨ (i = 2 ∧ s.Holds 1 k e) ∨
        (2 ≤ i ∧ s.Holds i k e) := by
      intro i k e
      rw [← hs'def]
      match i with
      | 0 => simp [Holds, clearCache]
      | 1 => simp [Holds, clearCache]
      | l + 2 =>
          show (s.flushed imm).Holds l k e ↔ _
          rw [holds_flushed h.wf hdir]
          simp [Holds, himm]
    have hrec : ∀ k e, s'.HasRecord k e ↔ s.HasRecord k e := by
      intro k e
      constructor
      · rintro ⟨i, hi⟩
        rcases (hholds i k e).mp hi with ⟨-, hi⟩ | ⟨-, hi⟩ | ⟨-, hi⟩ <;> exact ⟨_, hi⟩
      · rintro ⟨i, hi⟩
        match i, hi with
        | 0, hi => exact ⟨0, (hholds 0 k e).mpr (Or.inl ⟨rfl, hi⟩)⟩
        | 1, hi => exact ⟨2, (hholds 2 k e).mpr (Or.inr (Or.inl ⟨rfl, hi⟩))⟩
        | l + 2, hi => exact ⟨l + 2, (hholds _ k e).mpr (Or.inr (Or.inr ⟨by omega, hi⟩))⟩
    have hord : Ordered s' := by
      refine ⟨?_, h.aged.of_moves (?_) ?_⟩
      · rw [← hs'def]
        exact flushed_wf h.wf hne
      · intro i k e hi
        exact (hrec k e).mp ⟨i, hi⟩
      · intro i j k e e' hij hi hj
        rcases (hholds j k e').mp hj with ⟨rfl, -⟩ | ⟨rfl, hj'⟩ | ⟨hj2, hj'⟩
        · exact absurd hij (by omega)
        · rcases (hholds i k e).mp hi with ⟨-, hi'⟩ | ⟨rfl, -⟩ | ⟨hi2, -⟩
          · exact ⟨0, 1, by omega, hi', hj'⟩
          · exact absurd hij (by omega)
          · exact absurd hij (by omega)
        · rcases (hholds i k e).mp hi with ⟨-, hi'⟩ | ⟨-, hi'⟩ | ⟨-, hi'⟩
          · exact ⟨0, j, by omega, hi', hj'⟩
          · exact ⟨1, j, by omega, hi', hj'⟩
          · exact ⟨i, j, hij, hi', hj'⟩
    have hdata : s'.dataDir = s.dataDir := by rw [← hs'def]; rfl
    have hseq : s'.seqNumber = s.seqNumber := by rw [← hs'def]; rfl
    refine ⟨⟨hord, ?_, ?_, ?_⟩, ?_⟩
    · intro k e he
      rw [hseq]
      exact h.fresh k e ((hrec k e).mp he)
    · intro l k e hl he
      rcases (hholds (l + 2) k e).mp he with ⟨h0, -⟩ | ⟨h2, -⟩ | ⟨-, he⟩
      · exact absurd h0 (by omega)
      · exact absurd h2 (by omega)
      · exact h.deepPuts l k e hl he
    · intro c hc k e he
      rw [← hs'def] at hc
      obtain ⟨c', -, rfl⟩ := Option.map_eq_some_iff.mp hc
      rw [LRUCache.find?_clear] at he
      exact absurd he (by simp)
    · intro k
      exact hord.lookup_congr h.toOrdered (hdata ▸ hdir) hdir (hrec k)

end HandOver

section Compaction

variable {s : StorageEngine} {src : Nat} {plan : CompactionPlan}

/-- The engine after a compaction that came up with `plan`. -/
def afterPlan (s : StorageEngine) (plan : CompactionPlan) : StorageEngine :=
  { s with
    flushCounter := s.flushCounter + 1
    version := compacted s.version plan s.dataDir s.flushCounter (s.seqNumber - 1) }.clearCache

/-- Both compactions are `afterPlan`, where there is a plan. -/
theorem compactL0toL1_eq (s : StorageEngine) : s.compactL0toL1 =
    match planL0toL1 s.version with
    | none => s
    | some plan => s.afterPlan plan := by
  unfold compactL0toL1
  cases planL0toL1 s.version <;> rfl

theorem compactlevelN_eq (s : StorageEngine) (level : Nat) : s.compactlevelN level =
    match planLevelN s.version level with
    | none => s
    | some plan => s.afterPlan plan := by
  unfold compactlevelN
  cases planLevelN s.version level with
  | none => rfl
  | some plan =>
      simp only [runPlan, afterPlan, compacted, TableVersion.editLevelN_eq]

/-- A compaction keeps the invariant, whatever it does to reads. -/
theorem Inv.afterPlan (h : Inv s) (hdir : ExactIds s.dataDir) (d : Drawn s.version src plan) :
    Inv (s.afterPlan plan) := by
  have haged := h.toOrdered.version_aged
  -- records only move down
  have hmoved : ∀ l k e, (s.afterPlan plan).version.Holds l k e → ∃ a ≤ l, s.version.Holds a k e := by
    intro l k e he
    rcases d.moved h.wf hdir haged he with he | ⟨rfl, m, hm, he⟩
    · exact ⟨l, Nat.le_refl _, he⟩
    · exact ⟨src, by omega, m, d.sub m hm, he⟩
  refine ⟨⟨d.wf h.wf hdir haged, h.aged.of_moves ?_ ?_⟩, ?_, ?_, ?_⟩
  · intro i k e hi
    match i, hi with
    | 0, hi => exact ⟨0, hi⟩
    | 1, hi => exact ⟨1, hi⟩
    | l + 2, hi =>
        obtain ⟨a, -, ha⟩ := hmoved l k e hi
        exact ⟨a + 2, ha⟩
  · intro i j k e e' hij hi hj
    match i, j, hi, hj with
    | 0, 1, hi, hj => exact ⟨0, 1, hij, hi, hj⟩
    | 0, l + 2, hi, hj =>
        obtain ⟨a, -, ha⟩ := hmoved l k e' hj
        exact ⟨0, a + 2, by omega, hi, ha⟩
    | 1, l + 2, hi, hj =>
        obtain ⟨a, -, ha⟩ := hmoved l k e' hj
        exact ⟨1, a + 2, by omega, hi, ha⟩
    | l + 2, l' + 2, hi, hj =>
        obtain ⟨a, b, hab, ha, hb⟩ := d.order h.wf hdir haged (by omega) hi hj
        exact ⟨a + 2, b + 2, by omega, ha, hb⟩
  · intro k e he
    apply h.fresh k e
    rcases hasRecord_iff.mp he with he | he | ⟨l, he⟩
    · exact ⟨0, he⟩
    · exact ⟨1, he⟩
    · obtain ⟨a, -, ha⟩ := hmoved l k e he
      exact ⟨a + 2, ha⟩
  · -- tombstones are left out of the merge
    intro l k e hl he
    rcases (d.holds_iff h.wf hdir haged l k e).mp he with ⟨-, -, hput⟩ | ⟨x, hx, -, he⟩
    · exact hput
    · exact h.deepPuts l k e hl ⟨x, hx, he⟩
  · intro c hc k e he
    obtain ⟨c', -, rfl⟩ := Option.map_eq_some_iff.mp hc
    rw [LRUCache.find?_clear] at he
    exact absurd he (by simp)

end Compaction

/-! ## C. Every reachable state

The step lemmas put together, by induction on the run. -/

/-- The effects of the steps. The last three change nothing: a memtable that is not due, and compactions that
    find nothing to do. -/
inductive Effect (s : StorageEngine) : EngineOp → StorageEngine → Prop where
  | put (key value : Bytes) :
      Effect s (.put key value) (s.stored key (s.memtable.put key value s.seqNumber))
  | del (key : Bytes) : Effect s (.del key)
      ((s.get key).2.stored key ((s.get key).2.memtable.del key (s.get key).2.seqNumber))
  | get (key : Bytes) : Effect s (.get key) (s.get key).2
  | rotate {debug : Bool} {s' : StorageEngine} (hs : s.rotate = some s') : Effect s (.checkFlush debug) s'
  | flushInstall {s' : StorageEngine} (hs : s.flushInstall = some s') : Effect s .flushInstall s'
  | compactL0toL1 {plan : CompactionPlan} (hp : planL0toL1 s.version = some plan) :
      Effect s .compactL0toL1 (s.afterPlan plan)
  | compactlevelN {level : Nat} {plan : CompactionPlan} (hp : planLevelN s.version level = some plan) :
      Effect s (.compactlevelN level) (s.afterPlan plan)
  | notDue (debug : Bool) : Effect s (.checkFlush debug) s
  | noneAtL0 (hp : planL0toL1 s.version = none) : Effect s .compactL0toL1 s
  | noneAtLevel {level : Nat} (hp : planLevelN s.version level = none) : Effect s (.compactlevelN level) s

/-- Every step has one of these effects. -/
theorem Effect.of_step {s s' : StorageEngine} {op : EngineOp} (h : s.step op = some s') : Effect s op s' := by
  cases op with
  | put key value => exact Option.some.inj h ▸ .put key value
  | del key => exact Option.some.inj h ▸ .del key
  | get key => exact Option.some.inj h ▸ .get key
  | checkFlush debug =>
      change s.checkFlush debug = some s' at h
      unfold checkFlush at h
      split_ifs at h
      · exact .rotate h
      · exact Option.some.inj h ▸ .notDue debug
  | flushInstall => exact .flushInstall h
  | compactL0toL1 =>
      obtain rfl := Option.some.inj h
      rw [compactL0toL1_eq]
      cases hp : planL0toL1 s.version with
      | none => exact .noneAtL0 hp
      | some plan => exact .compactL0toL1 hp
  | compactlevelN level =>
      obtain rfl := Option.some.inj h
      rw [compactlevelN_eq]
      cases hp : planLevelN s.version level with
      | none => exact .noneAtLevel hp
      | some plan => exact .compactlevelN hp

theorem not_hasRecord_init (dataDir : Bytes) (cacheSize : Nat) (k : Bytes) (e : Entry) :
    ¬ (init dataDir cacheSize).HasRecord k e := by
  rw [hasRecord_iff]
  rintro (h | h | ⟨l, h⟩)
  · exact absurd h (by simp [init])
  · exact absurd h (by simp [init])
  · exact TableVersion.not_holds_initial l k e h

/-- A new engine meets the invariant. -/
theorem inv_init (dataDir : Bytes) (cacheSize : Nat) : Inv (init dataDir cacheSize) := by
  have hno : ∀ i k e, ¬ (init dataDir cacheSize).Holds i k e := fun i k e hi =>
    not_hasRecord_init dataDir cacheSize k e ⟨i, hi⟩
  refine ⟨⟨TableVersion.wf_initial dataDir 0, fun i j k e e' _ hi => absurd hi (hno i k e),
    fun i k e e' hi => absurd hi (hno i k e)⟩, fun k e ⟨i, hi⟩ => absurd hi (hno i k e),
    fun l k e _ he => absurd he (TableVersion.not_holds_initial l k e), ?_⟩
  intro c hc k e he
  unfold init at hc
  dsimp only at hc
  split_ifs at hc
  rw [← Option.some.inj hc] at he
  exact absurd he (by simp [LRUCache.new])

/-- **The invariant is kept by every step.** -/
theorem Inv.step {s s' : StorageEngine} (h : Inv s) (hdir : ExactIds s.dataDir) {op : EngineOp}
    (hs : s.step op = some s') : Inv s' ∧ s'.dataDir = s.dataDir := by
  cases Effect.of_step hs with
  | put key value => exact ⟨h.stored (s.memtable.get_put key value s.seqNumber) rfl, rfl⟩
  | del key => exact ⟨(h.get key).stored (MemTable.get_del _ key _) rfl, get_snd_dataDir s key⟩
  | get key => exact ⟨h.get key, get_snd_dataDir s key⟩
  | rotate hs =>
      refine ⟨(h.rotate hs).1, ?_⟩
      rw [(rotate_eq_some hs).2]
  | flushInstall hs =>
      refine ⟨(h.flushInstall hdir hs).1, ?_⟩
      obtain ⟨imm, -, ⟨-, rfl⟩ | ⟨-, rfl⟩⟩ := flushInstall_eq_some hs <;> rfl
  | compactL0toL1 hp =>
      obtain ⟨d, -⟩ := planL0toL1_drawn hp
      exact ⟨h.afterPlan hdir d, rfl⟩
  | compactlevelN hp =>
      obtain ⟨-, ⟨d⟩⟩ := planLevelN_drawn h.wf hdir hp
      exact ⟨h.afterPlan hdir d, rfl⟩
  | notDue debug => exact ⟨h, rfl⟩
  | noneAtL0 hp => exact ⟨h, rfl⟩
  | noneAtLevel hp => exact ⟨h, rfl⟩

/-- **The invariant holds in every reachable state.** -/
theorem inv_of_exec {dataDir : Bytes} (hdir : ExactIds dataDir) {cacheSize : Nat} {ops : List EngineOp}
    {s : StorageEngine} (h : exec step (init dataDir cacheSize) ops = some s) :
    Inv s ∧ s.dataDir = dataDir := by
  refine exec_invariant (I := fun s => Inv s ∧ s.dataDir = dataDir)
    ⟨inv_init dataDir cacheSize, rfl⟩ ?_ h
  rintro s op s' ⟨hinv, hdata⟩ hs
  obtain ⟨hinv', hdata'⟩ := hinv.step (hdata ▸ hdir) hs
  exact ⟨hinv', hdata'.trans hdata⟩

/-! ## D. The optimised read and the full scan

What `get` has to be compared with: a scan that looks at every record of the key in every place and takes the newest. -/

/-- Every record of a key: both memtables, and every table of the version. -/
def records (s : StorageEngine) (key : Bytes) : List Entry :=
  (s.memtable.get key).toList ++ (s.immutableMemtable.bind (·.get key)).toList
    ++ s.version.sstables.filterMap (·.records.find? key)

/-- The full scan sees every record of the key. -/
theorem Ordered.mem_records {s : StorageEngine} (h : Ordered s) (hdir : ExactIds s.dataDir)
    (key : Bytes) (e : Entry) : e ∈ s.records key ↔ s.HasRecord key e := by
  have htables : e ∈ s.version.sstables.filterMap (·.records.find? key) ↔
      ∃ l, s.version.Holds l key e := by
    rw [List.mem_filterMap]
    constructor
    · rintro ⟨t, ht, he⟩
      obtain ⟨m, hm, hp⟩ := h.wf.exists_id ht
      obtain ⟨l, hl⟩ := TableVersion.mem_metas.mp hm
      exact ⟨l, m, hl, t, (h.wf.findSSTableById_eq_some hdir).mpr ⟨ht, hp⟩, he⟩
    · rintro ⟨l, m, -, t, ht, he⟩
      exact ⟨t, ((h.wf.findSSTableById_eq_some hdir).mp ht).1, he⟩
  unfold records
  rw [List.mem_append, List.mem_append, Option.mem_toList, Option.mem_toList, htables,
    hasRecord_iff, or_assoc]

/-- The naive search: the record with the highest sequence number over all records of the key. -/
def fullScan (s : StorageEngine) (key : Bytes) : Option Entry := (s.records key).argmax Entry.seq

/-- **The optimised read is the full scan**, in every reachable state and for every key. -/
theorem get_eq_fullScan {dataDir : Bytes} (hdir : ExactIds dataDir) {cacheSize : Nat}
    {ops : List EngineOp} {s : StorageEngine} (h : exec step (init dataDir cacheSize) ops = some s)
    (key : Bytes) : (s.get key).1 = answer (s.fullScan key) := by
  obtain ⟨hinv, rfl⟩ := inv_of_exec hdir h
  rw [hinv.get_eq]
  refine congrArg answer (Option.ext ?_)
  intro e
  rw [hinv.toOrdered.lookup_eq_some hdir]
  exact newest_iff_argmax hinv.aged fun e => hinv.toOrdered.mem_records hdir key e

/-- Two versions of a key in levels 2 and 0, and another key in the memtable. -/
def layeredRun : List EngineOp :=
  let key := Bytes.ascii "a"
  [.put key (Bytes.ascii "1"), .checkFlush true, .flushInstall, .compactL0toL1, .compactlevelN 1,
    .put key (Bytes.ascii "2"), .checkFlush true, .flushInstall, .put (Bytes.ascii "b") (Bytes.ascii "3")]

omit [Platform] in
theorem get_eq_fullScan_layeredRun : letI := Platform.sample
    ∃ s, exec step (init (Bytes.ascii "data") 0) layeredRun = some s ∧
      (s.get (Bytes.ascii "a")).1 = answer (s.fullScan (Bytes.ascii "a")) := by
  let := Platform.sample
  have hrun : (exec step (init (Bytes.ascii "data") 0) layeredRun).isSome := by decide +kernel
  obtain ⟨s, hs⟩ := Option.isSome_iff_exists.mp hrun
  exact ⟨s, hs, get_eq_fullScan exactIds_data hs _⟩

/-! ## E. The structure of the levels

What holds of the levels in every state, in the words of the source. -/

/-- The structure of a version's levels. -/
structure LevelStructure (dataDir : Bytes) (v : TableVersion) : Prop where
  /-- No id occurs twice in the levels. -/
  ids_distinct : v.ids.Nodup
  /-- The tables are one to one with the ids: their paths are the ids' paths, each once. -/
  tables : (v.sstables.map (·.path)).Perm (v.ids.map (sstablePath (sstableDir dataDir)))
  /-- The lookup by id finds the table of every id. -/
  found : ∀ i, ∀ m ∈ v.level i, ∃ t ∈ v.sstables, v.findSSTableById m.id = some t ∧
    t.path = sstablePath (sstableDir dataDir) m.id
  sorted : ∀ i, 0 < i → (v.level i).Pairwise fun a b => a.minKey < b.minKey
  disjoint : ∀ i, 0 < i → (v.level i).Pairwise fun a b => a.maxKey < b.minKey
  in_range : ∀ i, ∀ m ∈ v.level i, ∀ t, v.findSSTableById m.id = some t →
    ∀ k e, t.records.find? k = some e → m.minKey ≤ k ∧ k ≤ m.maxKey
  /-- A record in a shallower level is newer than every record of its key in a deeper one. -/
  newer : ∀ i j, i < j → ∀ k e e', v.Holds i k e → v.Holds j k e' → e'.seq < e.seq

/-- **The level structure holds in every reachable version.** -/
theorem levelStructure_of_exec {dataDir : Bytes} (hdir : ExactIds dataDir) {cacheSize : Nat}
    {ops : List EngineOp} {s : StorageEngine} (h : exec step (init dataDir cacheSize) ops = some s) :
    LevelStructure dataDir s.version := by
  obtain ⟨hinv, rfl⟩ := inv_of_exec hdir h
  have hwf := hinv.wf
  refine ⟨hwf.ids_nodup, hwf.tables, ?_, ?_, hwf.disjoint, ?_, ?_⟩
  · intro i m hm
    obtain ⟨t, ht⟩ := hwf.findSSTableById_isSome hdir (TableVersion.mem_metas_of_level hm)
    obtain ⟨hmem, hp⟩ := (hwf.findSSTableById_eq_some hdir).mp ht
    exact ⟨t, hmem, ht, hp⟩
  · intro i hi
    refine (hwf.disjoint i hi).imp_of_mem fun {a b} ha _ hab => ?_
    exact (hwf.range_le a (TableVersion.mem_metas_of_level ha)).trans_lt hab
  · exact fun i m hm t ht k e he =>
      hwf.in_range hdir (TableVersion.mem_metas_of_level hm) ⟨t, ht, he⟩
  · intro i j hij k e e' hi hj
    exact hinv.toOrdered.version_aged.newer i j k e e' hij hi hj

omit [Platform] in
theorem levelStructure_layeredRun : letI := Platform.sample
    ∃ s, exec step (init (Bytes.ascii "data") 0) layeredRun = some s ∧
      LevelStructure (Bytes.ascii "data") s.version := by
  let := Platform.sample
  have hrun : (exec step (init (Bytes.ascii "data") 0) layeredRun).isSome := by decide +kernel
  obtain ⟨s, hs⟩ := Option.isSome_iff_exists.mp hrun
  exact ⟨s, hs, levelStructure_of_exec exactIds_data hs⟩

end StorageEngine

end KvStorageEngine
