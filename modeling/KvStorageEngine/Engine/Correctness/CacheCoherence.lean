import KvStorageEngine.Engine.CachedReads
import KvStorageEngine.Engine.Correctness.EngineInvariant

/-!
# `Engine.Correctness.CacheCoherence` — how old a cached answer can be

A record in the cache is harmless as long as a `get` called from now on may still answer with it
(`MayStay`): no newer write of its key has been acknowledged, and none can be before the key is dropped from
the cache once more. The writer thread keeps this, since it drops the key after every update and before the
acknowledgement. A reader does not: what it found may be out of date by the time it fills the cache, and the
key's last drop may be over. `coherent_of_noStaleFill` says that this is the only way in, and
`exists_stale_of_fill` that every such fill can lead to a stale answer.
-/

namespace KvStorageEngine

open Run

variable [Platform] {ι : Type} [DecidableEq ι]

/-! ## A. The property and the condition

No reader answers with a record older than a write acknowledged before its call; the condition speaks of the steps
that fill the cache. -/

namespace CachedReads

/-- A `get` that has returned answers from a record no older than any write acknowledged before it was
    called. -/
def Coherent (s : CachedReads ι) : Prop :=
  ∀ i key since record, s.readers i = .done key since record →
    ∀ q, (key, q) ∈ since → ∃ r, record = some r ∧ q ≤ r.seq

/-- The writer thread will drop the key from the cache before it completes any more requests. -/
def Pending (s : CachedReads ι) (key : Bytes) : Prop :=
  (∃ q, s.updated = some (key, q)) ∨ ∃ request ∈ s.batch, request.key = key

/-- No newer write of the key is acknowledged, nor can be before the key is dropped from the cache. -/
def MayStay (s : CachedReads ι) (key : Bytes) (e : Entry) : Prop :=
  (∀ q, (key, q) ∈ s.acked → q ≤ e.seq) ∧
    (s.Pending key ∨ ∀ q, (key, q) ∈ s.invalidated → q ≤ e.seq)

/-- A reader does not fill the cache with a record that is out of date for good. -/
def NoStaleFill (s : CachedReads ι) : CachedReadsOp ι → Prop
  | .cacheFill i => ∀ key since out, s.readers i = .found key since out → s.MayStay key out
  | .call _ _ | .cacheLookup _ | .lookup _ | .popBatch _ | .update | .invalidate | .complete => True

/-! ## B. The invariant

What is in the cache may stay there, and what a reader has in hand is as new as the writes acknowledged before its
call. -/

/-- What a reader holds: writes that are acknowledged, and a record as new as all of them. -/
def PcInv (s : CachedReads ι) : GetPc → Prop
  | .idle => True
  | .called _ since | .missed _ since => ∀ x ∈ since, x ∈ s.acked
  | .found key since out => ∀ q, (key, q) ∈ since → q ≤ out.seq
  | .done key since record => ∀ q, (key, q) ∈ since → ∃ r, record = some r ∧ q ≤ r.seq

/-- The write of `key` under the sequence number `q`, or a newer one, is in the memtable. -/
def AsNewAs (s : StorageEngine) (key : Bytes) (q : Nat) : Prop :=
  q < s.seqNumber ∧ ∃ e, s.memtable.get key = some e ∧ q ≤ e.seq

/-- The invariant. Everything the writer thread has been through is in the memtable, and what is in the cache may
    stay there. -/
structure Inv (s : CachedReads ι) : Prop where
  settled : ∀ x, x ∈ s.invalidated ↔ x ∈ s.acked ∨ x ∈ s.results
  read : ∀ key q, (key, q) ∈ s.invalidated → AsNewAs s.engine key q
  updated : ∀ key q, s.updated = some (key, q) → AsNewAs s.engine key q
  cached : ∀ c, s.engine.cache = some c → ∀ key e, c.cache.find? key = some e → s.MayStay key e
  readers : ∀ i, PcInv s (s.readers i)

omit [DecidableEq ι] in
theorem PcInv.mono {s s' : CachedReads ι} {pc : GetPc} (h : PcInv s pc) (ha : ∀ x ∈ s.acked, x ∈ s'.acked) :
    PcInv s' pc := by
  cases pc with
  | idle => trivial
  | called key since => exact fun x hx => ha x (h x hx)
  | missed key since => exact fun x hx => ha x (h x hx)
  | found key since out => exact h
  | done key since record => exact h

/-- What each step can do. -/
def StepEffect (s s' : CachedReads ι) : CachedReadsOp ι → Prop
  | .call i key => s' = s.setPc i (.called key s.acked)
  | .cacheLookup i => ∃ key since, s.readers i = .called key since ∧
      ((s.engine.cache = none ∧ s' = s.setPc i (.missed key since)) ∨
        ∃ c, s.engine.cache = some c ∧
          ((c.cache.find? key = none ∧ s' = { s with
              engine := { s.engine with cache := some (c.get key).2 } }.setPc i (.missed key since)) ∨
            ∃ e, c.cache.find? key = some e ∧ s' = { s with
              engine := { s.engine with cache := some (c.get key).2 } }.setPc i
                (.done key since (some e))))
  | .lookup i => ∃ key since, s.readers i = .missed key since ∧
      ((∃ out, s.engine.lookup key = some out ∧ s' = s.setPc i (.found key since out)) ∨
        s' = s.setPc i (.done key since (s.engine.lookup key)))
  | .cacheFill i => ∃ key since out, s.readers i = .found key since out ∧ s' = { s with
      engine := { s.engine with cache := s.engine.cache.map fun c => LRUCache.put c key out } }.setPc i
        (.done key since (some out))
  | .popBatch batch => s.batch = [] ∧ s.updated = none ∧ s.results = [] ∧ s' = { s with batch := batch }
  | .update => ∃ request batch, s.batch = request :: batch ∧ s.updated = none ∧ s' = { s with
      engine := s.engine.updateMemtable request
      batch := batch
      updated := some (request.key, s.engine.seqNumber) }
  | .invalidate => ∃ write, s.updated = some write ∧ s' = { s with
      engine := s.engine.invalidate write.1
      updated := none
      results := s.results ++ [write]
      invalidated := s.invalidated ++ [write] }
  | .complete => ∃ write results, s.batch = [] ∧ s.updated = none ∧ s.results = write :: results ∧
      s' = { s with results := results, acked := s.acked ++ [write] }

/-- Every step does what `StepEffect` says. -/
theorem step_effect {s s' : CachedReads ι} {op : CachedReadsOp ι} (h : s.step op = some s') :
    StepEffect s s' op := by
  cases op with
  | call i key =>
      cases hr : s.readers i <;> simp only [step, hr] at h <;> try contradiction
      · exact (Option.some.inj h).symm
      · exact (Option.some.inj h).symm
  | cacheLookup i =>
      cases hr : s.readers i <;> simp only [step, hr] at h <;> try contradiction
      rename_i key since
      refine ⟨key, since, hr, ?_⟩
      cases hc : s.engine.cache with
      | none =>
          simp only [hc] at h
          exact Or.inl ⟨rfl, (Option.some.inj h).symm⟩
      | some c =>
          simp only [hc, LRUCache.fst_get] at h
          refine Or.inr ⟨c, rfl, ?_⟩
          cases hf : c.cache.find? key with
          | none =>
              simp only [hf] at h
              exact Or.inl ⟨rfl, (Option.some.inj h).symm⟩
          | some e =>
              simp only [hf] at h
              exact Or.inr ⟨e, rfl, (Option.some.inj h).symm⟩
  | lookup i =>
      cases hr : s.readers i <;> simp only [step, hr] at h <;> try contradiction
      rename_i key since
      refine ⟨key, since, hr, ?_⟩
      cases ha : answer (s.engine.lookup key) with
      | none =>
          simp only [ha] at h
          exact Or.inr (Option.some.inj h).symm
      | some out =>
          cases hc : s.engine.cache with
          | none =>
              simp only [ha, hc] at h
              exact Or.inr (Option.some.inj h).symm
          | some c =>
              simp only [ha, hc] at h
              exact Or.inl ⟨out, (answer_eq_some.mp ha).1, (Option.some.inj h).symm⟩
  | cacheFill i =>
      cases hr : s.readers i <;> simp only [step, hr] at h <;> try contradiction
      exact ⟨_, _, _, hr, (Option.some.inj h).symm⟩
  | popBatch batch =>
      obtain ⟨inHand, hpop, rfl⟩ := Option.map_eq_some_iff.mp h
      obtain ⟨hbatch, hupdated, hresults, -, rfl⟩ := BatchInHand.popBatch_eq_some hpop
      exact ⟨hbatch, hupdated, hresults, rfl⟩
  | update =>
      obtain ⟨⟨request, inHand⟩, htaken, rfl⟩ := Option.map_eq_some_iff.mp h
      obtain ⟨batch, hbatch, hupdated, rfl⟩ := BatchInHand.update_eq_some htaken
      exact ⟨request, batch, hbatch, hupdated, rfl⟩
  | invalidate =>
      obtain ⟨⟨write, inHand⟩, hdropped, rfl⟩ := Option.map_eq_some_iff.mp h
      obtain ⟨hupdated, rfl⟩ := BatchInHand.invalidate_eq_some hdropped
      exact ⟨write, hupdated, rfl⟩
  | complete =>
      obtain ⟨⟨write, inHand⟩, hcompleted, rfl⟩ := Option.map_eq_some_iff.mp h
      obtain ⟨results, hbatch, hupdated, hresults, rfl⟩ := BatchInHand.complete_eq_some hcompleted
      exact ⟨write, results, hbatch, hupdated, hresults, rfl⟩

/-! ## C. One step

The writer's update makes the store newer than the cache, but then the key is pending, so that what the cache holds
may stay for the moment. -/

section Update

variable {s : StorageEngine} {key : Bytes} {q : Nat}

/-- A search ends with a record no older than the memtable's. -/
theorem AsNewAs.lookup (h : AsNewAs s key q) : ∃ e, s.lookup key = some e ∧ q ≤ e.seq := by
  obtain ⟨-, e, he, hle⟩ := h
  obtain ⟨e₁, h₁, hle₁⟩ := exists_considerRecord e (s.immutableMemtable.bind (·.get key))
  obtain ⟨e₂, h₂, hle₂⟩ := exists_searchVersion s.version key e₁
  refine ⟨e₂, ?_, by omega⟩
  show searchVersion s.version key (considerRecord (s.memtable.get key) _) = some e₂
  rw [he, h₁, h₂]

/-- No read gets older by an update. -/
theorem AsNewAs.update (h : AsNewAs s key q) (request : WriteRequest) : AsNewAs (s.updateMemtable request) key q := by
  obtain ⟨hlt, e, he, hle⟩ := h
  have hget := s.memtable.get_apply request s.seqNumber key
  refine ⟨Nat.lt_succ_of_lt hlt, ?_⟩
  show ∃ e, (s.memtable.apply request s.seqNumber).get key = some e ∧ q ≤ e.seq
  rw [hget]
  split_ifs
  · exact ⟨_, rfl, by rw [request.seq_entry]; exact hlt.le⟩
  · exact ⟨e, he, hle⟩

/-- An update makes the store as new as its own write. -/
theorem asNewAs_updated (s : StorageEngine) (request : WriteRequest) :
    AsNewAs (s.updateMemtable request) request.key s.seqNumber := by
  have hget := s.memtable.get_apply request s.seqNumber request.key
  rw [if_pos rfl] at hget
  exact ⟨Nat.lt_succ_self _, _, hget, (request.seq_entry _).ge⟩

end Update

section Step

variable {s s' : CachedReads ι}

/-- A reader moves on. -/
theorem Inv.setPc (h : Inv s) {i : ι} {pc : GetPc} (hpc : PcInv s pc) : Inv (s.setPc i pc) := by
  refine ⟨h.settled, h.read, h.updated, h.cached, ?_⟩
  intro j
  show PcInv s (Function.update s.readers i pc j)
  by_cases hj : j = i
  · rw [hj, Function.update_self]
    exact hpc
  · rw [Function.update_of_ne hj]
    exact h.readers j

omit [DecidableEq ι] in
/-- The cache changes, and everything in it may stay. -/
theorem Inv.recache (h : Inv s) {cache : Option LRUCache}
    (hc : ∀ c, cache = some c → ∀ key e, c.cache.find? key = some e → s.MayStay key e) :
    Inv { s with engine := { s.engine with cache := cache } } :=
  ⟨h.settled, h.read, h.updated, hc, h.readers⟩

omit [DecidableEq ι] in
/-- A lookup in the cache only moves its entry to the front. -/
theorem Inv.touch (h : Inv s) {c : LRUCache} (hc : s.engine.cache = some c) (key : Bytes) :
    Inv { s with engine := { s.engine with cache := some (c.get key).2 } } := by
  apply h.recache
  intro c' hc' k e he
  rw [← Option.some.inj hc', LRUCache.cache_get] at he
  exact h.cached c hc k e he

omit [DecidableEq ι] in
/-- What a reader finds in the store is as new as any acknowledged write. -/
theorem Inv.read_acked (h : Inv s) {key : Bytes} {since : List (Bytes × Nat)}
    (hs : ∀ x ∈ since, x ∈ s.acked) {q : Nat} (hq : (key, q) ∈ since) :
    ∃ e, s.engine.lookup key = some e ∧ q ≤ e.seq :=
  (h.read key q ((h.settled _).mpr (Or.inl (hs _ hq)))).lookup

omit [DecidableEq ι] in
/-- Between two batches nothing is pending. -/
theorem MayStay.settled {key : Bytes} {e : Entry} (hm : s.MayStay key e) (hb : s.batch = [])
    (hu : s.updated = none) : ∀ q, (key, q) ∈ s.invalidated → q ≤ e.seq := by
  rcases hm.2 with (⟨q, hq⟩ | ⟨request, hr, -⟩) | hall
  · exact absurd (hu.symm.trans hq) (by simp)
  · rw [hb] at hr
    exact absurd hr List.not_mem_nil
  · exact hall

/-- **The invariant is kept by every step that does not fill the cache with a stale record.** -/
theorem Inv.step (h : Inv s) {op : CachedReadsOp ι} (hC : s.NoStaleFill op) (hs : s.step op = some s') :
    Inv s' := by
  have heff := step_effect hs
  cases op with
  | call i key =>
      obtain rfl : s' = _ := heff
      exact h.setPc fun x hx => hx
  | cacheLookup i =>
      obtain ⟨key, since, hr, heff⟩ := heff
      have hpc := h.readers i
      rw [hr] at hpc
      rcases heff with ⟨-, rfl⟩ | ⟨c, hc, ⟨-, rfl⟩ | ⟨e, he, rfl⟩⟩
      · exact h.setPc hpc
      · exact (h.touch hc key).setPc hpc
      · exact (h.touch hc key).setPc fun q hq => ⟨e, rfl, (h.cached c hc key e he).1 q (hpc _ hq)⟩
  | lookup i =>
      obtain ⟨key, since, hr, heff⟩ := heff
      have hpc := h.readers i
      rw [hr] at hpc
      rcases heff with ⟨out, hout, rfl⟩ | rfl
      · apply h.setPc
        intro q hq
        obtain ⟨e, he, hle⟩ := h.read_acked hpc hq
        exact Option.some.inj (hout.symm.trans he) ▸ hle
      · exact h.setPc fun q hq => h.read_acked hpc hq
  | cacheFill i =>
      obtain ⟨key, since, out, hr, rfl⟩ := heff
      have hpc := h.readers i
      rw [hr] at hpc
      refine (h.recache ?_).setPc fun q hq => ⟨out, rfl, hpc q hq⟩
      intro c' hc' k e he
      obtain ⟨c, hc, rfl⟩ := Option.map_eq_some_iff.mp hc'
      rcases LRUCache.find?_put he with ⟨rfl, rfl⟩ | ⟨-, he⟩
      · exact hC k since e hr
      · exact h.cached c hc k e he
  | popBatch batch =>
      obtain ⟨hb, hu, -, rfl⟩ := heff
      refine ⟨h.settled, h.read, h.updated, ?_, h.readers⟩
      intro c hc k e he
      have hm := h.cached c hc k e he
      exact ⟨hm.1, Or.inr (hm.settled hb hu)⟩
  | update =>
      obtain ⟨request, batch, hb, hu, rfl⟩ := heff
      refine ⟨h.settled, fun key q hq => (h.read key q hq).update request, ?_, ?_, h.readers⟩
      · intro key q hq
        obtain ⟨rfl, rfl⟩ := Prod.mk.inj (Option.some.inj hq)
        exact asNewAs_updated s.engine request
      · -- the request's key is still to be dropped
        intro c hc k e he
        have hm := h.cached c hc k e he
        refine ⟨hm.1, hm.2.imp_left ?_⟩
        rintro (⟨q, hq⟩ | ⟨r, hr, hk⟩)
        · exact absurd (hu.symm.trans hq) (by simp)
        · rw [hb] at hr
          rcases List.mem_cons.mp hr with rfl | hr
          · exact Or.inl ⟨s.engine.seqNumber, by rw [hk]⟩
          · exact Or.inr ⟨r, hr, hk⟩
  | invalidate =>
      obtain ⟨⟨key, seq⟩, hu, rfl⟩ := heff
      refine ⟨?_, ?_, fun k q hq => absurd hq (by simp), ?_, h.readers⟩
      · intro x
        show x ∈ s.invalidated ++ [_] ↔ x ∈ s.acked ∨ x ∈ s.results ++ [_]
        rw [List.mem_append, List.mem_append, h.settled, or_assoc]
      · intro k q hq
        rcases List.mem_append.mp hq with hq | hq
        · exact h.read k q hq
        · obtain ⟨rfl, rfl⟩ := Prod.mk.inj (List.mem_singleton.mp hq)
          exact h.updated k q hu
      · -- nothing of the dropped key is left, and the other keys are as they were
        intro c' hc' k e he
        obtain ⟨c, hc, rfl⟩ := Option.map_eq_some_iff.mp hc'
        obtain ⟨hk, he⟩ := LRUCache.find?_invalidate he
        have hm := h.cached c hc k e he
        refine ⟨hm.1, hm.2.imp ?_ ?_⟩
        · rintro (⟨q, hq⟩ | hbatch)
          · exact absurd (Prod.mk.inj (Option.some.inj (hu.symm.trans hq))).1.symm hk
          · exact Or.inr hbatch
        · intro hall q hq
          rcases List.mem_append.mp hq with hq | hq
          · exact hall q hq
          · exact absurd (Prod.mk.inj (List.mem_singleton.mp hq)).1 hk
  | complete =>
      obtain ⟨write, results, hb, hu, hres, rfl⟩ := heff
      -- an acknowledged write has been through the invalidation
      have hin : ∀ x, x ∈ s.acked ++ [write] → x ∈ s.invalidated := by
        intro x hx
        rw [h.settled, hres]
        rcases List.mem_append.mp hx with hx | hx
        · exact Or.inl hx
        · exact Or.inr (List.mem_singleton.mp hx ▸ List.mem_cons_self)
      refine ⟨?_, h.read, h.updated, ?_,
        fun i => (h.readers i).mono fun x hx => List.mem_append_left _ hx⟩
      · intro x
        show x ∈ s.invalidated ↔ x ∈ s.acked ++ [write] ∨ x ∈ results
        rw [h.settled, hres, List.mem_append, List.mem_singleton, List.mem_cons, or_assoc]
      · intro c hc k e he
        have hall := (h.cached c hc k e he).settled hb hu
        exact ⟨fun q hq => hall q (hin _ hq), Or.inr hall⟩

end Step

/-! ## D. Whole runs

The invariant along a run whose fills all meet the condition. -/

omit [DecidableEq ι] in
theorem inv_start (s₀ : StorageEngine) : Inv (start ι s₀) := by
  refine ⟨?_, fun key q hq => absurd hq List.not_mem_nil,
    fun key q hq => absurd hq (by simp [start, BatchInHand.idle]), ?_, fun _ => trivial⟩
  · intro x
    simp [start, BatchInHand.idle]
  · exact fun c hc key e he => ⟨fun q hq => absurd hq List.not_mem_nil,
      Or.inr fun q hq => absurd hq List.not_mem_nil⟩

omit [DecidableEq ι] in
/-- The invariant gives the property. -/
theorem Inv.coherent {s : CachedReads ι} (h : Inv s) : s.Coherent := by
  intro i key since record hr
  have hpc := h.readers i
  rw [hr] at hpc
  exact hpc

/-- **Cache coherence.** As long as no reader fills the cache with a record that is out of date for good, a
    `get` called after a write was acknowledged never answers with anything older. In every run of any
    number of readers and the writer thread, from every state of the engine. -/
theorem coherent_of_noStaleFill {s₀ : StorageEngine} {ops : List (CachedReadsOp ι)} {s : CachedReads ι}
    (h : exec step (start ι s₀) ops = some s) (hC : Meets step NoStaleFill (start ι s₀) ops) : s.Coherent :=
  (exec_invariant_of_meets (I := Inv) (inv_start s₀) (fun _ _ _ hinv hC hs => hinv.step hC hs) hC h).coherent

/-! ## E. Every stale fill does harm

The other way round: after a fill that breaks the condition the writer thread can finish its batch without dropping
the key again, and a `get` called then answers with the old record. -/

/-- The cache answers `key` with `out`. -/
def Answering (s : CachedReads ι) (key : Bytes) (out : Entry) : Prop :=
  ∃ c, s.engine.cache = some c ∧ c.cache.find? key = some out

/-- How much the writer thread has before it until its batch is completed. -/
def remaining (s : CachedReads ι) : Nat :=
  3 * s.batch.length + 2 * s.updated.toList.length + s.results.length

/-- `key` stays cached as `out` while the writer thread completes its batch, the writes in `through`
    included. -/
structure Stuck (key : Bytes) (out : Entry) (through : List (Bytes × Nat)) (pc : ι → GetPc)
    (s : CachedReads ι) : Prop where
  idle : ¬ s.Pending key
  answering : s.Answering key out
  through : ∀ x ∈ through, x ∈ s.acked ∨ x ∈ s.results
  readers : s.readers = pc

omit [DecidableEq ι] in
theorem remaining_eq_zero {s : CachedReads ι} (h : s.remaining = 0) :
    s.batch = [] ∧ s.updated = none ∧ s.results = [] := by
  unfold remaining at h
  refine ⟨List.eq_nil_of_length_eq_zero (by omega), ?_, List.eq_nil_of_length_eq_zero (by omega)⟩
  cases hu : s.updated with
  | none => rfl
  | some write =>
      rw [hu] at h
      simp at h

/-- The writer thread can always go on, and gets nearer to the end of its batch. -/
theorem Stuck.progress {key : Bytes} {out : Entry} {through : List (Bytes × Nat)} {pc : ι → GetPc}
    {s : CachedReads ι} (h : Stuck key out through pc s) (hrem : s.remaining ≠ 0) :
    ∃ op s', s.step op = some s' ∧ Stuck key out through pc s' ∧ s'.remaining < s.remaining := by
  obtain ⟨⟨batch, updated, results⟩, engine, readers, invalidated, acked⟩ := s
  obtain ⟨hidle, ⟨c, hc, hout⟩, hthrough, hreaders⟩ := h
  cases updated with
  | some write =>
      refine ⟨.invalidate, _, rfl, ⟨?_, ?_, ?_, hreaders⟩, ?_⟩
      -- the key to be dropped is another one, since `key` is not pending
      · rintro (⟨q, hq⟩ | hbatch)
        · exact absurd hq (by simp)
        · exact hidle (Or.inr hbatch)
      · have hk : key ≠ write.1 := fun hk => hidle (Or.inl ⟨write.2, by rw [hk]⟩)
        have hc : engine.cache = some c := hc
        refine ⟨c.invalidate write.1, by simp [StorageEngine.invalidate, hc], ?_⟩
        rw [LRUCache.find?_invalidate_ne hk]
        exact hout
      · intro x hx
        exact (hthrough x hx).imp_right fun hr => List.mem_append_left _ hr
      · simp [remaining]
        omega
  | none =>
      cases batch with
      | cons request batch =>
          refine ⟨.update, _, rfl, ⟨?_, ⟨c, hc, hout⟩, hthrough, hreaders⟩, ?_⟩
          · rintro (⟨q, hq⟩ | ⟨r, hr, hk⟩)
            · exact hidle (Or.inr ⟨request, List.mem_cons_self, (Prod.mk.inj (Option.some.inj hq)).1⟩)
            · exact hidle (Or.inr ⟨r, List.mem_cons_of_mem _ hr, hk⟩)
          · simp [remaining]
            omega
      | nil =>
          cases results with
          | nil => exact absurd rfl hrem
          | cons write results =>
              refine ⟨.complete, _, rfl, ⟨hidle, ⟨c, hc, hout⟩, ?_, hreaders⟩, ?_⟩
              · intro x hx
                rcases hthrough x hx with ha | hr
                · exact Or.inl (List.mem_append_left _ ha)
                · rcases List.mem_cons.mp hr with rfl | hr
                  · exact Or.inl (List.mem_append_right _ (List.mem_singleton_self _))
                  · exact Or.inr hr
              · simp [remaining]

/-- The writer thread can bring its batch to an end, with the stale record still in the cache. -/
theorem Stuck.exists_completed {key : Bytes} {out : Entry} {through : List (Bytes × Nat)}
    {pc : ι → GetPc} {s : CachedReads ι} (h : Stuck key out through pc s) :
    ∃ ops s', exec step s ops = some s' ∧ Stuck key out through pc s' ∧ s'.remaining = 0 := by
  induction hn : s.remaining using Nat.strong_induction_on generalizing s with
  | _ n ih =>
    by_cases hzero : s.remaining = 0
    · exact ⟨[], s, rfl, h, hzero⟩
    · obtain ⟨op, t, ht, hstuck, hlt⟩ := h.progress hzero
      obtain ⟨ops, s', hrun, hend⟩ := ih t.remaining (hn ▸ hlt) hstuck rfl
      exact ⟨op :: ops, s', by rw [exec_cons, ht]; exact hrun, hend⟩

/-- A `get` called while the cache holds a record older than an acknowledged write answers with it. -/
theorem exists_stale_get {s : CachedReads ι} {i : ι} {key key' : Bytes} {since : List (Bytes × Nat)}
    {record : Option Entry} {out : Entry} {q : Nat} (hr : s.readers i = .done key' since record)
    (ha : s.Answering key out) (hq : (key, q) ∈ s.acked) (hlt : out.seq < q) :
    ∃ t, exec step s [.call i key, .cacheLookup i] = some t ∧ ¬ t.Coherent := by
  obtain ⟨c, hc, hout⟩ := ha
  have hcall : s.step (.call i key) = some (s.setPc i (.called key s.acked)) := by
    simp only [step, hr]
  obtain ⟨t, ht, hdone⟩ : ∃ t, (s.setPc i (.called key s.acked)).step (.cacheLookup i) = some t ∧
      t.readers i = .done key s.acked (some out) := by
    simp [step, setPc, hc, LRUCache.fst_get, hout]
  refine ⟨t, ?_, ?_⟩
  · rw [exec_cons, hcall, Option.bind_some, exec_cons, ht]
    rfl
  · intro hcoh
    obtain ⟨r, hrec, hle⟩ := hcoh i key s.acked (some out) hdone q hq
    obtain rfl := Option.some.inj hrec
    omega

/-- **A stale fill does harm**: where a reader fills the cache with a record that is out of date for good,
    some later `get` can answer with it after a newer write was acknowledged. -/
theorem exists_stale_of_fill {s s' : CachedReads ι} (h : Inv s) {i : ι}
    (hs : s.step (.cacheFill i) = some s') (hcache : s.engine.cache.isSome)
    (hC : ¬ s.NoStaleFill (.cacheFill i)) : ∃ ops t, exec step s' ops = some t ∧ ¬ t.Coherent := by
  unfold NoStaleFill at hC
  push Not at hC
  obtain ⟨key, since, out, hr, hstay⟩ := hC
  obtain ⟨key', since', out', hr', heff⟩ := step_effect hs
  obtain ⟨rfl, rfl, rfl⟩ : key = key' ∧ since = since' ∧ out = out' := by
    simpa using hr.symm.trans hr'
  obtain ⟨c, hc⟩ := Option.isSome_iff_exists.mp hcache
  have hanswering : s'.Answering key out := by
    rw [heff]
    exact ⟨c.put key out, by simp [setPc, hc], c.find?_put_self key out⟩
  have hdone : s'.readers i = .done key since (some out) := by
    rw [heff]
    simp [setPc]
  unfold MayStay at hstay
  rw [not_and_or, not_or] at hstay
  rcases hstay with hacked | ⟨hidle, hinv⟩
  · -- a newer write is acknowledged already
    push Not at hacked
    obtain ⟨q, hq, hlt⟩ := hacked
    obtain ⟨t, ht⟩ := exists_stale_get hdone hanswering (by rw [heff]; exact hq) hlt
    exact ⟨_, t, ht⟩
  · -- or it will be before the key is dropped again
    push Not at hinv
    obtain ⟨q, hq, hlt⟩ := hinv
    have hstuck : Stuck key out s.invalidated s'.readers s' := by
      refine ⟨?_, hanswering, ?_, rfl⟩
      · rw [heff]
        exact hidle
      · intro x hx
        rw [heff]
        exact (h.settled x).mp hx
    obtain ⟨ops, t, hrun, hend, hrem⟩ := hstuck.exists_completed
    have hin : (key, q) ∈ t.acked := by
      rcases hend.through _ hq with ha | hres
      · exact ha
      · rw [(remaining_eq_zero hrem).2.2] at hres
        exact absurd hres List.not_mem_nil
    obtain ⟨u, hu, hbad⟩ := exists_stale_get (hend.readers ▸ hdone) hend.answering hin hlt
    exact ⟨ops ++ [.call i key, .cacheLookup i], u, by rw [exec_append, hrun]; exact hu, hbad⟩

/-! ## F. A reader that fills the cache too late -/

/-- The store has `a = 1`. -/
def oneWrite : List EngineOp := [.put (Bytes.ascii "a") (Bytes.ascii "1")]

/-- Reader 0 finds `a = 1`, `a = 2` is written and acknowledged, reader 0 fills the cache, and then reader 1
    is called. -/
def lateFill : List (CachedReadsOp (Fin 2)) :=
  [.call 0 (Bytes.ascii "a"), .cacheLookup 0, .lookup 0, .popBatch [.put (Bytes.ascii "a") (Bytes.ascii "2")],
    .update, .invalidate, .complete, .cacheFill 0, .call 1 (Bytes.ascii "a"), .cacheLookup 1]

/-- The same without the first reader. -/
def noFill : List (CachedReadsOp (Fin 2)) :=
  [.popBatch [.put (Bytes.ascii "a") (Bytes.ascii "2")], .update, .invalidate, .complete,
    .call 1 (Bytes.ascii "a"), .cacheLookup 1, .lookup 1]

omit [Platform] in
theorem not_coherent_lateFill : letI := Platform.sample
    ∃ s₀ s, exec StorageEngine.step (StorageEngine.init (Bytes.ascii "data") 8) oneWrite = some s₀ ∧
      exec step (start (Fin 2) s₀) lateFill = some s ∧ ¬ s.Coherent := by
  let := Platform.sample
  have hrun : ((exec StorageEngine.step (StorageEngine.init (Bytes.ascii "data") 8) oneWrite).bind
      fun s₀ => (exec step (start (Fin 2) s₀) lateFill).map fun s =>
        match s.readers 1 with
        | .done key since record => decide (key = Bytes.ascii "a" ∧ (key, 2) ∈ since ∧
            record = some ⟨Bytes.ascii "1", 1, .put⟩)
        | _ => false) = some true := by decide +kernel
  obtain ⟨s₀, h₀, hrun⟩ := Option.bind_eq_some_iff.mp hrun
  obtain ⟨s, h, hstale⟩ := Option.map_eq_some_iff.mp hrun
  refine ⟨s₀, s, h₀, h, ?_⟩
  intro hcoh
  cases hr : s.readers 1 <;> rw [hr] at hstale <;> simp only [decide_eq_true_eq, Bool.false_eq_true] at hstale
  obtain ⟨-, hq, rfl⟩ := hstale
  obtain ⟨r, hrec, hle⟩ := hcoh 1 _ _ _ hr 2 hq
  obtain rfl := Option.some.inj hrec
  exact absurd hle (by decide)

omit [Platform] in
theorem coherent_noFill : letI := Platform.sample
    ∃ s₀ s, exec StorageEngine.step (StorageEngine.init (Bytes.ascii "data") 8) oneWrite = some s₀ ∧
      exec step (start (Fin 2) s₀) noFill = some s ∧ s.Coherent := by
  let := Platform.sample
  have hrun : ((exec StorageEngine.step (StorageEngine.init (Bytes.ascii "data") 8) oneWrite).bind
      fun s₀ => exec step (start (Fin 2) s₀) noFill).isSome = true := by decide +kernel
  obtain ⟨s, hrun⟩ := Option.isSome_iff_exists.mp hrun
  obtain ⟨s₀, h₀, h⟩ := Option.bind_eq_some_iff.mp hrun
  refine ⟨s₀, s, h₀, h, coherent_of_noStaleFill h ?_⟩
  exact meets_of_forall (by simp [noFill, NoStaleFill]) _

end CachedReads

end KvStorageEngine
