import KvStorageEngine.Engine.Correctness.EngineInvariant

/-!
# `Engine.Correctness.MapRefinement` — the engine against a map

The abstract store is a map from keys to values: `put` binds a key, `del` unbinds it, nothing else is visible
(`MapState.step`). The engine agrees with it through every step but one. A level-0 compaction leaves
tombstones out of its output, although a record of the same key may sit in level 2 or below; then the older
record is what a read finds (`refines_iff_tombstoneSafe`).

The analysis is one lemma per fate of the newest record: a put stays (`lookup_afterPlan_put`), a tombstone
stays unless the compaction takes it (`lookup_afterPlan_tombstone`), and when a level-0 compaction takes it,
what remains of the key is what lies below level 1 (`hasRecord_afterPlan_dropped`).
-/

namespace KvStorageEngine

open Layered Run

/-! ## The abstract store

A map from keys to values. A run of the engine is read as the puts and deletes in it; everything else leaves the map
alone. -/

/-- A map from keys to values. -/
abbrev MapState := Bytes → Option Bytes

/-- What an operation does to the map. Everything the engine does in the background is invisible. -/
def MapState.step (m : MapState) : EngineOp → MapState
  | .put key value => fun k => if k = key then some value else m k
  | .del key => fun k => if k = key then none else m k
  | .get _ | .checkFlush _ | .flushInstall | .compactL0toL1 | .compactlevelN _ => m

/-- The map a run of operations leaves: each key's last write. -/
def lastWrites (ops : List EngineOp) : MapState := ops.foldl MapState.step fun _ => none

/-- The last writes are built up step by step. -/
theorem lastWrites_concat (ops : List EngineOp) (op : EngineOp) :
    lastWrites (ops ++ [op]) = (lastWrites ops).step op := by
  rw [lastWrites, List.foldl_append]
  rfl

variable [Platform]

namespace StorageEngine

/-- Every key reads as its last write says. -/
def Refines (ops : List EngineOp) (s : StorageEngine) : Prop :=
  ∀ k, (s.get k).1.map (·.value) = lastWrites ops k

/-- The step does not drop a tombstone that still hides something: when a level-0 compaction has a result,
    no key whose newest record is a tombstone in level 0 has a record in level 2 or below. -/
def TombstoneSafe (s : StorageEngine) : EngineOp → Prop
  | .compactL0toL1 => (planL0toL1 s.version).isSome → ∀ k e, Newest Entry.seq s.Holds k e →
      s.version.Holds 0 k e → e.type = .delete → ∀ l e', 2 ≤ l → ¬ s.version.Holds l k e'
  | .put _ _ | .del _ | .get _ | .checkFlush _ | .flushInstall | .compactlevelN _ => True

/-! ## Reads across a compaction

A compaction drops the tombstones it merges. A key whose newest record is a put reads as before; a key whose newest
record is a tombstone reads as before unless the tombstone goes and a record below it stays. -/

section Compaction

variable {s : StorageEngine} {src : Nat} {plan : CompactionPlan} {k : Bytes} {e : Entry}

/-- A compaction adds no record. -/
theorem hasRecord_of_afterPlan (h : Ordered s) (hdir : ExactIds s.dataDir) (d : Drawn s.version src plan)
    (he : (s.afterPlan plan).HasRecord k e) : s.HasRecord k e := by
  rcases hasRecord_iff.mp he with he | he | ⟨l, he⟩
  · exact ⟨0, he⟩
  · exact ⟨1, he⟩
  · rcases d.moved h.wf hdir h.version_aged he with he | ⟨-, m, hm, he⟩
    · exact ⟨l + 2, he⟩
    · exact ⟨src + 2, m, d.sub m hm, he⟩

/-- A newest record that is still there is still the newest. -/
theorem lookup_afterPlan_of_hasRecord (h : Inv s) (hdir : ExactIds s.dataDir)
    (d : Drawn s.version src plan) (hl : s.lookup k = some e) (he : (s.afterPlan plan).HasRecord k e) :
    (s.afterPlan plan).lookup k = some e := by
  rw [h.toOrdered.lookup_eq_some hdir] at hl
  rw [(h.afterPlan hdir d).toOrdered.lookup_eq_some hdir]
  refine ⟨he, ?_⟩
  intro i e' he'
  obtain ⟨j, hj⟩ := hasRecord_of_afterPlan h.toOrdered hdir d ⟨i, he'⟩
  exact hl.2 j e' hj

/-- A key that has no record gets none from a compaction. -/
theorem lookup_afterPlan_none (h : Inv s) (hdir : ExactIds s.dataDir) (d : Drawn s.version src plan)
    (hl : s.lookup k = none) : (s.afterPlan plan).lookup k = none := by
  rw [h.toOrdered.lookup_eq_none hdir] at hl
  rw [(h.afterPlan hdir d).toOrdered.lookup_eq_none hdir]
  intro e he
  exact hl e (hasRecord_of_afterPlan h.toOrdered hdir d he)

/-- A put that is the newest record of its key stays so. -/
theorem lookup_afterPlan_put (h : Inv s) (hdir : ExactIds s.dataDir) (d : Drawn s.version src plan)
    (hl : s.lookup k = some e) (hput : e.type = .put) : (s.afterPlan plan).lookup k = some e := by
  apply lookup_afterPlan_of_hasRecord h hdir d hl
  obtain ⟨hrec, hmax⟩ := (h.toOrdered.lookup_eq_some hdir).mp hl
  rcases hasRecord_iff.mp hrec with he | he | ⟨l, he⟩
  · exact ⟨0, he⟩
  · exact ⟨1, he⟩
  · obtain ⟨l', he'⟩ := d.keeps_put h.wf hdir h.toOrdered.version_aged he
      (fun i e' he' => hmax (i + 2) e' he') hput
    exact ⟨l' + 2, he'⟩

/-- So does a tombstone that the compaction does not take. -/
theorem lookup_afterPlan_tombstone (h : Inv s) (hdir : ExactIds s.dataDir)
    (d : Drawn s.version src plan) (hl : s.lookup k = some e) (hdel : e.type = .delete)
    (hleft : 0 < src ∨ ¬ s.version.Holds 0 k e) : (s.afterPlan plan).lookup k = some e := by
  apply lookup_afterPlan_of_hasRecord h hdir d hl
  obtain ⟨hrec, -⟩ := (h.toOrdered.lookup_eq_some hdir).mp hl
  rcases hasRecord_iff.mp hrec with he | he | ⟨l, he⟩
  · exact ⟨0, he⟩
  · exact ⟨1, he⟩
  · -- a tombstone in the version is in level 0
    rcases Nat.eq_zero_or_pos l with rfl | hpos
    · rcases hleft with hsrc | hno
      · have he' : (s.afterPlan plan).version.Holds 0 k e :=
          (d.holds_other h.wf hdir h.toOrdered.version_aged (by omega) (by omega) k e).mpr he
        exact ⟨2, he'⟩
      · exact absurd he hno
    · rw [h.deepPuts l k e hpos he] at hdel
      exact absurd hdel (by simp)

/-- A compaction below level 0 takes no tombstones. -/
theorem lookup_afterPlan_levelN (h : Inv s) (hdir : ExactIds s.dataDir) {level : Nat}
    (hp : planLevelN s.version level = some plan) (k : Bytes) : (s.afterPlan plan).lookup k = s.lookup k := by
  obtain ⟨hpos, ⟨d⟩⟩ := planLevelN_drawn h.wf hdir hp
  cases hlk : s.lookup k with
  | none => exact lookup_afterPlan_none h hdir d hlk
  | some e =>
      cases ht : e.type with
      | put => exact lookup_afterPlan_put h hdir d hlk ht
      | delete => exact lookup_afterPlan_tombstone h hdir d hlk ht (Or.inl hpos)

/-- When a level-0 compaction takes the newest record of a key and it is a tombstone, what is left of the key
    is what lies below level 1. -/
theorem hasRecord_afterPlan_dropped (h : Inv s) (hdir : ExactIds s.dataDir) (d : Drawn s.version 0 plan)
    (hall : d.sources = s.version.level 0) (hl : s.lookup k = some e) (he0 : s.version.Holds 0 k e)
    (hdel : e.type = .delete) (e' : Entry) :
    (s.afterPlan plan).HasRecord k e' ↔ ∃ l, 2 ≤ l ∧ s.version.Holds l k e' := by
  have haged := h.toOrdered.version_aged
  have hnewest := (h.toOrdered.lookup_eq_some hdir).mp hl
  have hin : d.InputHolds k e := by
    obtain ⟨m, hm, he⟩ := he0
    exact ⟨m, d.mem_inputs.mpr (Or.inl (hall ▸ hm)), he⟩
  constructor
  · intro hrec
    rcases hasRecord_iff.mp hrec with he | he | ⟨l, he⟩
    · -- the memtables would hold a newer record
      have := h.aged.newer 0 2 k e' e (by omega) he he0
      have := hnewest.2 0 e' he
      omega
    · have := h.aged.newer 1 2 k e' e (by omega) he he0
      have := hnewest.2 1 e' he
      omega
    · rcases (d.holds_iff h.wf hdir haged l k e').mp he with ⟨-, ⟨he', hmax⟩, hput⟩ | ⟨x, hx, hn, he'⟩
      · -- the merge picked the tombstone
        have hle := hmax e hin
        have : e' = e := by
          rcases d.inputHolds he' with ha | ha <;>
            exact haged.eq_of_seq_eq ha he0 (Nat.le_antisymm (hnewest.2 (_ + 2) e' ha) hle)
        rw [this, hdel] at hput
        exact absurd hput (by simp)
      · match l, hx with
        | 0, hx => exact absurd (d.mem_inputs.mpr (Or.inl (hall ▸ hx))) hn
        | 1, hx =>
            -- a level-1 file with the key overlaps the range of level 0
            obtain ⟨m, hm, hme⟩ := he0
            obtain ⟨hlo, hhi⟩ := h.wf.in_range hdir (TableVersion.mem_metas_of_level hm) hme
            obtain ⟨hlo', hhi'⟩ := h.wf.in_range hdir (TableVersion.mem_metas_of_level hx) he'
            obtain ⟨hdlo, hdhi⟩ := d.within m (hall ▸ hm)
            refine absurd (d.mem_inputs.mpr (Or.inr ⟨hx, ?_⟩)) hn
            have h1 : d.lo ≤ x.maxKey := (hdlo.trans hlo).trans hhi'
            have h2 : x.minKey ≤ d.hi := (hlo'.trans hhi).trans hdhi
            simp [SSTableMeta.overlaps, not_lt.mpr h1, not_lt.mpr h2]
        | l + 2, hx => exact ⟨l + 2, by omega, x, hx, he'⟩
  · rintro ⟨l, hl2, he'⟩
    have he : (s.afterPlan plan).version.Holds l k e' :=
      (d.holds_other h.wf hdir haged (by omega) (by omega) k e').mpr he'
    exact ⟨l + 2, he⟩

end Compaction

/-! ## One step

The only step that can leave the map behind is a level-0 compaction, and exactly when it is not `TombstoneSafe`. -/

/-- A level-0 compaction with a result answers as before exactly when it is `TombstoneSafe`. -/
theorem answer_afterPlan_iff {s : StorageEngine} {plan : CompactionPlan} (h : Inv s)
    (hdir : ExactIds s.dataDir) (d : Drawn s.version 0 plan) (hall : d.sources = s.version.level 0) :
    (∀ k, (answer ((s.afterPlan plan).lookup k)).map (·.value) = (answer (s.lookup k)).map (·.value)) ↔
      ∀ k e, Newest Entry.seq s.Holds k e → s.version.Holds 0 k e → e.type = .delete →
        ∀ l e', 2 ≤ l → ¬ s.version.Holds l k e' := by
  have hinv' := h.afterPlan hdir d
  constructor
  · intro hsame k e hnew he0 hdel l e' hl he'
    have hlk := (h.toOrdered.lookup_eq_some hdir).mpr hnew
    have hleft := hasRecord_afterPlan_dropped h hdir d hall hlk he0 hdel
    -- the read finds some record below level 1, and those are puts
    cases hlk' : (s.afterPlan plan).lookup k with
    | none =>
        exact (hinv'.toOrdered.lookup_eq_none hdir).mp hlk' e' ((hleft e').mpr ⟨l, hl, he'⟩)
    | some e'' =>
        obtain ⟨hrec, -⟩ := (hinv'.toOrdered.lookup_eq_some hdir).mp hlk'
        obtain ⟨l', hl', he''⟩ := (hleft e'').mp hrec
        have hput := h.deepPuts l' k e'' (by omega) he''
        have := hsame k
        rw [hlk', hlk, answer_put hput, answer_delete hdel] at this
        exact absurd this (by simp)
  · intro hsafe k
    cases hlk : s.lookup k with
    | none => rw [lookup_afterPlan_none h hdir d hlk]
    | some e =>
        cases ht : e.type with
        | put => rw [lookup_afterPlan_put h hdir d hlk ht]
        | delete =>
            by_cases he0 : s.version.Holds 0 k e
            · have hnew := (h.toOrdered.lookup_eq_some hdir).mp hlk
              have hnone : (s.afterPlan plan).lookup k = none := by
                rw [hinv'.toOrdered.lookup_eq_none hdir]
                intro e' he'
                obtain ⟨l, hl, he'⟩ := (hasRecord_afterPlan_dropped h hdir d hall hlk he0 ht e').mp he'
                exact hsafe k e hnew he0 ht l e' hl he'
              rw [hnone, answer_delete ht]
              rfl
            · rw [lookup_afterPlan_tombstone h hdir d hlk ht (Or.inr he0)]

/-- The reads a step leaves behind, where it leaves them as the map says. -/
theorem refines_step {ops : List EngineOp} {op : EngineOp} {s s' : StorageEngine} (h : Inv s)
    (hdir : ExactIds s.dataDir) (hs : s.step op = some s') (hr : Refines ops s) :
    Refines (ops ++ [op]) s' ↔ s.TombstoneSafe op := by
  have hinv' := (h.step hdir hs).1
  have hr : ∀ k, (answer (s.lookup k)).map (·.value) = lastWrites ops k := fun k => h.get_eq k ▸ hr k
  unfold Refines
  simp only [hinv'.get_eq, lastWrites_concat]
  -- a step that changes no lookup and writes nothing
  have hquiet : (∀ k, s'.lookup k = s.lookup k) → (lastWrites ops).step op = lastWrites ops →
      ∀ k, (answer (s'.lookup k)).map (·.value) = (lastWrites ops).step op k := by
    intro hl hop k
    rw [hl, hr, hop]
  cases Effect.of_step hs with
  | put key value =>
      refine ⟨fun _ => trivial, ?_⟩
      intro _ k
      have hm := s.memtable.get_put key value s.seqNumber
      show _ = if k = key then some value else lastWrites ops k
      by_cases hk : k = key
      · rw [hk, h.lookup_stored_self hdir hm rfl, answer_put rfl, if_pos rfl]
        rfl
      · rw [lookup_stored_ne hm hk, hr, if_neg hk]
  | del key =>
      refine ⟨fun _ => trivial, ?_⟩
      intro _ k
      have hm := (s.get key).2.memtable.get_del key (s.get key).2.seqNumber
      have hdir' : ExactIds (s.get key).2.dataDir := (get_snd_dataDir s key).symm ▸ hdir
      show _ = if k = key then none else lastWrites ops k
      by_cases hk : k = key
      · rw [hk, (h.get key).lookup_stored_self hdir' hm rfl, answer_delete rfl, if_pos rfl]
        rfl
      · rw [lookup_stored_ne hm hk, get_snd_lookup, hr, if_neg hk]
  | get key => exact ⟨fun _ => trivial, fun _ => hquiet (get_snd_lookup s key) rfl⟩
  | rotate hs => exact ⟨fun _ => trivial, fun _ => hquiet (h.rotate hs).2 rfl⟩
  | flushInstall hs => exact ⟨fun _ => trivial, fun _ => hquiet (h.flushInstall hdir hs).2 rfl⟩
  | @compactL0toL1 plan hp =>
      obtain ⟨d, hall⟩ := planL0toL1_drawn hp
      show (∀ k, (answer ((s.afterPlan plan).lookup k)).map (·.value) = lastWrites ops k) ↔
        ((planL0toL1 s.version).isSome → _)
      rw [hp]
      have hiff := answer_afterPlan_iff h hdir d hall
      simp only [hr] at hiff
      rw [hiff]
      exact ⟨fun h _ => h, fun h => h rfl⟩
  | @compactlevelN level plan hp =>
      exact ⟨fun _ => trivial, fun _ => hquiet (lookup_afterPlan_levelN h hdir hp) rfl⟩
  | notDue debug => exact ⟨fun _ => trivial, fun _ => hquiet (fun _ => rfl) rfl⟩
  | noneAtL0 hp =>
      refine ⟨?_, fun _ => hquiet (fun _ => rfl) rfl⟩
      intro _ hsome
      rw [hp] at hsome
      exact absurd hsome (by simp)
  | noneAtLevel hp => exact ⟨fun _ => trivial, fun _ => hquiet (fun _ => rfl) rfl⟩

/-! ## Whole runs

Both directions for a run: while every compaction is safe the engine refines the map, and the first one that is not
leaves a deleted key readable. -/

/-- **The engine refines the map exactly along the tombstone-safe runs**: every read in every state of a run
    answers with the last write, if and only if no step of the run drops a tombstone that still hides
    something. -/
theorem refines_iff_tombstoneSafe {dataDir : Bytes} (hdir : ExactIds dataDir) {cacheSize : Nat}
    {ops : List EngineOp} {s : StorageEngine} (h : exec step (init dataDir cacheSize) ops = some s) :
    Along step Refines (init dataDir cacheSize) ops ↔
      Meets step TombstoneSafe (init dataDir cacheSize) ops := by
  refine along_iff_meets (?_) (?_) h
  · intro k
    rw [(inv_init dataDir cacheSize).get_eq]
    have hnone : (init dataDir cacheSize).lookup k = none := by
      rw [(inv_init dataDir cacheSize).toOrdered.lookup_eq_none hdir]
      exact not_hasRecord_init dataDir cacheSize k
    rw [hnone]
    rfl
  · intro pre op t v _ ht hv _ hr
    obtain ⟨hinv, hdata⟩ := inv_of_exec hdir ht
    exact refines_step hinv (hdata.symm ▸ hdir) hv hr

/-- A key is written, moved down to level 2, deleted, and its tombstone compacted together with another
    key. -/
def deletedKeyRun : List EngineOp :=
  [.put (Bytes.ascii "a") (Bytes.ascii "1"), .checkFlush true, .flushInstall, .compactL0toL1,
    .compactlevelN 1, .del (Bytes.ascii "a"), .put (Bytes.ascii "b") (Bytes.ascii "2"),
    .checkFlush true, .flushInstall, .compactL0toL1]

omit [Platform] in
theorem refines_iff_deletedKeyRun : letI := Platform.sample
    Along step Refines (init (Bytes.ascii "data") 0) deletedKeyRun ↔
      Meets step TombstoneSafe (init (Bytes.ascii "data") 0) deletedKeyRun := by
  let := Platform.sample
  have hrun : (exec step (init (Bytes.ascii "data") 0) deletedKeyRun).isSome := by decide +kernel
  obtain ⟨s, hs⟩ := Option.isSome_iff_exists.mp hrun
  exact refines_iff_tombstoneSafe exactIds_data hs

omit [Platform] in
/-- The deleted key is back: the map has no value for it, the engine answers with the old one. -/
theorem deletedKey_returns : letI := Platform.sample
    ∃ s, exec step (init (Bytes.ascii "data") 0) deletedKeyRun = some s ∧
      lastWrites deletedKeyRun (Bytes.ascii "a") = none ∧
      (s.get (Bytes.ascii "a")).1 = some ⟨Bytes.ascii "1", 1, .put⟩ ∧ ¬ Refines deletedKeyRun s := by
  let := Platform.sample
  have hget : (exec step (init (Bytes.ascii "data") 0) deletedKeyRun).map
      (fun s => (s.get (Bytes.ascii "a")).1) = some (some ⟨Bytes.ascii "1", 1, .put⟩) := by
    decide +kernel
  obtain ⟨s, hs, hget⟩ := Option.map_eq_some_iff.mp hget
  refine ⟨s, hs, by decide, hget, ?_⟩
  intro hr
  have := hr (Bytes.ascii "a")
  rw [hget] at this
  exact absurd this (by decide)

end StorageEngine

end KvStorageEngine
