import KvStorageEngine.Engine.Correctness.SearchCorrect

/-!
# `Engine.Correctness.CompactionCorrect` — what a compaction does to a version

Both compactions take some files of one level and every file of the next level that overlaps their range,
and put the merge of all these in the next level (`Drawn`). What follows for the version is proved once, for
any plan drawn in this way:

* the result is well-formed (`Drawn.wf`). The output can be wider than the range the inputs were chosen by,
  so this needs an argument: a file that stays lies on one side of that range, hence on the same side of
  every input (`Drawn.apart`);
* records only move down one level, and none overtakes another of its key (`Drawn.moved`, `Drawn.order`);
* the newest record of a key stays when it is a put (`Drawn.keeps_put`). A tombstone among the inputs does
  not.
-/

namespace KvStorageEngine

open Layered TableVersion

variable [Platform]

/-- How a plan was drawn from a version: the files it takes from level `src`, and a range covering them.
    The files it leaves on that level share no key with those it takes. -/
structure Drawn (v : TableVersion) (src : Nat) (plan : CompactionPlan) where
  sources : List SSTableMeta
  lo : Bytes
  hi : Bytes
  sub : ∀ m ∈ sources, m ∈ v.level src
  within : ∀ m ∈ sources, lo ≤ m.minKey ∧ m.maxKey ≤ hi
  closed : ∀ m ∈ sources, ∀ m' ∈ v.level src, m' ∉ sources →
    ∀ k e e', v.HoldsAt m k e → ¬ v.HoldsAt m' k e'
  plan_eq : mergePlan (v.tablesOf (sources ++ (v.level (src + 1)).filter (·.overlaps lo hi))) (src + 1)
    = some plan

/-- A plan is made only where the merge leaves something. -/
theorem mergePlan_eq_some {inputs : List (Nat × SSTable)} {target : Nat} {plan : CompactionPlan}
    (h : mergePlan inputs target = some plan) :
    plan.targetLevel = target ∧ plan.idsToRemove = inputs.map (·.1) ∧
      plan.mergedData = mergeTables (inputs.map (·.2)) ∧ plan.mergedData.isEmpty = false := by
  unfold mergePlan at h
  simp only at h
  split_ifs at h with hemp
  rw [← Option.some.inj h]
  exact ⟨rfl, rfl, rfl, by simpa using hemp⟩

/-! ## The two compactions draw their plans in this way

`compactL0toL1` takes all of level 0, `compactlevelN` one file; both add the files of the next level that overlap the
range of what they took. -/

omit [Platform] in
theorem keyRange_foldl_le (metas : List SSTableMeta) (r : Bytes × Bytes) :
    (metas.foldl (fun r x => (if x.minKey < r.1 then x.minKey else r.1,
        if r.2 < x.maxKey then x.maxKey else r.2)) r).1 ≤ r.1 ∧
      r.2 ≤ (metas.foldl (fun r x => (if x.minKey < r.1 then x.minKey else r.1,
        if r.2 < x.maxKey then x.maxKey else r.2)) r).2 := by
  induction metas generalizing r with
  | nil => exact ⟨le_refl _, le_refl _⟩
  | cons m metas ih =>
      obtain ⟨hlo, hhi⟩ := ih (if m.minKey < r.1 then m.minKey else r.1,
        if r.2 < m.maxKey then m.maxKey else r.2)
      refine ⟨hlo.trans ?_, le_trans ?_ hhi⟩
      · show (if m.minKey < r.1 then m.minKey else r.1) ≤ r.1
        split_ifs with h
        · exact h.le
        · exact le_refl _
      · show r.2 ≤ if r.2 < m.maxKey then m.maxKey else r.2
        split_ifs with h
        · exact h.le
        · exact le_refl _

omit [Platform] in
/-- The key range of a level covers all its files. -/
theorem keyRange_covers (m : SSTableMeta) (metas : List SSTableMeta) :
    ∀ x ∈ m :: metas, (keyRange m metas).1 ≤ x.minKey ∧ x.maxKey ≤ (keyRange m metas).2 := by
  have hgen : ∀ (l : List SSTableMeta) (r : Bytes × Bytes), ∀ x ∈ l,
      (l.foldl (fun r x => (if x.minKey < r.1 then x.minKey else r.1,
        if r.2 < x.maxKey then x.maxKey else r.2)) r).1 ≤ x.minKey ∧
      x.maxKey ≤ (l.foldl (fun r x => (if x.minKey < r.1 then x.minKey else r.1,
        if r.2 < x.maxKey then x.maxKey else r.2)) r).2 := by
    intro l
    induction l with
    | nil => exact fun _ x hx => absurd hx List.not_mem_nil
    | cons y l ih =>
        intro r x hx
        rcases List.mem_cons.mp hx with rfl | hx
        · obtain ⟨hlo, hhi⟩ := keyRange_foldl_le l (if x.minKey < r.1 then x.minKey else r.1,
            if r.2 < x.maxKey then x.maxKey else r.2)
          refine ⟨hlo.trans ?_, le_trans ?_ hhi⟩
          · show (if x.minKey < r.1 then x.minKey else r.1) ≤ x.minKey
            split_ifs with h
            · exact le_refl _
            · exact not_lt.mp h
          · show x.maxKey ≤ if r.2 < x.maxKey then x.maxKey else r.2
            split_ifs with h
            · exact le_refl _
            · exact not_lt.mp h
        · exact ih _ x hx
  intro x hx
  rcases List.mem_cons.mp hx with rfl | hx
  · exact keyRange_foldl_le metas (x.minKey, x.maxKey)
  · exact hgen metas (m.minKey, m.maxKey) x hx

/-- `compactL0toL1` takes all of level 0. -/
theorem planL0toL1_drawn {v : TableVersion} {plan : CompactionPlan} (h : planL0toL1 v = some plan) :
    ∃ d : Drawn v 0 plan, d.sources = v.level 0 := by
  unfold planL0toL1 at h
  split at h
  · exact absurd h (by simp)
  · rename_i m rest hl
    refine ⟨⟨m :: rest, (keyRange m rest).1, (keyRange m rest).2, fun x hx => hl ▸ hx,
      keyRange_covers m rest, fun _ _ x hx hn => absurd (hl ▸ hx) hn, ?_⟩, hl.symm⟩
    rw [← h, tablesOf, List.filterMap_append]
    rfl

/-- `compactlevelN` takes the first file of its level. -/
theorem planLevelN_drawn {dataDir : Bytes} {n : Nat} {v : TableVersion} {level : Nat}
    {plan : CompactionPlan} (hwf : v.Wf dataDir n) (hdir : ExactIds dataDir)
    (h : planLevelN v level = some plan) : 0 < level ∧ Nonempty (Drawn v level plan) := by
  unfold planLevelN at h
  split_ifs at h with h0
  split at h
  · exact absurd h (by simp)
  · rename_i src rest hl
    have hsrc : src ∈ v.level level := hl ▸ List.mem_cons_self
    split at h
    · exact absurd h (by simp)
    · rename_i srcTable ht
      refine ⟨by omega, ⟨⟨[src], src.minKey, src.maxKey, ?_, ?_, ?_, ?_⟩⟩⟩
      · intro m hm
        rwa [List.mem_singleton.mp hm]
      · intro m hm
        rw [List.mem_singleton.mp hm]
        exact ⟨le_refl _, le_refl _⟩
      · -- the files of a sorted level share no key
        intro m hm m' hm' hn k e e' he he'
        rw [List.mem_singleton.mp hm] at he
        have hne : src ≠ m' := fun heq => hn (List.mem_singleton.mpr heq.symm)
        obtain ⟨hlo, hhi⟩ := hwf.in_range hdir (mem_metas_of_level hsrc) he
        obtain ⟨hlo', hhi'⟩ := hwf.in_range hdir (mem_metas_of_level hm') he'
        rcases hwf.apart (by omega) hsrc hm' hne with hlt | hlt
        · exact absurd (hhi.trans_lt hlt) (not_lt.mpr hlo')
        · exact absurd (hhi'.trans_lt hlt) (not_lt.mpr hlo)
      · rw [← h, tablesOf, List.filterMap_append, List.filterMap_cons, ht]
        rfl

/-! ## What a plan says

The merged data are the newest records of the inputs, without the tombstones. This needs that every input has its
table (`Wf`), so that none is passed over. -/

namespace Drawn

variable {dataDir : Bytes} {n src : Nat} {v : TableVersion} {plan : CompactionPlan}

/-- All files the compaction merges. -/
def inputs (d : Drawn v src plan) : List SSTableMeta :=
  d.sources ++ (v.level (src + 1)).filter (·.overlaps d.lo d.hi)

/-- Some input has the record `e` of `k`. -/
def InputHolds (d : Drawn v src plan) (k : Bytes) (e : Entry) : Prop :=
  ∃ m ∈ d.inputs, v.HoldsAt m k e

theorem mem_inputs (d : Drawn v src plan) {m : SSTableMeta} :
    m ∈ d.inputs ↔ m ∈ d.sources ∨ (m ∈ v.level (src + 1) ∧ m.overlaps d.lo d.hi = true) := by
  rw [inputs, List.mem_append, List.mem_filter]

theorem level_of_mem_inputs (d : Drawn v src plan) {m : SSTableMeta} (hm : m ∈ d.inputs) :
    m ∈ v.level src ∨ m ∈ v.level (src + 1) :=
  (d.mem_inputs.mp hm).imp (d.sub m) And.left

theorem mem_metas_of_mem_inputs (d : Drawn v src plan) {m : SSTableMeta} (hm : m ∈ d.inputs) :
    m ∈ v.metas := by
  rcases d.level_of_mem_inputs hm with hm | hm <;> exact mem_metas_of_level hm

/-- What an input holds, the version holds on one of the two levels. -/
theorem inputHolds (d : Drawn v src plan) {k : Bytes} {e : Entry} (h : d.InputHolds k e) :
    v.Holds src k e ∨ v.Holds (src + 1) k e := by
  obtain ⟨m, hm, he⟩ := h
  exact (d.level_of_mem_inputs hm).imp (fun hm => ⟨m, hm, he⟩) fun hm => ⟨m, hm, he⟩

/-- The plan merges the inputs' tables into the next level and removes the inputs. -/
theorem spec (d : Drawn v src plan) (hwf : v.Wf dataDir n) (hdir : ExactIds dataDir)
    (haged : Aged Entry.seq v.Holds) :
    plan.targetLevel = src + 1 ∧ plan.idsToRemove = d.inputs.map (·.id) ∧
      plan.mergedData.isEmpty = false ∧
      ∀ k e, plan.mergedData.find? k = some e ↔
        (d.InputHolds k e ∧ ∀ e', d.InputHolds k e' → e'.seq ≤ e.seq) ∧ e.type = .put := by
  obtain ⟨htarget, hremove, hmerged, hemp⟩ := mergePlan_eq_some d.plan_eq
  -- every file of a well-formed version has its table, so none is passed over
  have hids : ∀ metas : List SSTableMeta, (∀ m ∈ metas, m ∈ v.metas) →
      (v.tablesOf metas).map (·.1) = metas.map (·.id) := by
    intro metas
    induction metas with
    | nil => exact fun _ => rfl
    | cons m metas ih =>
        intro hm
        obtain ⟨t, ht⟩ := hwf.findSSTableById_isSome hdir (hm m List.mem_cons_self)
        have ih := ih fun x hx => hm x (List.mem_cons_of_mem _ hx)
        unfold tablesOf at ih ⊢
        rw [List.filterMap_cons, ht]
        show m.id :: _ = m.id :: _
        rw [ih]
  -- the records of the merged tables are those of the inputs
  have hholds : ∀ k e, (∃ t ∈ (v.tablesOf d.inputs).map (·.2), t.records.find? k = some e) ↔
      d.InputHolds k e := by
    intro k e
    unfold InputHolds HoldsAt tablesOf
    constructor
    · rintro ⟨t, ht, hk⟩
      obtain ⟨p, hp, rfl⟩ := List.mem_map.mp ht
      obtain ⟨m, hm, hmp⟩ := List.mem_filterMap.mp hp
      obtain ⟨t', ht', rfl⟩ := Option.map_eq_some_iff.mp hmp
      exact ⟨m, hm, t', ht', hk⟩
    · rintro ⟨m, hm, t, ht, hk⟩
      refine ⟨t, List.mem_map.mpr ⟨(m.id, t), List.mem_filterMap.mpr ⟨m, hm, ?_⟩, rfl⟩, hk⟩
      rw [ht]
      rfl
  refine ⟨htarget, ?_, hemp, fun k e => ?_⟩
  · rw [hremove]
    exact hids d.inputs fun m hm => d.mem_metas_of_mem_inputs hm
  have hties : ∀ k e e', d.InputHolds k e → d.InputHolds k e' → e.seq = e'.seq → e = e' := by
    intro k e e' he he' hs
    rcases d.inputHolds he with he | he <;> rcases d.inputHolds he' with he' | he' <;>
      exact haged.eq_of_seq_eq he he' hs
  rw [hmerged]
  show (mergeTables ((v.tablesOf d.inputs).map (·.2))).find? k = some e ↔ _
  rw [mergeTables_spec fun k e e' he he' => hties k e e' ((hholds k e).mp he) ((hholds k e').mp he')]
  simp only [hholds]

/-- A file of the version is removed exactly when it is an input. -/
theorem mem_idsToRemove (d : Drawn v src plan) (hwf : v.Wf dataDir n) (hdir : ExactIds dataDir)
    (haged : Aged Entry.seq v.Holds) {m : SSTableMeta} {i : Nat} (hm : m ∈ v.level i) :
    m.id ∈ plan.idsToRemove ↔ m ∈ d.inputs := by
  rw [(d.spec hwf hdir haged).2.1]
  constructor
  · intro hid
    obtain ⟨x, hx, he⟩ := List.mem_map.mp hid
    rcases d.level_of_mem_inputs hx with hl | hl <;>
      exact (hwf.eq_of_id_eq hl hm he).2 ▸ hx
  · intro hx
    exact List.mem_map_of_mem hx

/-- A file of the next level that is not an input lies on one side of all inputs. -/
theorem apart (d : Drawn v src plan) (hwf : v.Wf dataDir n) (hdir : ExactIds dataDir)
    {y : SSTableMeta} (hy : y ∈ v.level (src + 1)) (hn : y ∉ d.inputs) :
    (∀ k e, d.InputHolds k e → y.maxKey < k) ∨ (∀ k e, d.InputHolds k e → k < y.minKey) := by
  have hle := hwf.range_le y (mem_metas_of_level hy)
  have hover : y.maxKey < d.lo ∨ d.hi < y.minKey := by
    by_contra h
    refine hn (d.mem_inputs.mpr (Or.inr ⟨hy, ?_⟩))
    unfold SSTableMeta.overlaps
    simpa [not_or] using h
  -- an input of the next level is apart from `y`, and reaches into the range
  have hnext : ∀ x ∈ v.level (src + 1), x.overlaps d.lo d.hi = true →
      (x.maxKey < y.minKey ∨ y.maxKey < x.minKey) ∧ d.lo ≤ x.maxKey ∧ x.minKey ≤ d.hi := by
    intro x hx hov
    have hne : x ≠ y := by
      rintro rfl
      exact hn (d.mem_inputs.mpr (Or.inr ⟨hx, hov⟩))
    refine ⟨hwf.apart (by omega) hx hy hne, ?_⟩
    unfold SSTableMeta.overlaps at hov
    simpa [not_or] using hov
  rcases hover with hlt | hlt
  · left
    rintro k e ⟨x, hx, he⟩
    have hin := hwf.in_range hdir (d.mem_metas_of_mem_inputs hx) he
    rcases d.mem_inputs.mp hx with hx | ⟨hx, hov⟩
    · exact (hlt.trans_le (d.within x hx).1).trans_le hin.1
    · obtain ⟨hap | hap, hlo, -⟩ := hnext x hx hov
      · exact absurd (hlt.trans_le hlo |>.trans hap) (not_lt.mpr hle)
      · exact hap.trans_le hin.1
  · right
    rintro k e ⟨x, hx, he⟩
    have hin := hwf.in_range hdir (d.mem_metas_of_mem_inputs hx) he
    rcases d.mem_inputs.mp hx with hx | ⟨hx, hov⟩
    · exact hin.2.trans_lt ((d.within x hx).2.trans_lt hlt)
    · obtain ⟨hap | hap, -, hhi⟩ := hnext x hx hov
      · exact hin.2.trans_lt hap
      · exact absurd (hap.trans_le hhi |>.trans hlt) (not_lt.mpr hle)

end Drawn

/-! ## The version after a compaction

What the version holds afterwards, in terms of what it held before. -/

/-- The version a plan leaves behind when it is carried out on `v` with the next id. -/
def compacted (v : TableVersion) (plan : CompactionPlan) (dataDir : Bytes) (n maxSeq : Nat) :
    TableVersion :=
  let sst := SSTable.flush plan.mergedData (sstableDir dataDir) (n + 1)
  v.copyFrom.installMerged plan.idsToRemove sst (sst.meta (n + 1) maxSeq plan.targetLevel)

/-- A copy of a well-formed version is well-formed. -/
theorem Wf_copyFrom {dataDir : Bytes} {n : Nat} {v : TableVersion} (h : v.Wf dataDir n) :
    v.copyFrom.Wf dataDir n := ⟨h.toJoined.of_perm (List.Perm.refl _) rfl, h.disjoint⟩

namespace Drawn

variable {dataDir : Bytes} {n src maxSeq : Nat} {v : TableVersion} {plan : CompactionPlan}

/-- What the compacted version holds: the merge on the next level, and the files that are no inputs. -/
theorem holds_iff (d : Drawn v src plan) (hwf : v.Wf dataDir n) (hdir : ExactIds dataDir)
    (haged : Aged Entry.seq v.Holds) (i : Nat) (k : Bytes) (e : Entry) :
    (compacted v plan dataDir n maxSeq).Holds i k e ↔
      (i = src + 1 ∧ (d.InputHolds k e ∧ ∀ e', d.InputHolds k e' → e'.seq ≤ e.seq) ∧ e.type = .put) ∨
      ∃ x ∈ v.level i, x ∉ d.inputs ∧ v.HoldsAt x k e := by
  obtain ⟨htarget, -, -, hmerged⟩ := d.spec hwf hdir haged
  unfold compacted
  rw [(Wf_copyFrom hwf).holds_installMerged hdir rfl rfl, SSTable.records_flush, hmerged]
  show (i = plan.targetLevel ∧ _) ∨ (∃ x ∈ v.level i, x.id ∉ plan.idsToRemove ∧ v.HoldsAt x k e) ↔ _
  rw [htarget]
  refine or_congr_right (exists_congr fun x => and_congr_right fun hx => ?_)
  rw [d.mem_idsToRemove hwf hdir haged hx]

/-- **A compaction keeps a version well-formed.** -/
theorem wf (d : Drawn v src plan) (hwf : v.Wf dataDir n) (hdir : ExactIds dataDir)
    (haged : Aged Entry.seq v.Holds) : (compacted v plan dataDir n maxSeq).Wf dataDir (n + 1) := by
  obtain ⟨htarget, -, hne, hmerged⟩ := d.spec hwf hdir haged
  have hle := SSTable.minKey_le_maxKey_flush hne (sstableDir dataDir) (n + 1)
  refine (Wf_copyFrom hwf).installMerged hdir rfl rfl ⟨rfl, rfl⟩ hle ?_
  intro x hx hid
  have hx : x ∈ v.level (src + 1) := htarget ▸ hx
  have hn : x ∉ d.inputs := fun hin => hid ((d.mem_idsToRemove hwf hdir haged hx).mpr hin)
  obtain ⟨lo, hi, hlo, hhi⟩ := SortedMap.exists_bounds hne
  obtain ⟨elo, helo⟩ := SortedMap.firstKey?_mem hlo
  obtain ⟨ehi, hehi⟩ := SortedMap.lastKey?_mem hhi
  show x.maxKey < plan.mergedData.firstKey?.getD [] ∨ plan.mergedData.lastKey?.getD [] < x.minKey
  rw [hlo, hhi]
  exact (d.apart hwf hdir hx hn).imp (fun h => h lo elo ((hmerged lo elo).mp helo).1.1)
    fun h => h hi ehi ((hmerged hi ehi).mp hehi).1.1

/-- Where a record of the compacted version was before: on the same level, or in a file the compaction
    took from the level above. -/
theorem moved (d : Drawn v src plan) (hwf : v.Wf dataDir n) (hdir : ExactIds dataDir)
    (haged : Aged Entry.seq v.Holds) {i : Nat} {k : Bytes} {e : Entry}
    (h : (compacted v plan dataDir n maxSeq).Holds i k e) :
    v.Holds i k e ∨ (i = src + 1 ∧ ∃ m ∈ d.sources, v.HoldsAt m k e) := by
  rcases (d.holds_iff hwf hdir haged i k e).mp h with ⟨hi, ⟨⟨⟨m, hm, he⟩, -⟩, -⟩⟩ | ⟨x, hx, -, he⟩
  · rcases d.mem_inputs.mp hm with hm | ⟨hm, -⟩
    · exact Or.inr ⟨hi, m, hm, he⟩
    · exact Or.inl ⟨m, hi ▸ hm, he⟩
  · exact Or.inl ⟨x, hx, he⟩

/-- Records of one key keep their order. -/
theorem order (d : Drawn v src plan) (hwf : v.Wf dataDir n) (hdir : ExactIds dataDir)
    (haged : Aged Entry.seq v.Holds) {i j : Nat} {k : Bytes} {e e' : Entry} (hij : i < j)
    (h : (compacted v plan dataDir n maxSeq).Holds i k e)
    (h' : (compacted v plan dataDir n maxSeq).Holds j k e') :
    ∃ a b, a < b ∧ v.Holds a k e ∧ v.Holds b k e' := by
  rcases d.moved hwf hdir haged h' with hj | ⟨hj, m', hm', he'⟩
  · rcases d.moved hwf hdir haged h with hi | ⟨hi, m, hm, he⟩
    · exact ⟨i, j, hij, hi, hj⟩
    · exact ⟨src, j, by omega, ⟨m, d.sub m hm, he⟩, hj⟩
  · -- the older record came down from `src`, so the newer one was not left behind there
    rcases (d.holds_iff hwf hdir haged i k e).mp h with ⟨hi, -⟩ | ⟨x, hx, hn, he⟩
    · exact absurd hij (by omega)
    · rcases Nat.lt_or_ge i src with hlt | hge
      · exact ⟨i, src, hlt, ⟨x, hx, he⟩, ⟨m', d.sub m' hm', he'⟩⟩
      · have hi : i = src := by omega
        have hns : x ∉ d.sources := fun hs => hn (d.mem_inputs.mpr (Or.inl hs))
        exact absurd he (d.closed m' hm' x (hi ▸ hx) hns k e' e he')

/-- The newest record of a key stays when it is a put. -/
theorem keeps_put (d : Drawn v src plan) (hwf : v.Wf dataDir n) (hdir : ExactIds dataDir)
    (haged : Aged Entry.seq v.Holds) {a : Nat} {k : Bytes} {e : Entry} (h : v.Holds a k e)
    (hmax : ∀ i e', v.Holds i k e' → e'.seq ≤ e.seq) (hput : e.type = .put) :
    ∃ i, (compacted v plan dataDir n maxSeq).Holds i k e := by
  obtain ⟨x, hx, he⟩ := h
  by_cases hin : x ∈ d.inputs
  · refine ⟨src + 1, (d.holds_iff hwf hdir haged _ k e).mpr (Or.inl ⟨rfl, ⟨⟨x, hin, he⟩, ?_⟩, hput⟩)⟩
    intro e' he'
    rcases d.inputHolds he' with he' | he' <;> exact hmax _ e' he'
  · exact ⟨a, (d.holds_iff hwf hdir haged a k e).mpr (Or.inr ⟨x, hx, hin, he⟩)⟩

/-- The levels the compaction does not touch. -/
theorem holds_other (d : Drawn v src plan) (hwf : v.Wf dataDir n) (hdir : ExactIds dataDir)
    (haged : Aged Entry.seq v.Holds) {i : Nat} (hi : i ≠ src) (hi' : i ≠ src + 1) (k : Bytes)
    (e : Entry) : (compacted v plan dataDir n maxSeq).Holds i k e ↔ v.Holds i k e := by
  rw [d.holds_iff hwf hdir haged]
  constructor
  · rintro (⟨h, -⟩ | ⟨x, hx, -, he⟩)
    · exact absurd h hi'
    · exact ⟨x, hx, he⟩
  · rintro ⟨x, hx, he⟩
    refine Or.inr ⟨x, hx, fun hin => ?_, he⟩
    rcases d.level_of_mem_inputs hin with hl | hl
    · exact hi (hwf.eq_of_id_eq hx hl rfl).1
    · exact hi' (hwf.eq_of_id_eq hx hl rfl).1

end Drawn

end KvStorageEngine
