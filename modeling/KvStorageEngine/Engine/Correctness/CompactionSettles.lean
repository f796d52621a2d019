import KvStorageEngine.Engine.Correctness.EngineInvariant

/-!
# `Engine.Correctness.CompactionSettles` — compactions come to an end, and what they cost

A compaction with a result takes at least one file off its level and adds one to the next. So where a file weighs as much
as there are levels from its own down to the last, every compaction with a result makes the version lighter
(`weight_afterPlan`), and only the flush thread makes it heavier, by four for each table.

Two things follow. However flushes and compactions are mixed, no more than five tables are written for one round of the
flush thread (`tables_written_le`). And without flushes the background rounds come to rest: after as many of them as the
version weighs at most, a round changes nothing (`background_settles`). What still counts as in need of a compaction
then is what no compaction has a result for.
-/

namespace KvStorageEngine

open Run TableVersion

variable [Platform]

namespace StorageEngine

/-- The files, each with the number of levels from its own to the last. -/
def weight (v : TableVersion) : Nat :=
  4 * (v.level 0).length + 3 * (v.level 1).length + 2 * (v.level 2).length + (v.level 3).length

/-- What the compaction of a level has decided to do. -/
def planOf (v : TableVersion) (level : Nat) : Option CompactionPlan :=
  if level = 0 then planL0toL1 v else planLevelN v level

/-! ## A. One compaction

The inputs of a plan leave the source and the target level, its output goes to the target, and the source level has
given at least one file. -/

section Compaction

variable {s : StorageEngine} {plan : CompactionPlan} {level : Nat}

/-- A plan takes a file off its level. -/
theorem source_of_planOf (h : Inv s) (hdir : ExactIds s.dataDir) (hplan : planOf s.version level = some plan) :
    plan.targetLevel = level + 1 ∧ ∃ m ∈ s.version.level level, m.id ∈ plan.idsToRemove := by
  unfold planOf at hplan
  split_ifs at hplan with hzero
  · subst hzero
    obtain ⟨d, hall⟩ := planL0toL1_drawn hplan
    obtain ⟨htarget, hids, -⟩ := d.spec h.wf hdir h.toOrdered.version_aged
    refine ⟨htarget, ?_⟩
    cases hlevel : s.version.level 0 with
    | nil => exact absurd hplan (by simp [planL0toL1, hlevel])
    | cons m rest =>
        refine ⟨m, List.mem_cons_self, hids ▸ List.mem_map_of_mem (d.mem_inputs.mpr (Or.inl ?_))⟩
        rw [hall, hlevel]
        exact List.mem_cons_self
  · unfold planLevelN at hplan
    rw [if_neg hzero] at hplan
    split at hplan <;> try contradiction
    next src rest hlevel =>
      split at hplan <;> try contradiction
      next srcTable htable =>
        obtain ⟨htarget, hids, -⟩ := mergePlan_eq_some hplan
        refine ⟨htarget, src, hlevel ▸ List.mem_cons_self, ?_⟩
        rw [hids]
        exact List.mem_cons_self

/-- The levels after a plan. -/
theorem length_level_afterPlan (plan : CompactionPlan) (i : Nat) :
    ((s.afterPlan plan).version.level i).length =
      ((s.version.level i).filter fun x => !plan.idsToRemove.contains x.id).length +
        if i = plan.targetLevel then 1 else 0 := by
  show ((s.version.copyFrom.installMerged _ _ _).level i).length = _
  rw [level_installMerged]
  show (if i = plan.targetLevel then _ else _ : List SSTableMeta).length = _
  split_ifs with hi
  · rw [sortByMinKey, List.length_insertionSort, List.length_append]
    rfl
  · rfl

/-- **A compaction with a result makes the version lighter.** From the last level on, it makes it no heavier. -/
theorem weight_afterPlan (h : Inv s) (hdir : ExactIds s.dataDir) (hplan : planOf s.version level = some plan) :
    weight (s.afterPlan plan).version + (if level < 4 then 1 else 0) ≤ weight s.version := by
  obtain ⟨htarget, m, hm, hid⟩ := source_of_planOf h hdir hplan
  have hkept : ∀ i, ((s.version.level i).filter fun x => !plan.idsToRemove.contains x.id).length ≤
      (s.version.level i).length := fun i => List.length_filter_le _ _
  have htaken : ((s.version.level level).filter fun x => !plan.idsToRemove.contains x.id).length <
      (s.version.level level).length := by
    rw [List.length_filter_lt_length_iff_exists]
    exact ⟨m, hm, by simpa using hid⟩
  have h0 := hkept 0
  have h1 := hkept 1
  have h2 := hkept 2
  have h3 := hkept 3
  unfold weight
  simp only [length_level_afterPlan, htarget]
  rcases Nat.lt_or_ge level 4 with hlevel | hlevel
  · obtain rfl | rfl | rfl | rfl : level = 0 ∨ level = 1 ∨ level = 2 ∨ level = 3 := by omega
    all_goals
      simp only [reduceIte, Nat.reduceAdd, Nat.reduceEqDiff, Nat.reduceLT]
      omega
  · have hout : ∀ i < 4, ¬ i = level + 1 := by omega
    rw [if_neg (hout 0 (by omega)), if_neg (hout 1 (by omega)), if_neg (hout 2 (by omega)),
      if_neg (hout 3 (by omega)), if_neg (by omega)]
    omega

/-- The background thread's call for a level that needs it. -/
theorem compactIfNeeded_eq (s : StorageEngine) (level : Nat) :
    s.compactIfNeeded level = s ∧ (shouldCompactUnlocked level s.version = true → planOf s.version level = none) ∨
      ∃ plan, planOf s.version level = some plan ∧ s.compactIfNeeded level = s.afterPlan plan := by
  have hcompact : (if level = 0 then s.compactL0toL1 else s.compactlevelN level) =
      ((planOf s.version level).map s.afterPlan).getD s := by
    unfold planOf
    split_ifs
    · rw [compactL0toL1_eq]
      cases planL0toL1 s.version <;> rfl
    · rw [compactlevelN_eq]
      cases planLevelN s.version level <;> rfl
  unfold compactIfNeeded
  rw [hcompact]
  split_ifs with hneeded
  · cases planOf s.version level with
    | none => exact Or.inl ⟨rfl, fun _ => rfl⟩
    | some plan => exact Or.inr ⟨plan, rfl, rfl⟩
  · exact Or.inl ⟨rfl, fun hneeded' => absurd hneeded' hneeded⟩

/-- A plan of either kind keeps the invariant. -/
theorem inv_afterPlan_of_planOf (h : Inv s) (hdir : ExactIds s.dataDir) (hplan : planOf s.version level = some plan) :
    Inv (s.afterPlan plan) := by
  unfold planOf at hplan
  split_ifs at hplan
  · obtain ⟨d, -⟩ := planL0toL1_drawn hplan
    exact h.afterPlan hdir d
  · obtain ⟨-, ⟨d⟩⟩ := planLevelN_drawn h.wf hdir hplan
    exact h.afterPlan hdir d

end Compaction

/-! ## B. What a run writes

A round of the flush thread adds a table to level 0, which weighs four; a compaction writes one table and takes at
least one off the weight. -/

/-- The steps that may write a table without making the version lighter. -/
def isCharged : EngineOp → Bool
  | .flushInstall => true
  | .compactlevelN level => decide (4 ≤ level)
  | _ => false

/-- A table more at level 0. -/
theorem weight_flushed (s : StorageEngine) (imm : MemTable) : weight (s.flushed imm) = weight s.version + 4 := by
  have hlevel : ∀ i, ((s.flushed imm).level i).length = (s.version.level i).length + if i = 0 then 1 else 0 := by
    intro i
    let sst := SSTable.flush imm.snapshot (sstableDir s.dataDir) (s.flushCounter + 1)
    have hadded : (s.flushed imm).level i = _ :=
      level_addSSTable s.version.copyFrom sst (sst.meta (s.flushCounter + 1) (s.seqNumber - 1) 0) i
    rw [hadded]
    show (if i = 0 then _ else _ : List SSTableMeta).length = _
    split_ifs
    · rw [List.length_append]
      rfl
    · rfl
  simp only [weight, hlevel, reduceIte, Nat.reduceEqDiff]
  omega

/-- A table that a step writes makes the version lighter, or it is charged. -/
theorem charged_step {s s' : StorageEngine} (h : Inv s) (hdir : ExactIds s.dataDir) {op : EngineOp}
    (hs : s.step op = some s') :
    s'.flushCounter + weight s'.version ≤ s.flushCounter + weight s.version + if isCharged op then 5 else 0 := by
  cases Effect.of_step hs with
  | put key value => exact Nat.le_refl _
  | del key =>
      obtain ⟨cache, hget, -⟩ := get_snd s key
      rw [hget]
      exact Nat.le_refl _
  | get key =>
      obtain ⟨cache, hget, -⟩ := get_snd s key
      rw [hget]
      exact Nat.le_refl _
  | rotate hs =>
      rw [(rotate_eq_some hs).2]
      exact Nat.le_refl _
  | flushInstall hs =>
      obtain ⟨imm, -, ⟨-, rfl⟩ | ⟨-, rfl⟩⟩ := flushInstall_eq_some hs
      · exact Nat.le_add_right _ _
      · have hweight := weight_flushed s imm
        show s.flushCounter + 1 + weight (s.flushed imm) ≤ s.flushCounter + weight s.version + 5
        omega
  | @compactL0toL1 plan hp =>
      have hplan : planOf s.version 0 = some plan := hp
      have hweight := weight_afterPlan h hdir hplan
      show s.flushCounter + 1 + weight (s.afterPlan plan).version ≤ s.flushCounter + weight s.version
      simp only [Nat.reduceLT, reduceIte] at hweight
      omega
  | @compactlevelN level plan hp =>
      have hplan : planOf s.version level = some plan := by
        unfold planOf
        split_ifs with hzero
        · exact absurd hp (by simp [planLevelN, hzero])
        · exact hp
      have hweight := weight_afterPlan h hdir hplan
      show s.flushCounter + 1 + weight (s.afterPlan plan).version ≤ _
      by_cases hdeep : 4 ≤ level
      · have hcharged : isCharged (.compactlevelN level) = true := decide_eq_true hdeep
        rw [if_pos hcharged]
        omega
      · rw [if_pos (by omega)] at hweight
        exact le_trans (by omega) (Nat.le_add_right _ _)
  | notDue debug => exact Nat.le_refl _
  | noneAtL0 hp => exact Nat.le_refl _
  | noneAtLevel hp => exact Nat.le_add_right _ _

/-- **What the tables cost.** However flushes and compactions of the levels above the last are mixed, and with whatever
    reads and writes between them, at most five tables are written for a round of the flush thread; the files that a
    compaction could still move are paid for already. -/
theorem tables_written_le {dataDir : Bytes} (hdir : ExactIds dataDir) {cacheSize : Nat} {ops : List EngineOp}
    {s : StorageEngine} (hlevels : ∀ level, .compactlevelN level ∈ ops → level < 4)
    (h : exec step (init dataDir cacheSize) ops = some s) :
    s.flushCounter + weight s.version ≤ 5 * ops.count .flushInstall := by
  have hcharged : ops.countP isCharged = ops.count .flushInstall := by
    refine List.countP_congr fun op hop => ?_
    cases op with
    | compactlevelN level => simp [isCharged, hlevels level hop]
    | _ => simp [isCharged]
  have hrun := exec_countP_le (I := fun s => Inv s ∧ s.dataDir = dataDir)
    (fun s => s.flushCounter + weight s.version) (fun _ => false) isCharged 5
    (fun s op t hinv hs => by
      obtain ⟨hinv', hdata'⟩ := hinv.1.step (hinv.2 ▸ hdir) hs
      exact ⟨hinv', hdata'.trans hinv.2⟩)
    (fun s op t hinv hs => charged_step hinv.1 (hinv.2 ▸ hdir) hs) ⟨inv_init dataDir cacheSize, rfl⟩ h
  rw [List.countP_false, hcharged] at hrun
  have hstart : (init dataDir cacheSize).flushCounter + weight (init dataDir cacheSize).version = 0 := rfl
  omega

omit [Platform] in
theorem tables_written_le_layeredRun : letI := Platform.sample
    ∃ s, exec step (init (Bytes.ascii "data") 0) layeredRun = some s ∧ s.flushCounter = 4 ∧
      s.flushCounter + weight s.version ≤ 10 := by
  let := Platform.sample
  have hrun : (exec step (init (Bytes.ascii "data") 0) layeredRun).map (·.flushCounter) = some 4 := by decide +kernel
  obtain ⟨s, hs, hcounter⟩ := Option.map_eq_some_iff.mp hrun
  have hlevels : ∀ level, .compactlevelN level ∈ layeredRun → level < 4 := by simp [layeredRun]
  exact ⟨s, hs, hcounter, tables_written_le exactIds_data hlevels hs⟩

/-! ## C. The background rounds

`maybeCompactBackground` tries the levels in turn, so a round either leaves the version as it is or makes it lighter,
and the weight bounds the number of rounds of the second kind. -/

/-- A round of the background thread changes nothing any more, for no compaction it still sees a need for has a
    result. -/
def AtRest (s : StorageEngine) : Prop :=
  s.maybeCompactBackground = s ∧
    ∀ level < 3, shouldCompactUnlocked level s.version = true → planOf s.version level = none

/-- Going through some levels: nothing happens, or the version gets lighter. -/
theorem foldl_compactIfNeeded {s : StorageEngine} (h : Inv s) (hdir : ExactIds s.dataDir) (levels : List Nat)
    (hlevels : ∀ level ∈ levels, level < 4) :
    (levels.foldl compactIfNeeded s = s ∧
      ∀ level ∈ levels, shouldCompactUnlocked level s.version = true → planOf s.version level = none) ∨
    (Inv (levels.foldl compactIfNeeded s) ∧ (levels.foldl compactIfNeeded s).dataDir = s.dataDir ∧
      weight (levels.foldl compactIfNeeded s).version < weight s.version) := by
  induction levels generalizing s with
  | nil => exact Or.inl ⟨rfl, by simp⟩
  | cons level levels ih =>
      have hrest := fun l hl => hlevels l (List.mem_cons_of_mem _ hl)
      rw [List.foldl_cons]
      rcases compactIfNeeded_eq s level with ⟨hsame, hnone⟩ | ⟨plan, hplan, hafter⟩
      · rw [hsame]
        refine (ih h hdir hrest).imp_left fun ⟨hfold, hall⟩ => ⟨hfold, ?_⟩
        exact List.forall_mem_cons.mpr ⟨hnone, hall⟩
      · rw [hafter]
        have hinv := inv_afterPlan_of_planOf h hdir hplan
        have hweight := weight_afterPlan h hdir hplan
        rw [if_pos (hlevels level List.mem_cons_self)] at hweight
        right
        rcases ih hinv hdir hrest with ⟨hfold, -⟩ | ⟨hinv', hdata, hlt⟩
        · rw [hfold]
          exact ⟨hinv, rfl, by omega⟩
        · exact ⟨hinv', hdata, by omega⟩

/-- A round that does not find the engine at rest makes the version lighter. -/
theorem round_lighter {s : StorageEngine} (h : Inv s) (hdir : ExactIds s.dataDir) (hnot : ¬ AtRest s) :
    Inv s.maybeCompactBackground ∧ s.maybeCompactBackground.dataDir = s.dataDir ∧
      weight s.maybeCompactBackground.version < weight s.version := by
  refine (foldl_compactIfNeeded h hdir (List.range 3) ?_).resolve_left ?_
  · intro level hlevel
    have := List.mem_range.mp hlevel
    omega
  · rintro ⟨hsame, hnone⟩
    exact hnot ⟨hsame, fun level hlevel => hnone level (List.mem_range.mpr hlevel)⟩

/-- **The background rounds come to rest.** From every reachable state, after as many rounds as the version weighs at
    most, a round changes nothing, and a level that still counts as in need of a compaction has none with a result. -/
theorem background_settles {dataDir : Bytes} (hdir : ExactIds dataDir) {cacheSize : Nat} {ops : List EngineOp}
    {s : StorageEngine} (h : exec step (init dataDir cacheSize) ops = some s) :
    ∃ k ≤ weight s.version, AtRest (maybeCompactBackground^[k] s) := by
  obtain ⟨k, hk, -, hrest⟩ := exists_iterate (f := maybeCompactBackground)
    (fun s => Inv s ∧ s.dataDir = dataDir) AtRest (fun s => weight s.version)
    (fun s hinv hnot => by
      obtain ⟨hinv', hdata', hlt⟩ := round_lighter hinv.1 (hinv.2 ▸ hdir) hnot
      exact ⟨⟨hinv', hdata'.trans hinv.2⟩, hlt⟩)
    (inv_of_exec hdir h)
  exact ⟨k, hk, hrest⟩

/-- Four tables on level 0, the last of them with a tombstone for what the others have. -/
def fullLevelRun : List EngineOp :=
  let key := Bytes.ascii "a"
  [.put key (Bytes.ascii "1"), .checkFlush true, .flushInstall, .put key (Bytes.ascii "2"), .checkFlush true,
    .flushInstall, .put key (Bytes.ascii "3"), .checkFlush true, .flushInstall, .del key, .checkFlush true,
    .flushInstall]

omit [Platform] in
theorem background_settles_fullLevelRun : letI := Platform.sample
    ∃ s, exec step (init (Bytes.ascii "data") 0) fullLevelRun = some s ∧ shouldCompactUnlocked 0 s.version = true ∧
      ∃ k ≤ weight s.version, AtRest (maybeCompactBackground^[k] s) := by
  let := Platform.sample
  have hrun : (exec step (init (Bytes.ascii "data") 0) fullLevelRun).map
      (shouldCompactUnlocked 0 ·.version) = some true := by decide +kernel
  obtain ⟨s, hs, hneeded⟩ := Option.map_eq_some_iff.mp hrun
  exact ⟨s, hs, hneeded, background_settles exactIds_data hs⟩

end StorageEngine

end KvStorageEngine
