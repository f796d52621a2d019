import KvStorageEngine.Engine.Correctness.VersionWf
import KvStorageEngine.Engine.StorageEngine
import KvStorageEngine.Lib.Layered

/-!
# `Engine.Correctness.SearchCorrect` — the table search finds the newest record

`get` does not look at every table: level 0 is scanned, a deeper level is searched in one file found by
binary search, and the first level that leaves a candidate behind ends the search. In a well-formed version
whose levels are ordered by age that is as good as looking everywhere (`searchVersion_picks`).

The induction is over the list of levels. `S` stands for the records seen so far; what is still to come is
newer than none of them, which is what an early stop needs (`Picks.stop`).
-/

namespace KvStorageEngine

open Layered LowerBound

variable [Platform]

omit [Platform] in
/-- The candidate after one more record: the newer of the two, the first on a tie. -/
theorem considerRecord_picks {S T : Entry → Prop} {candidate record : Option Entry}
    (hc : Picks Entry.seq S candidate) (hr : Picks Entry.seq T record) :
    Picks Entry.seq (fun e => S e ∨ T e) (considerRecord candidate record) := by
  cases record with
  | none => exact hc.congr fun e => ⟨Or.inl, fun h => h.resolve_right (hr e)⟩
  | some r =>
      cases candidate with
      | none => exact Picks.congr (r := some r) hr fun e => ⟨Or.inr, fun h => h.resolve_left (hc e)⟩
      | some c =>
          unfold considerRecord
          show Picks Entry.seq _ (if c.seq < r.seq then some r else some c)
          split_ifs with hlt
          · refine ⟨Or.inr hr.1, ?_⟩
            intro e he
            rcases he with he | he
            · exact (hc.2 e he).trans hlt.le
            · exact hr.2 e he
          · refine ⟨Or.inl hc.1, ?_⟩
            intro e he
            rcases he with he | he
            · exact hc.2 e he
            · exact (hr.2 e he).trans (not_lt.mp hlt)

omit [Platform] in
@[simp] theorem considerRecord_none (candidate : Option Entry) :
    considerRecord candidate none = candidate := rfl

/-- The records one table has of a key: at most one. -/
theorem get_picks (t : SSTable) (key : Bytes) :
    Picks Entry.seq (fun e => t.records.find? key = some e) (t.get key) := by
  rw [t.get_eq]
  cases h : t.records.find? key with
  | none => simp [Picks]
  | some e =>
      refine ⟨rfl, ?_⟩
      intro e' he'
      rw [Option.some.inj he']

/-! ## One level

On level 0 every file is looked at and the newest record wins; on the other levels at most one file can hold the key,
and the binary search finds it. -/

section Level

variable {dataDir : Bytes} {n : Nat} {v : TableVersion} {key : Bytes}

/-- The scan of level 0. -/
theorem searchL0_picks (files : List SSTableMeta) {S : Entry → Prop} {candidate : Option Entry}
    (hc : Picks Entry.seq S candidate) :
    Picks Entry.seq (fun e => S e ∨ ∃ m ∈ files, v.HoldsAt m key e)
      (Id.run (searchL0 (fun sst => pure (sst.get key)) v files candidate)) := by
  induction files generalizing S candidate with
  | nil => exact hc.congr fun e => by simp
  | cons file files ih =>
      unfold searchL0
      cases hf : v.findSSTableById file.id with
      | none =>
          apply (ih hc).congr
          intro e
          simp [TableVersion.HoldsAt, hf]
      | some sst =>
          apply (ih (considerRecord_picks hc (get_picks sst key))).congr
          intro e
          simp [TableVersion.HoldsAt, hf, or_assoc]

/-- The binary search of a sorted level finds the one file whose range has the key. -/
theorem fileFor_eq_some (h : v.Wf dataDir n) {i : Nat} (hi : 0 < i) {m : SSTableMeta} :
    fileFor (v.level i) key = some m ↔ m ∈ v.level i ∧ m.minKey ≤ key ∧ key ≤ m.maxKey := by
  have hdisj := h.disjoint i hi
  have hle : ∀ a ∈ v.level i, a.minKey ≤ a.maxKey := fun a ha =>
    h.range_le a (TableVersion.mem_metas_of_level ha)
  have hpart : Partitioned (fun file => decide (file.maxKey < key)) (v.level i) := by
    refine hdisj.imp_of_mem fun {a b} _ hb hab hpb => ?_
    have hba := hle b hb
    simp only [decide_eq_true_eq] at hpb ⊢
    exact (hab.trans_le hba).trans hpb
  unfold fileFor
  rw [getElem?_lowerBound hpart]
  -- the first file that does not end before the key is the only candidate
  have hfirst : ∀ a, (v.level i).find? (fun file => !decide (file.maxKey < key)) = some a →
      a ∈ v.level i ∧ key ≤ a.maxKey ∧
        ∀ b ∈ v.level i, b.minKey ≤ key → key ≤ b.maxKey → a = b := by
    intro a ha
    have hmem := List.mem_of_find?_eq_some ha
    have hka : key ≤ a.maxKey := by simpa using List.find?_some ha
    refine ⟨hmem, hka, ?_⟩
    intro b hb hlo hhi
    by_contra hne
    rcases h.apart hi hmem hb hne with hab | hba
    · exact absurd (hka.trans_lt hab) (not_lt.mpr hlo)
    · -- `b` comes first and does not end before the key either
      obtain ⟨pre, post, hl, hpre⟩ := (List.find?_eq_some_iff_append.mp ha).2
      have hb' : b ∈ pre ++ a :: post := hl ▸ hb
      rcases List.mem_append.mp hb' with hb' | hb'
      · have := hpre b hb'
        simp [not_lt.mpr hhi] at this
      · rcases List.mem_cons.mp hb' with rfl | hb'
        · exact hne rfl
        · rw [hl] at hdisj
          have hab := (List.pairwise_cons.mp (List.pairwise_append.mp hdisj).2.1).1 b hb'
          have := hle b hb
          exact absurd (hba.trans_le (hle a hmem) |>.trans hab) (not_lt.mpr this)
  cases hf : (v.level i).find? (fun file => !decide (file.maxKey < key)) with
  | none =>
      constructor
      · intro h
        exact absurd h (by simp)
      · rintro ⟨hm, -, hhi⟩
        have := List.find?_eq_none.mp hf m hm
        simp [not_lt.mpr hhi] at this
  | some a =>
      obtain ⟨hmem, hka, huniq⟩ := hfirst a hf
      show (if a.minKey ≤ key then some a else none) = some m ↔ _
      split_ifs with hlo
      · constructor
        · rintro he
          obtain rfl := Option.some.inj he
          exact ⟨hmem, hlo, hka⟩
        · rintro ⟨hm, hmlo, hmhi⟩
          rw [huniq m hm hmlo hmhi]
      · constructor
        · intro h
          exact absurd h (by simp)
        · rintro ⟨hm, hmlo, hmhi⟩
          rw [huniq m hm hmlo hmhi] at hlo
          exact absurd hmlo hlo

/-- What the search of one deeper level reads. -/
def levelRecord (v : TableVersion) (files : List SSTableMeta) (key : Bytes) : Option Entry :=
  ((fileFor files key).bind fun file => v.findSSTableById file.id).bind (·.get key)

/-- One file is enough on a sorted level. -/
theorem levelRecord_picks (h : v.Wf dataDir n) (hdir : ExactIds dataDir) {i : Nat} (hi : 0 < i) :
    Picks Entry.seq (v.Holds i key) (levelRecord v (v.level i) key) := by
  have hin : ∀ {m e}, m ∈ v.level i → v.HoldsAt m key e → fileFor (v.level i) key = some m := by
    intro m e hm he
    exact (fileFor_eq_some h hi).mpr ⟨hm, h.in_range hdir (TableVersion.mem_metas_of_level hm) he⟩
  unfold levelRecord
  cases hf : fileFor (v.level i) key with
  | none =>
      rintro e ⟨m, hm, he⟩
      rw [hin hm he] at hf
      exact absurd hf (by simp)
  | some m =>
      have hm := ((fileFor_eq_some h hi).mp hf).1
      obtain ⟨t, ht⟩ := h.findSSTableById_isSome hdir (TableVersion.mem_metas_of_level hm)
      show Picks Entry.seq _ ((v.findSSTableById m.id).bind (·.get key))
      rw [ht]
      refine (get_picks t key).congr fun e => ⟨fun hk => ⟨m, hm, t, ht, hk⟩, ?_⟩
      rintro ⟨m', hm', t', ht', hk⟩
      have heq := (hin hm' ⟨t', ht', hk⟩).symm.trans hf
      obtain rfl := Option.some.inj heq
      rw [ht] at ht'
      rwa [Option.some.inj ht']

end Level

/-! ## All levels

The levels one after the other, by induction. The search stops early where a level below 0 has answered, which is
right because the levels further down are older. -/

/-- The loop body on a level with files: the level's candidate, and a stop when there is one. -/
theorem searchLevels_cons {v : TableVersion} {key : Bytes} {level : Nat} {files : List SSTableMeta}
    {levels : List (List SSTableMeta)} {candidate : Option Entry} (hne : files ≠ []) :
    Id.run (searchLevels (fun sst => pure (sst.get key)) v key level (files :: levels) candidate) =
      let c := if level = 0 then Id.run (searchL0 (fun sst => pure (sst.get key)) v files candidate)
        else considerRecord candidate (levelRecord v files key)
      if c.isSome then c
      else Id.run (searchLevels (fun sst => pure (sst.get key)) v key (level + 1) levels c) := by
  have hemp : files.isEmpty = false := by simpa using hne
  conv => lhs; unfold searchLevels
  rw [hemp]
  by_cases h0 : level = 0
  · simp only [h0, if_true, Bool.false_eq_true, if_false]
    rfl
  · simp only [h0, Bool.false_eq_true, if_false, levelRecord]
    cases (fileFor files key).bind fun file => v.findSSTableById file.id <;> rfl

/-- The records of the levels from `level` on, together with those seen before. -/
theorem searchLevels_picks {dataDir : Bytes} {n : Nat} {v : TableVersion} {key : Bytes}
    (h : v.Wf dataDir n) (hdir : ExactIds dataDir)
    (hnewer : ∀ i j e e', i < j → v.Holds i key e → v.Holds j key e' → e'.seq < e.seq)
    (levels : List (List SSTableMeta)) :
    ∀ {level : Nat} {S : Entry → Prop} {candidate : Option Entry},
      (∀ j, levels.getD j [] = v.level (level + j)) →
      (∀ e e' j, S e → level ≤ j → v.Holds j key e' → e'.seq ≤ e.seq) →
      Picks Entry.seq S candidate →
      Picks Entry.seq (fun e => S e ∨ ∃ j, level ≤ j ∧ v.Holds j key e)
        (Id.run (searchLevels (fun sst => pure (sst.get key)) v key level levels candidate)) := by
  induction levels with
  | nil =>
      intro level S candidate hlevels _ hc
      refine hc.congr fun e => ⟨Or.inl, fun he => he.resolve_right ?_⟩
      rintro ⟨j, hj, m, hm, -⟩
      have := hlevels (j - level)
      rw [Nat.add_sub_cancel' hj] at this
      rw [← this] at hm
      exact absurd hm List.not_mem_nil
  | cons files levels ih =>
      intro level S candidate hlevels hold hc
      have hfiles : files = v.level level := hlevels 0
      have htail : ∀ j, levels.getD j [] = v.level (level + 1 + j) := by
        intro j
        rw [Nat.add_assoc, Nat.add_comm 1 j]
        exact hlevels (j + 1)
      -- the levels from here on are this one and the rest
      have hsplit : ∀ e, (∃ j, level ≤ j ∧ v.Holds j key e) ↔
          v.Holds level key e ∨ ∃ j, level + 1 ≤ j ∧ v.Holds j key e := by
        intro e
        constructor
        · rintro ⟨j, hj, he⟩
          rcases Nat.eq_or_lt_of_le hj with rfl | hlt
          · exact Or.inl he
          · exact Or.inr ⟨j, hlt, he⟩
        · rintro (he | ⟨j, hj, he⟩)
          · exact ⟨level, Nat.le_refl _, he⟩
          · exact ⟨j, by omega, he⟩
      have hassoc : ∀ e, ((S e ∨ v.Holds level key e) ∨ ∃ j, level + 1 ≤ j ∧ v.Holds j key e) ↔
          S e ∨ ∃ j, level ≤ j ∧ v.Holds j key e := fun e => by rw [hsplit, or_assoc]
      by_cases hne : files = []
      · -- an empty level is skipped
        subst hne
        have hnone : ∀ e, ¬ v.Holds level key e := by
          rintro e ⟨m, hm, -⟩
          rw [← hfiles] at hm
          exact absurd hm List.not_mem_nil
        unfold searchLevels
        apply (ih htail (fun e e' j hS hj => hold e e' j hS (by omega)) hc).congr
        intro e
        rw [hsplit]
        simp [hnone e]
      · rw [searchLevels_cons hne]
        generalize hcdef : (if level = 0
          then Id.run (searchL0 (fun sst => pure (sst.get key)) v files candidate)
          else considerRecord candidate (levelRecord v files key)) = c
        have hc' : Picks Entry.seq (fun e => S e ∨ v.Holds level key e) c := by
          rw [← hcdef]
          split_ifs with h0
          · rw [h0, hfiles, h0]
            exact searchL0_picks (v.level 0) hc
          · rw [hfiles]
            exact considerRecord_picks hc (levelRecord_picks h hdir (by omega))
        have hold' : ∀ e e' j, (S e ∨ v.Holds level key e) → level + 1 ≤ j → v.Holds j key e' →
            e'.seq ≤ e.seq := by
          rintro e e' j (hS | he) hj he'
          · exact hold e e' j hS (by omega) he'
          · exact (hnewer level j e e' (by omega) he he').le
        show Picks Entry.seq _ (if c.isSome then c else _)
        split_ifs with hsome
        · refine (hc'.stop hsome ?_).congr hassoc
          rintro e e' he ⟨j, hj, he'⟩
          exact hold' e e' j he hj he'
        · exact (ih htail hold' hc').congr hassoc

/-- **The search of a version** picks the newest of the records seen before and all the version holds. -/
theorem searchVersion_picks {dataDir : Bytes} {n : Nat} {v : TableVersion} {key : Bytes}
    {S : Entry → Prop} {candidate : Option Entry} (h : v.Wf dataDir n) (hdir : ExactIds dataDir)
    (hnewer : ∀ i j e e', i < j → v.Holds i key e → v.Holds j key e' → e'.seq < e.seq)
    (hold : ∀ e e' j, S e → v.Holds j key e' → e'.seq ≤ e.seq)
    (hc : Picks Entry.seq S candidate) :
    Picks Entry.seq (fun e => S e ∨ ∃ j, v.Holds j key e) (searchVersion v key candidate) := by
  show Picks Entry.seq _
    (Id.run (searchLevels (fun sst => pure (sst.get key)) v key 0 v.levels candidate))
  have hlevels : ∀ j, v.levels.getD j [] = v.level (0 + j) := by
    intro j
    rw [Nat.zero_add]
    rfl
  refine (searchLevels_picks h hdir hnewer v.levels hlevels
    (fun e e' j hS _ => hold e e' j hS) hc).congr fun e => ?_
  simp

/-! ## A candidate never gets older

This holds of any version, well-formed or not: a candidate is replaced by newer records only. -/

omit [Platform] in
/-- Another record can only make a candidate newer. -/
theorem exists_considerRecord (c : Entry) (record : Option Entry) :
    ∃ e, considerRecord (some c) record = some e ∧ c.seq ≤ e.seq := by
  cases record with
  | none => exact ⟨c, rfl, le_rfl⟩
  | some r =>
      unfold considerRecord
      dsimp only
      split_ifs with hlt
      · exact ⟨r, rfl, hlt.le⟩
      · exact ⟨c, rfl, le_rfl⟩

theorem exists_searchL0 (v : TableVersion) (key : Bytes) (files : List SSTableMeta) (c : Entry) :
    ∃ e, Id.run (searchL0 (fun sst => pure (sst.get key)) v files (some c)) = some e ∧ c.seq ≤ e.seq := by
  induction files generalizing c with
  | nil => exact ⟨c, rfl, le_rfl⟩
  | cons file files ih =>
      unfold searchL0
      cases v.findSSTableById file.id with
      | none => exact ih c
      | some sst =>
          obtain ⟨e, he, hle⟩ := exists_considerRecord c (sst.get key)
          obtain ⟨e', he', hle'⟩ := ih e
          refine ⟨e', ?_, hle.trans hle'⟩
          show Id.run (searchL0 _ v files (considerRecord (some c) (sst.get key))) = some e'
          rw [he, he']

theorem exists_searchLevels (v : TableVersion) (key : Bytes) (level : Nat) (levels : List (List SSTableMeta))
    (c : Entry) : ∃ e, Id.run (searchLevels (fun sst => pure (sst.get key)) v key level levels (some c)) = some e ∧
      c.seq ≤ e.seq := by
  induction levels generalizing level c with
  | nil => exact ⟨c, rfl, le_rfl⟩
  | cons files levels ih =>
      -- with a candidate the search ends after this level
      have hstop : ∀ (x : Option Entry) (e : Entry), x = some e →
          Id.run (if x.isSome then pure x
            else searchLevels (fun sst => pure (sst.get key)) v key (level + 1) levels x) = some e := by
        rintro _ e rfl
        rfl
      unfold searchLevels
      by_cases hempty : files.isEmpty = true
      · rw [if_pos hempty]
        exact ih (level + 1) c
      · rw [if_neg hempty]
        by_cases hzero : level = 0
        · rw [if_pos hzero]
          obtain ⟨e, he, hle⟩ := exists_searchL0 v key files c
          exact ⟨e, hstop _ e he, hle⟩
        · rw [if_neg hzero]
          cases (fileFor files key).bind (fun file => v.findSSTableById file.id) with
          | none => exact ⟨c, rfl, le_rfl⟩
          | some sst =>
              obtain ⟨e, he, hle⟩ := exists_considerRecord c (sst.get key)
              exact ⟨e, hstop _ e he, hle⟩

theorem exists_searchVersion (v : TableVersion) (key : Bytes) (c : Entry) :
    ∃ e, searchVersion v key (some c) = some e ∧ c.seq ≤ e.seq := exists_searchLevels v key 0 v.levels c

end KvStorageEngine
