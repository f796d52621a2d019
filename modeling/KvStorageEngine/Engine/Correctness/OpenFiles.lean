import KvStorageEngine.Engine.TableReader
import KvStorageEngine.Engine.Correctness.VersionUpdates
import KvStorageEngine.Engine.Correctness.EngineInvariant
import KvStorageEngine.Engine.Correctness.SearchCorrect

/-!
# `Engine.Correctness.OpenFiles` — whether a reader's files are still there

A reader's search is determined by the version it took: tables do not change, so which files it still has to
open (`Search.opens`) is known at every point, and what it answers if it gets to the end is what the version
holds (`ReaderInv`). It gets to the end when every one of these files is open already or still there
(`Readable`). A compaction that removes another one is the only thing that can end this, and once it has
ended the reader throws: `served_iff_keepsFiles`.
-/

namespace KvStorageEngine

open Run TableVersion Layered

variable [Platform]

/-! ## A. Resumable searches

A search that stops before each table can be run at once (`eval`), and then gives what `searchVersion` gives; `opens`
are the paths it opens on the way. -/

namespace Search

variable {α β : Type} {key : Bytes}

/-- The result when every table can be read. -/
def eval (key : Bytes) : Search α → α
  | .pure a => a
  | .look t next => (next (t.get key)).eval key

/-- The paths of the files a search still goes to, in order. -/
def opens (key : Bytes) : Search α → List Bytes
  | .pure _ => []
  | .look t next => (if t.readsFile key then [t.path] else []) ++ (next (t.get key)).opens key

/-- A search that looks into tables satisfying `P` only. -/
def OnlyLooks (P : SSTable → Prop) : Search α → Prop
  | .pure _ => True
  | .look t next => P t ∧ ∀ record, (next record).OnlyLooks P

/-- A search that only looks at some tables only opens the files of these. -/
theorem OnlyLooks.opens {P : SSTable → Prop} {x : Search α} (h : x.OnlyLooks P) :
    ∀ p ∈ x.opens key, ∃ t, P t ∧ t.path = p := by
  induction x with
  | pure a => exact fun p hp => absurd hp List.not_mem_nil
  | look t next ih =>
      intro p hp
      rcases List.mem_append.mp hp with hp | hp
      · split_ifs at hp
        · exact ⟨t, h.1, (List.mem_singleton.mp hp).symm⟩
        · exact absurd hp List.not_mem_nil
      · exact ih _ (h.2 _) p hp

end Search

section Resumable

variable {v : TableVersion} {key : Bytes}

/-- Level 0, stopped before each table, finds what it finds in one go, -/
theorem eval_searchL0 (files : List SSTableMeta) (candidate : Option Entry) :
    (searchL0 (fun sst => Search.look sst Search.pure) v files candidate).eval key
      = Id.run (searchL0 (fun sst => pure (sst.get key)) v files candidate) := by
  induction files generalizing candidate with
  | nil => rfl
  | cons file files ih =>
      unfold searchL0
      cases v.findSSTableById file.id with
      | none => exact ih candidate
      | some sst => exact ih _

/-- Running a composed search is running its parts. -/
theorem eval_bind {α β : Type} (x : Search α) (f : α → Search β) :
    (x >>= f).eval key = (f (x.eval key)).eval key := by
  induction x with
  | pure a => rfl
  | look t next ih => exact ih _

/-- and so do the levels. -/
theorem eval_searchLevels (levels : List (List SSTableMeta)) (level : Nat) (candidate : Option Entry) :
    (searchLevels (fun sst => Search.look sst Search.pure) v key level levels candidate).eval key
      = Id.run (searchLevels (fun sst => pure (sst.get key)) v key level levels candidate) := by
  induction levels generalizing level candidate with
  | nil => rfl
  | cons files levels ih =>
      -- the end of a level: stop with a candidate, or go one level down
      have hstop : ∀ c : Option Entry,
          (if c.isSome then pure c else
            searchLevels (fun sst => Search.look sst Search.pure) v key (level + 1) levels c).eval key
          = Id.run (if c.isSome then pure c else
            searchLevels (fun sst => pure (sst.get key)) v key (level + 1) levels c) := by
        intro c
        split_ifs
        · rfl
        · exact ih _ _
      unfold searchLevels
      by_cases hemp : files.isEmpty = true
      · rw [if_pos hemp, if_pos hemp]
        exact ih _ _
      · rw [if_neg hemp, if_neg hemp]
        by_cases h0 : level = 0
        · rw [if_pos h0, if_pos h0, eval_bind, eval_searchL0]
          exact hstop _
        · rw [if_neg h0, if_neg h0]
          cases (fileFor files key).bind fun file => v.findSSTableById file.id with
          | none => exact hstop candidate
          | some sst => exact hstop _

/-- Run to the end, the resumable search is the search. -/
theorem eval_resumableSearch (candidate : Option Entry) :
    (resumableSearch v key candidate).eval key = searchVersion v key candidate :=
  eval_searchLevels v.levels 0 candidate

theorem findSSTableById_mem {id : Nat} {t : SSTable} (h : v.findSSTableById id = some t) :
    t ∈ v.sstables := List.mem_of_find?_eq_some h

theorem onlyLooks_bind {α β : Type} {P : SSTable → Prop} {x : Search α} {f : α → Search β}
    (hx : x.OnlyLooks P) (hf : ∀ a, (f a).OnlyLooks P) : (x >>= f).OnlyLooks P := by
  induction x with
  | pure a => exact hf a
  | look t next ih => exact ⟨hx.1, fun record => ih record (hx.2 record)⟩

/-- A search looks at tables of its version only. -/
theorem onlyLooks_searchL0 (files : List SSTableMeta) (candidate : Option Entry) :
    (searchL0 (fun sst => Search.look sst Search.pure) v files candidate).OnlyLooks (· ∈ v.sstables) := by
  induction files generalizing candidate with
  | nil => trivial
  | cons file files ih =>
      unfold searchL0
      cases hf : v.findSSTableById file.id with
      | none => exact ih candidate
      | some sst => exact ⟨findSSTableById_mem hf, fun record => ih _⟩

theorem onlyLooks_searchLevels (levels : List (List SSTableMeta)) (level : Nat)
    (candidate : Option Entry) :
    (searchLevels (fun sst => Search.look sst Search.pure) v key level levels candidate).OnlyLooks
      (· ∈ v.sstables) := by
  induction levels generalizing level candidate with
  | nil => trivial
  | cons files levels ih =>
      have hstop : ∀ c : Option Entry, Search.OnlyLooks (· ∈ v.sstables)
          (if c.isSome then pure c else
            searchLevels (fun sst => Search.look sst Search.pure) v key (level + 1) levels c) := by
        intro c
        split_ifs
        · trivial
        · exact ih _ _
      unfold searchLevels
      by_cases hemp : files.isEmpty = true
      · rw [if_pos hemp]
        exact ih _ _
      · rw [if_neg hemp]
        by_cases h0 : level = 0
        · rw [if_pos h0]
          exact onlyLooks_bind (onlyLooks_searchL0 files candidate) hstop
        · rw [if_neg h0]
          cases hf : (fileFor files key).bind fun file => v.findSSTableById file.id with
          | none => exact hstop candidate
          | some sst =>
              obtain ⟨file, -, hfile⟩ := Option.bind_eq_some_iff.mp hf
              exact ⟨findSSTableById_mem hfile, fun record => hstop _⟩

/-- A search goes to files of its version only. -/
theorem opens_resumableSearch {candidate : Option Entry} :
    ∀ p ∈ (resumableSearch v key candidate).opens key, ∃ t ∈ v.sstables, t.path = p :=
  (onlyLooks_searchLevels v.levels 0 candidate).opens

end Resumable

/-! ## B. The invariants

The tables of every version in use are apart from each other and named by ids that the counter has passed; and what is
left of a reader's search will answer as the whole of it would have. -/

/-- `found` is the newest of the candidate and the records `v` holds, when nothing in `v` is newer than the
    candidate. -/
def TableVersion.Answers (v : TableVersion) (key : Bytes) (candidate found : Option Entry) : Prop :=
  (∀ e e' l, candidate = some e → v.Holds l key e' → e'.seq ≤ e.seq) →
    Picks Entry.seq (fun e => candidate = some e ∨ ∃ l, v.Holds l key e) found

namespace TableReader

/-- The reader has answered with what its version holds. -/
def Served (key : Bytes) (s : TableReader) : Prop :=
  ∃ v candidate found, s.reader = .done v candidate (answer found) ∧
    found = searchVersion v key candidate ∧ v.Answers key candidate found

/-- The reader has come to its end, one way or the other. -/
def Finished (s : TableReader) : Prop :=
  s.reader = .threw ∨ ∃ v candidate out, s.reader = .done v candidate out

/-- The step does not remove a file that the reader still has to open. -/
def KeepsFiles (key : Bytes) (s : TableReader) : TableReaderOp → Prop
  | .compactRemove => ∀ id ids v candidate rest, s.compaction = .removing (id :: ids) →
      s.reader = .searching v candidate rest →
      sstablePath (sstableDir s.dataDir) id ∈ rest.opens key →
      sstablePath (sstableDir s.dataDir) id ∈ s.opened
  | .takeVersion _ | .look | .compactWrite _ _ | .compactInstall => True

/-- A path that was given out. -/
def Named (s : TableReader) (p : Bytes) : Prop :=
  ∃ id ≤ s.flushCounter, p = sstablePath (sstableDir s.dataDir) id

/-- What the compaction thread holds: a change drawn from the current version, or inputs that are no longer
    in it. -/
def CompactionInv (s : TableReader) : Prop :=
  match s.compaction with
  | .idle => s.current.Wf s.dataDir s.flushCounter
  | .written c => ∃ n src plan maxSeq, s.flushCounter = n + 1 ∧ s.current.Wf s.dataDir n ∧
      Nonempty (Drawn s.current src plan) ∧ c.idsToRemove = plan.idsToRemove ∧
      c.edit s.current.copyFrom = compacted s.current plan s.dataDir n maxSeq ∧
      (∀ id ∈ plan.idsToRemove, id ≤ n) ∧ sstablePath (sstableDir s.dataDir) (n + 1) ∈ s.files
  | .removing ids => s.current.Wf s.dataDir s.flushCounter ∧
      ∀ id ∈ ids, ∀ t ∈ s.current.sstables, t.path ≠ sstablePath (sstableDir s.dataDir) id

/-- The current version is one the engine can have, and its files are there. -/
structure FilesInv (s : TableReader) : Prop where
  exact : ExactIds s.dataDir
  aged : Aged Entry.seq s.current.Holds
  there : ∀ t ∈ s.current.sstables, t.path ∈ s.files
  compaction : s.CompactionInv

/-- What the reader will answer, and where it may still have to go. -/
def ReaderInv (key : Bytes) (s : TableReader) : Prop :=
  match s.reader with
  | .idle | .threw => True
  | .searching v candidate rest => rest.eval key = searchVersion v key candidate ∧
      v.Answers key candidate (searchVersion v key candidate) ∧ ∀ p ∈ rest.opens key, s.Named p
  | .done v candidate out => out = answer (searchVersion v key candidate) ∧
      v.Answers key candidate (searchVersion v key candidate)

/-- The reader has not thrown, and every file it still has to open is open or there. -/
def Readable (key : Bytes) (s : TableReader) : Prop :=
  match s.reader with
  | .idle | .done _ _ _ => True
  | .searching _ _ rest => ∀ p ∈ rest.opens key, p ∈ s.opened ∨ p ∈ s.files
  | .threw => False

/-! ## C. One step

Looking at one more table moves a search on without changing its answer. -/

/-- What each step can do. -/
def StepEffect (key : Bytes) (s s' : TableReader) : TableReaderOp → Prop
  | .takeVersion candidate => s.reader = .idle ∧ s' = { s with
      reader := .searching s.current candidate (resumableSearch s.current key candidate) }
  | .look => ∃ v candidate rest, s.reader = .searching v candidate rest ∧
      match rest with
      | .pure found => s' = { s with reader := .done v candidate (answer found) }
      | .look t next =>
        (t.readsFile key = false ∧ s' = { s with reader := .searching v candidate (next none) }) ∨
        (t.readsFile key = true ∧ t.path ∉ s.opened ∧ t.path ∉ s.files ∧ s' = { s with reader := .threw }) ∨
        (t.readsFile key = true ∧ ∃ opened, s.getFile t = some opened ∧ s' = { s with
          opened := opened
          reader := .searching v candidate (next (t.records.find? key)) })
  | .compactWrite level maxSeq => s.compaction = .idle ∧ (s' = s ∨ ∃ plan,
      (if level = 0 then planL0toL1 s.current else planLevelN s.current level) = some plan ∧
      s' = { s with
        flushCounter := s.flushCounter + 1
        files := sstablePath (sstableDir s.dataDir) (s.flushCounter + 1) :: s.files
        compaction := .written
          ⟨SSTable.flush plan.mergedData (sstableDir s.dataDir) (s.flushCounter + 1),
          (SSTable.flush plan.mergedData (sstableDir s.dataDir) (s.flushCounter + 1)).meta
            (s.flushCounter + 1) maxSeq plan.targetLevel, plan.idsToRemove,
          if level = 0 then .L0toL1 else .levelN⟩ })
  | .compactInstall => ∃ c, s.compaction = .written c ∧ s' = { s with
      current := c.edit s.current.copyFrom
      compaction := .removing c.idsToRemove }
  | .compactRemove => (s.compaction = .removing [] ∧ s' = { s with compaction := .idle }) ∨
      ∃ id ids, s.compaction = .removing (id :: ids) ∧ s' = { s with
        files := s.files.filter (· ≠ sstablePath (sstableDir s.dataDir) id)
        compaction := .removing ids }

/-- Every step does what `StepEffect` says. -/
theorem step_effect {key : Bytes} {s s' : TableReader} {op : TableReaderOp}
    (h : s.step key op = some s') : StepEffect key s s' op := by
  cases op with
  | takeVersion candidate =>
      cases hr : s.reader <;> simp only [step, hr] at h <;> try contradiction
      exact ⟨hr, (Option.some.inj h).symm⟩
  | look =>
      cases hr : s.reader <;> simp only [step, hr] at h <;> try contradiction
      rename_i v candidate rest
      refine ⟨v, candidate, rest, hr, ?_⟩
      cases rest with
      | pure found => exact (Option.some.inj h).symm
      | look t next =>
          dsimp only at h ⊢
          split_ifs at h with hread
          · cases hg : s.getFile t with
            | none =>
                rw [hg] at h
                unfold getFile at hg
                split_ifs at hg with ho hf
                exact Or.inr (Or.inl ⟨hread, ho, hf, (Option.some.inj h).symm⟩)
            | some opened =>
                rw [hg] at h
                exact Or.inr (Or.inr ⟨hread, opened, rfl, (Option.some.inj h).symm⟩)
          · exact Or.inl ⟨by simpa using hread, (Option.some.inj h).symm⟩
  | compactWrite level maxSeq =>
      cases hc : s.compaction <;> simp only [step, hc] at h <;> try contradiction
      refine ⟨hc, ?_⟩
      cases hp : (if level = 0 then planL0toL1 s.current else planLevelN s.current level) with
      | none =>
          rw [hp] at h
          exact Or.inl (Option.some.inj h).symm
      | some plan =>
          rw [hp] at h
          exact Or.inr ⟨plan, rfl, (Option.some.inj h).symm⟩
  | compactInstall =>
      cases hc : s.compaction <;> simp only [step, hc] at h <;> try contradiction
      exact ⟨_, hc, (Option.some.inj h).symm⟩
  | compactRemove =>
      cases hc : s.compaction with
      | idle => simp [step, hc] at h
      | written c => simp [step, hc] at h
      | removing ids =>
          simp only [step, hc] at h
          cases ids with
          | nil => exact Or.inl ⟨hc, (Option.some.inj h).symm⟩
          | cons id ids => exact Or.inr ⟨id, ids, hc, (Option.some.inj h).symm⟩

/-- Some plan was drawn from the version, whatever the level. -/
theorem plan_drawn {dataDir : Bytes} {n level : Nat} {v : TableVersion} {plan : CompactionPlan}
    (hwf : v.Wf dataDir n) (hdir : ExactIds dataDir)
    (h : (if level = 0 then planL0toL1 v else planLevelN v level) = some plan) :
    ∃ src, Nonempty (Drawn v src plan) := by
  split_ifs at h with h0
  · obtain ⟨d, -⟩ := planL0toL1_drawn h
    exact ⟨0, ⟨d⟩⟩
  · exact ⟨level, (planLevelN_drawn hwf hdir h).2⟩

/-- Whichever level it works on, a compaction's edit is the same. -/
theorem edit_compaction (sst : SSTable) (m : SSTableMeta) (ids : List Nat) (level : Nat)
    (v : TableVersion) :
    (Change.mk sst m ids (if level = 0 then .L0toL1 else .levelN)).edit v = v.installMerged ids sst m := by
  split_ifs with h0
  · rfl
  · exact editLevelN_eq v ids sst m

/-- The version in force is well-formed at all times. -/
theorem FilesInv.wf {s : TableReader} (h : s.FilesInv) :
    ∃ n ≤ s.flushCounter, s.current.Wf s.dataDir n := by
  have hc := h.compaction
  unfold CompactionInv at hc
  cases hpc : s.compaction with
  | idle =>
      rw [hpc] at hc
      exact ⟨_, Nat.le_refl _, hc⟩
  | written c =>
      rw [hpc] at hc
      obtain ⟨n, -, -, -, hn, hwf, -⟩ := hc
      exact ⟨n, by omega, hwf⟩
  | removing ids =>
      rw [hpc] at hc
      exact ⟨_, Nat.le_refl _, hc.1⟩

/-- A step that touches neither the version nor the compaction. -/
theorem FilesInv.frame {s s' : TableReader} (h : s.FilesInv) (hd : s'.dataDir = s.dataDir)
    (hv : s'.current = s.current) (hn : s'.flushCounter = s.flushCounter) (hf : s'.files = s.files)
    (hc : s'.compaction = s.compaction) : s'.FilesInv := by
  refine ⟨hd ▸ h.exact, hv ▸ h.aged, ?_, ?_⟩
  · rw [hv, hf]
    exact h.there
  · have hinv := h.compaction
    unfold CompactionInv at hinv ⊢
    rw [hd, hv, hn, hf, hc]
    exact hinv

/-- **The files of the current version are there**, after every step. -/
theorem FilesInv.step {key : Bytes} {s s' : TableReader} {op : TableReaderOp} (h : s.FilesInv)
    (hs : s.step key op = some s') : s'.FilesInv := by
  have heff := step_effect hs
  have hinv := h.compaction
  unfold CompactionInv at hinv
  cases op with
  | takeVersion candidate =>
      obtain ⟨-, rfl⟩ := heff
      exact h.frame rfl rfl rfl rfl rfl
  | look =>
      obtain ⟨v, candidate, rest, -, heff⟩ := heff
      cases rest with
      | pure found =>
          subst heff
          exact h.frame rfl rfl rfl rfl rfl
      | look t next =>
          rcases heff with ⟨-, rfl⟩ | ⟨-, -, -, rfl⟩ | ⟨-, opened, -, rfl⟩ <;>
            exact h.frame rfl rfl rfl rfl rfl
  | compactWrite level maxSeq =>
      obtain ⟨hc, rfl | ⟨plan, hplan, rfl⟩⟩ := heff
      · exact h
      · rw [hc] at hinv
        obtain ⟨src, hd⟩ := plan_drawn hinv h.exact hplan
        refine ⟨h.exact, h.aged, fun t ht => List.mem_cons_of_mem _ (h.there t ht), ?_⟩
        refine ⟨s.flushCounter, src, plan, maxSeq, rfl, hinv, hd, rfl, edit_compaction _ _ _ _ _, ?_,
          List.mem_cons_self⟩
        intro id hid
        obtain ⟨i, m, hm, rfl⟩ := VersionSystem.plan_ids hplan id hid
        exact hinv.ids_le m (mem_metas_of_level hm)
  | compactInstall =>
      obtain ⟨c, hc, rfl⟩ := heff
      rw [hc] at hinv
      obtain ⟨n, src, plan, maxSeq, hn, hwf, ⟨d⟩, hids, hedit, hle, hfile⟩ := hinv
      have htables : ∀ t ∈ (c.edit s.current.copyFrom).sstables,
          (t ∈ s.current.sstables ∧ ∀ id ∈ plan.idsToRemove, t.path ≠ sstablePath (sstableDir s.dataDir) id) ∨
            t.path = sstablePath (sstableDir s.dataDir) (n + 1) := by
        intro t ht
        rw [hedit] at ht
        rcases List.mem_append.mp ht with ht | ht
        · obtain ⟨ht, hno⟩ := List.mem_filter.mp ht
          refine Or.inl ⟨ht, ?_⟩
          intro id hid hp
          have hmatch := (hwf.matchesId_iff h.exact ht id).mpr hp
          simp only [Bool.not_eq_true', List.any_eq_false] at hno
          exact hno id hid hmatch
        · exact Or.inr (by rw [List.mem_singleton.mp ht]; rfl)
      refine ⟨h.exact, ?_, ?_, ?_, ?_⟩
      · show Aged Entry.seq (c.edit s.current.copyFrom).Holds
        rw [hedit]
        refine h.aged.of_moves (?_) fun i j k e e' hij he he' =>
          d.order hwf h.exact h.aged hij he he'
        intro i k e he
        rcases d.moved hwf h.exact h.aged he with he | ⟨-, m, hm, he⟩
        · exact ⟨i, he⟩
        · exact ⟨src, m, d.sub m hm, he⟩
      · intro t ht
        rcases htables t ht with ⟨ht, -⟩ | hp
        · exact h.there t ht
        · rw [hp]
          exact hfile
      · show (c.edit s.current.copyFrom).Wf s.dataDir s.flushCounter
        rw [hedit, hn]
        exact d.wf hwf h.exact h.aged
      · intro id hid t ht
        rw [hids] at hid
        rcases htables t ht with ⟨-, hp⟩ | hp
        · exact hp id hid
        · -- the output is none of its inputs
          intro he
          have := sstablePath_inj (hp.symm.trans he)
          have := hle id hid
          omega
  | compactRemove =>
      rcases heff with ⟨hc, rfl⟩ | ⟨id, ids, hc, rfl⟩
      · rw [hc] at hinv
        exact ⟨h.exact, h.aged, h.there, hinv.1⟩
      · rw [hc] at hinv
        refine ⟨h.exact, h.aged, ?_, hinv.1, fun id' hid' =>
          hinv.2 id' (List.mem_cons_of_mem _ hid')⟩
        intro t ht
        refine List.mem_filter.mpr ⟨h.there t ht, ?_⟩
        simpa using hinv.2 id List.mem_cons_self t ht

/-- What the search of the version in force gives. -/
theorem FilesInv.answers {s : TableReader} (h : s.FilesInv) (key : Bytes) (candidate : Option Entry) :
    s.current.Answers key candidate (searchVersion s.current key candidate) := by
  obtain ⟨n, -, hwf⟩ := h.wf
  intro hold
  refine searchVersion_picks hwf h.exact
    (fun i j e e' hij he he' => h.aged.newer i j key e e' hij he he')
    (fun e e' j he he' => hold e e' j he he') ?_
  cases candidate with
  | none => exact fun e he => absurd he (by simp)
  | some e => exact ⟨rfl, fun e' he' => (Option.some.inj he' ▸ Nat.le_refl _)⟩

/-- The paths of the version in force were given out. -/
theorem FilesInv.named {s : TableReader} (h : s.FilesInv) {t : SSTable} (ht : t ∈ s.current.sstables) :
    s.Named t.path := by
  obtain ⟨n, hn, hwf⟩ := h.wf
  obtain ⟨m, hm, hp⟩ := hwf.exists_id ht
  exact ⟨m.id, (hwf.ids_le m hm).trans hn, hp⟩

theorem Named.mono {s s' : TableReader} {p : Bytes} (h : s.Named p) (hd : s'.dataDir = s.dataDir)
    (hn : s.flushCounter ≤ s'.flushCounter) : s'.Named p := by
  obtain ⟨id, hid, hp⟩ := h
  exact ⟨id, hid.trans hn, hd ▸ hp⟩

theorem ReaderInv.frame {key : Bytes} {s s' : TableReader} (h : ReaderInv key s)
    (hr : s'.reader = s.reader) (hd : s'.dataDir = s.dataDir) (hn : s.flushCounter ≤ s'.flushCounter) :
    ReaderInv key s' := by
  unfold ReaderInv at h ⊢
  rw [hr]
  cases hpc : s.reader with
  | idle => trivial
  | threw => trivial
  | done v candidate out =>
      rw [hpc] at h
      exact h
  | searching v candidate rest =>
      rw [hpc] at h
      exact ⟨h.1, h.2.1, fun p hp => (h.2.2 p hp).mono hd hn⟩

/-- A file that the filter lets a lookup into. -/
theorem get_of_readsFile {t : SSTable} {key : Bytes} (h : t.readsFile key = true) :
    t.get key = t.records.find? key := by
  unfold SSTable.get
  rw [if_pos h]

/-- A table whose file need not be read has no record of the key. -/
theorem get_of_not_readsFile {t : SSTable} {key : Bytes} (h : t.readsFile key = false) :
    t.get key = none := by
  unfold SSTable.get
  rw [if_neg (by simp [h])]

/-- **The reader's answer is fixed by the version it took.** -/
theorem ReaderInv.step {key : Bytes} {s s' : TableReader} {op : TableReaderOp} (hfiles : s.FilesInv)
    (h : ReaderInv key s) (hs : s.step key op = some s') : ReaderInv key s' := by
  have heff := step_effect hs
  cases op with
  | takeVersion candidate =>
      obtain ⟨-, rfl⟩ := heff
      refine ⟨eval_resumableSearch candidate, hfiles.answers key candidate, ?_⟩
      intro p hp
      obtain ⟨t, ht, rfl⟩ := opens_resumableSearch p hp
      exact (hfiles.named ht).mono rfl (Nat.le_refl _)
  | look =>
      obtain ⟨v, candidate, rest, hr, heff⟩ := heff
      unfold ReaderInv at h
      rw [hr] at h
      obtain ⟨heval, hans, hnamed⟩ := h
      cases rest with
      | pure found =>
          subst heff
          exact ⟨congrArg answer heval, hans⟩
      | look t next =>
          have hnext : ∀ p ∈ (next (t.get key)).opens key, s.Named p := fun p hp =>
            hnamed p (List.mem_append_right _ hp)
          rcases heff with ⟨hread, rfl⟩ | ⟨-, -, -, rfl⟩ | ⟨hread, opened, -, rfl⟩
          · rw [← get_of_not_readsFile hread]
            exact ⟨heval, hans, fun p hp => (hnext p hp).mono rfl (Nat.le_refl _)⟩
          · trivial
          · rw [← get_of_readsFile hread]
            exact ⟨heval, hans, fun p hp => (hnext p hp).mono rfl (Nat.le_refl _)⟩
  | compactWrite level maxSeq =>
      obtain ⟨-, rfl | ⟨plan, -, rfl⟩⟩ := heff
      · exact h
      · exact h.frame rfl rfl (Nat.le_succ _)
  | compactInstall =>
      obtain ⟨c, -, rfl⟩ := heff
      exact h.frame rfl rfl (Nat.le_refl _)
  | compactRemove =>
      rcases heff with ⟨-, rfl⟩ | ⟨id, ids, -, rfl⟩ <;> exact h.frame rfl rfl (Nat.le_refl _)

/-! ## D. When the reader gets through

A reader gets through when every file that it has still to open is there. A step takes that away only by removing such
a file. -/

theorem Readable.frame {key : Bytes} {s s' : TableReader} (h : Readable key s)
    (hr : s'.reader = s.reader) (ho : s'.opened = s.opened) (hf : ∀ p ∈ s.files, p ∈ s'.files) :
    Readable key s' := by
  unfold Readable at h ⊢
  rw [hr, ho]
  cases hpc : s.reader with
  | idle => trivial
  | threw =>
      rw [hpc] at h
      exact h
  | done v candidate out => trivial
  | searching v candidate rest =>
      rw [hpc] at h
      intro p hp
      exact (h p hp).imp_right (hf p)

/-- What `getFile` opens was open already or is there to be opened. -/
theorem getFile_eq_some {s : TableReader} {t : SSTable} {opened : List Bytes}
    (h : s.getFile t = some opened) :
    (t.path ∈ s.opened ∨ t.path ∈ s.files) ∧ ∀ p, p ∈ opened ↔ p ∈ s.opened ∨ p = t.path := by
  unfold getFile at h
  split_ifs at h with ho hf
  · obtain rfl := Option.some.inj h
    refine ⟨Or.inl ho, fun p => ⟨Or.inl, ?_⟩⟩
    rintro (hp | rfl)
    · exact hp
    · exact ho
  · obtain rfl := Option.some.inj h
    refine ⟨Or.inr hf, ?_⟩
    intro p
    rw [List.mem_cons, or_comm]

/-- **One step** leaves the reader able to go on exactly when it does not take away a file it needs. -/
theorem readable_step_iff {key : Bytes} {s s' : TableReader} {op : TableReaderOp} (hfiles : s.FilesInv)
    (h : Readable key s) (hs : s.step key op = some s') : Readable key s' ↔ KeepsFiles key s op := by
  have heff := step_effect hs
  cases op with
  | takeVersion candidate =>
      obtain ⟨-, rfl⟩ := heff
      refine iff_of_true (?_) trivial
      intro p hp
      obtain ⟨t, ht, rfl⟩ := opens_resumableSearch p hp
      exact Or.inr (hfiles.there t ht)
  | look =>
      refine iff_of_true ?_ trivial
      obtain ⟨v, candidate, rest, hr, heff⟩ := heff
      unfold Readable at h
      rw [hr] at h
      cases rest with
      | pure found =>
          subst heff
          trivial
      | look t next =>
          have hnext : ∀ p ∈ (next (t.get key)).opens key, p ∈ s.opened ∨ p ∈ s.files := fun p hp =>
            h p (List.mem_append_right _ hp)
          rcases heff with ⟨hread, rfl⟩ | ⟨hread, ho, hf, rfl⟩ | ⟨hread, opened, hg, rfl⟩
          · rw [← get_of_not_readsFile hread]
            exact hnext
          -- a lookup that throws had its file among those it needs
          · have hmem : t.path ∈ (Search.look t next).opens key :=
              List.mem_append_left _ (by rw [if_pos hread]; exact List.mem_singleton_self _)
            rcases h t.path hmem with hp | hp
            · exact absurd hp ho
            · exact absurd hp hf
          · rw [← get_of_readsFile hread]
            intro p hp
            exact (hnext p hp).imp_left fun ho => ((getFile_eq_some hg).2 p).mpr (Or.inl ho)
  | compactWrite level maxSeq =>
      refine iff_of_true ?_ trivial
      obtain ⟨-, rfl | ⟨plan, -, rfl⟩⟩ := heff
      · exact h
      · exact h.frame rfl rfl fun p hp => List.mem_cons_of_mem _ hp
  | compactInstall =>
      obtain ⟨c, -, rfl⟩ := heff
      exact iff_of_true (h.frame rfl rfl fun p hp => hp) trivial
  | compactRemove =>
      rcases heff with ⟨hc, rfl⟩ | ⟨id, ids, hc, rfl⟩
      · refine iff_of_true (h.frame rfl rfl fun p hp => hp) ?_
        intro id ids v candidate rest hc'
        exact absurd (hc.symm.trans hc') (by simp)
      · unfold Readable at h ⊢
        unfold KeepsFiles
        cases hr : s.reader with
        | idle => simp
        | done v candidate out => simp
        | threw =>
            rw [hr] at h
            exact False.elim h
        | searching v candidate rest =>
            rw [hr] at h
            constructor
            -- the removed path is needed exactly when it is not open yet
            · intro hall id' ids' v' candidate' rest' hc' hr' hp
              obtain ⟨rfl, -⟩ : id = id' ∧ ids = ids' := by
                simpa using hc.symm.trans hc'
              obtain ⟨-, -, rfl⟩ : v = v' ∧ candidate = candidate' ∧ rest = rest' := by
                simpa using hr'
              rcases hall _ hp with ho | hf
              · exact ho
              · exact absurd (List.mem_filter.mp hf).2 (by simp)
            · intro hkeep p hp
              by_cases he : p = sstablePath (sstableDir s.dataDir) id
              · exact Or.inl (he ▸ hkeep id ids v candidate rest hc rfl (he ▸ hp))
              · exact (h p hp).imp_right fun hf => List.mem_filter.mpr ⟨hf, by simpa using he⟩

/-- A lookup that has thrown is over. -/
theorem threw_of_step {key : Bytes} {s s' : TableReader} {op : TableReaderOp} (hr : s.reader = .threw)
    (hs : s.step key op = some s') : s'.reader = .threw := by
  have heff := step_effect hs
  cases op with
  | takeVersion candidate => exact absurd (hr.symm.trans heff.1) (by simp)
  | look =>
      obtain ⟨v, candidate, rest, hr', -⟩ := heff
      exact absurd (hr.symm.trans hr') (by simp)
  | compactWrite level maxSeq => obtain ⟨-, rfl | ⟨plan, -, rfl⟩⟩ := heff <;> exact hr
  | compactInstall => obtain ⟨c, -, rfl⟩ := heff; exact hr
  | compactRemove => rcases heff with ⟨-, rfl⟩ | ⟨id, ids, -, rfl⟩ <;> exact hr

/-- One file that is neither open nor there is enough. -/
theorem not_readable_of_missing {key : Bytes} {s : TableReader} {v : TableVersion} {candidate : Option Entry}
    {rest : Search (Option Entry)} {p : Bytes} (hr : s.reader = .searching v candidate rest) (hp : p ∈ rest.opens key)
    (ho : p ∉ s.opened) (hf : p ∉ s.files) : ¬ Readable key s := by
  unfold Readable
  rw [hr]
  intro hall
  rcases hall p hp with h | h
  · exact ho h
  · exact hf h

/-- **A file that is gone stays gone**: ids are not used twice, so no later output brings its path back. -/
theorem not_readable_step {key : Bytes} {s s' : TableReader} {op : TableReaderOp} (hinv : ReaderInv key s)
    (h : ¬ Readable key s) (hs : s.step key op = some s') : ¬ Readable key s' := by
  have heff := step_effect hs
  unfold ReaderInv at hinv
  unfold Readable at h
  cases hr : s.reader with
  | idle => exact absurd (by rw [hr]; trivial) h
  | done v candidate out => exact absurd (by rw [hr]; trivial) h
  | threw =>
      unfold Readable
      rw [threw_of_step hr hs]
      exact id
  | searching v candidate rest =>
      rw [hr] at h hinv
      push Not at h
      obtain ⟨p, hp, ho, hf⟩ := h
      obtain ⟨id₀, hid₀, hname⟩ := hinv.2.2 p hp
      cases op with
      | takeVersion candidate => exact absurd (hr.symm.trans heff.1) (by simp)
      | look =>
          obtain ⟨v', candidate', rest', hr', heff⟩ := heff
          obtain ⟨rfl, rfl, rfl⟩ : v = v' ∧ candidate = candidate' ∧ rest = rest' := by
            simpa using hr.symm.trans hr'
          cases rest with
          | pure found => exact absurd hp List.not_mem_nil
          | look t next =>
              have hsplit := List.mem_append.mp hp
              rcases heff with ⟨hread, rfl⟩ | ⟨-, -, -, rfl⟩ | ⟨hread, opened, hg, rfl⟩
              · rw [if_neg (by simp [hread])] at hsplit
                have hlater := hsplit.resolve_left List.not_mem_nil
                rw [get_of_not_readsFile hread] at hlater
                exact not_readable_of_missing rfl hlater ho hf
              · exact id
              · -- the file just read was there, so it is another one
                obtain ⟨hthere, hopened⟩ := getFile_eq_some hg
                have hne : p ≠ t.path := by
                  rintro rfl
                  rcases hthere with h | h
                  · exact ho h
                  · exact hf h
                rw [if_pos hread, List.mem_singleton] at hsplit
                have hlater := hsplit.resolve_left hne
                rw [get_of_readsFile hread] at hlater
                exact not_readable_of_missing rfl hlater (fun h => ((hopened p).mp h).elim ho hne) hf
      | compactWrite level maxSeq =>
          obtain ⟨-, rfl | ⟨plan, -, rfl⟩⟩ := heff
          · exact not_readable_of_missing hr hp ho hf
          · refine not_readable_of_missing hr hp ho fun hmem => ?_
            rcases List.mem_cons.mp hmem with he | hmem
            · have := sstablePath_inj (hname.symm.trans he)
              omega
            · exact hf hmem
      | compactInstall =>
          obtain ⟨c, -, rfl⟩ := heff
          exact not_readable_of_missing hr hp ho hf
      | compactRemove =>
          rcases heff with ⟨-, rfl⟩ | ⟨id, ids, -, rfl⟩
          · exact not_readable_of_missing hr hp ho hf
          · exact not_readable_of_missing hr hp ho fun hmem => hf (List.mem_of_mem_filter hmem)

/-! ## E. Whole runs

By induction on what is left of the run: a reader that can be stopped is stopped in the end. -/

/-- A reader beside an engine that has come by any run. -/
theorem inv_start {dataDir : Bytes} (hdir : ExactIds dataDir) {cacheSize : Nat} {ops : List EngineOp}
    {s₀ : StorageEngine} (h : exec StorageEngine.step (StorageEngine.init dataDir cacheSize) ops = some s₀)
    (key : Bytes) (opened : List Bytes) : (start s₀ opened).FilesInv ∧ ReaderInv key (start s₀ opened) := by
  obtain ⟨hinv, rfl⟩ := StorageEngine.inv_of_exec hdir h
  exact ⟨⟨hdir, hinv.toOrdered.version_aged, fun t ht => List.mem_map_of_mem ht, hinv.wf⟩, trivial⟩

theorem inv_of_exec {key : Bytes} {s t : TableReader} {ops : List TableReaderOp}
    (hs : s.FilesInv ∧ ReaderInv key s) (h : exec (step key) s ops = some t) :
    t.FilesInv ∧ ReaderInv key t :=
  exec_invariant (I := fun s => s.FilesInv ∧ ReaderInv key s) hs
    (fun _ _ _ hinv hstep => ⟨hinv.1.step hstep, hinv.2.step hinv.1 hstep⟩) h

/-- At its end the reader has its answer exactly when it could go on all the time. -/
theorem served_iff_readable {key : Bytes} {s : TableReader} (hinv : ReaderInv key s) (hend : s.Finished) :
    Served key s ↔ Readable key s := by
  unfold Served Readable
  unfold ReaderInv at hinv
  rcases hend with hr | ⟨v, candidate, out, hr⟩
  · rw [hr]
    simp
  · rw [hr] at hinv
    obtain ⟨rfl, hans⟩ := hinv
    rw [hr]
    exact iff_of_true ⟨v, candidate, _, rfl, rfl, hans⟩ trivial

/-- **A version stays readable** exactly as long as no compaction removes a file that the reader holding
    it still has to open. In every run of one reader and the compaction thread, from every reachable state
    of the engine and whatever tables were read before. -/
theorem served_iff_keepsFiles {dataDir : Bytes} (hdir : ExactIds dataDir) {cacheSize : Nat}
    {history : List EngineOp} {s₀ : StorageEngine}
    (h₀ : exec StorageEngine.step (StorageEngine.init dataDir cacheSize) history = some s₀) {key : Bytes}
    {opened : List Bytes} {ops : List TableReaderOp} {s : TableReader}
    (h : exec (step key) (start s₀ opened) ops = some s) (hend : s.Finished) :
    Served key s ↔ Meets (step key) (KeepsFiles key) (start s₀ opened) ops := by
  have hstart := inv_start hdir h₀ key opened
  rw [served_iff_readable (inv_of_exec hstart h).2 hend]
  have hread₀ : Readable key (start s₀ opened) := trivial
  rw [← along_iff_meets (P := fun _ t => Readable key t) hread₀ ?_ h]
  · constructor
    · intro hread pre t hpre ht
      obtain ⟨post, rfl⟩ := hpre
      obtain ⟨t', ht', hpost⟩ := exec_append_eq_some h
      obtain rfl := Option.some.inj (ht.symm.trans ht')
      by_contra hno
      -- once a file is missing it is missing at the end
      have hlost : ReaderInv key s ∧ s.FilesInv ∧ ¬ Readable key s := by
        obtain ⟨hf, hr⟩ := inv_of_exec hstart ht
        refine exec_invariant (I := fun s => ReaderInv key s ∧ s.FilesInv ∧ ¬ Readable key s)
          ⟨hr, hf, hno⟩ ?_ hpost
        rintro s op s' ⟨hr, hf, hno⟩ hs
        exact ⟨hr.step hf hs, hf.step hs, not_readable_step hr hno hs⟩
      exact hlost.2.2 hread
    · intro halong
      exact halong ops s (List.prefix_refl _) h
  · intro pre op t t' _ ht hs _ hread
    exact readable_step_iff (inv_of_exec hstart ht).1 hread hs

/-! ## F. A reader that is too late, and one that is not -/

/-- One flushed table with the key `a`. -/
def oneTable : List EngineOp :=
  [.put (Bytes.ascii "a") (Bytes.ascii "1"), .checkFlush true, .flushInstall]

/-- The reader takes the version, and a compaction replaces its table before it looks. -/
def lateLook : List TableReaderOp :=
  [.takeVersion none, .compactWrite 0 1, .compactInstall, .compactRemove, .look]

omit [Platform] in
theorem not_served_lateLook : letI := Platform.sample
    ∃ s₀ s, exec StorageEngine.step (StorageEngine.init (Bytes.ascii "data") 0) oneTable = some s₀ ∧
      exec (step (Bytes.ascii "a")) (start s₀ []) lateLook = some s ∧ s.Finished ∧
      ¬ Served (Bytes.ascii "a") s := by
  let := Platform.sample
  have hrun : ((exec StorageEngine.step (StorageEngine.init (Bytes.ascii "data") 0) oneTable).bind
      fun s₀ => (exec (step (Bytes.ascii "a")) (start s₀ []) lateLook).map fun s =>
        match s.reader with
        | .threw => true
        | _ => false) = some true := by decide +kernel
  obtain ⟨s₀, h₀, hrun⟩ := Option.bind_eq_some_iff.mp hrun
  obtain ⟨s, h, hthrew⟩ := Option.map_eq_some_iff.mp hrun
  have hr : s.reader = .threw := by
    cases hr : s.reader <;> rw [hr] at hthrew <;> simp at hthrew ⊢
  refine ⟨s₀, s, h₀, h, Or.inl hr, ?_⟩
  rintro ⟨v, candidate, found, hdone, -⟩
  exact absurd (hr.symm.trans hdone) (by simp)

omit [Platform] in
/-- The same interleaving after an earlier read that opened the table. -/
theorem served_lateLook_opened : letI := Platform.sample
    ∃ s₀ s, exec StorageEngine.step (StorageEngine.init (Bytes.ascii "data") 0) oneTable = some s₀ ∧
      exec (step (Bytes.ascii "a")) (start s₀ [sstablePath (sstableDir (Bytes.ascii "data")) 1])
        (lateLook ++ [.look]) = some s ∧
      (Served (Bytes.ascii "a") s ↔ Meets (step (Bytes.ascii "a")) (KeepsFiles (Bytes.ascii "a"))
        (start s₀ [sstablePath (sstableDir (Bytes.ascii "data")) 1]) (lateLook ++ [.look])) := by
  let := Platform.sample
  have hrun : ((exec StorageEngine.step (StorageEngine.init (Bytes.ascii "data") 0) oneTable).bind
      fun s₀ => (exec (step (Bytes.ascii "a"))
        (start s₀ [sstablePath (sstableDir (Bytes.ascii "data")) 1]) (lateLook ++ [.look])).map fun s =>
        match s.reader with
        | .done _ _ _ => true
        | _ => false) = some true := by decide +kernel
  obtain ⟨s₀, h₀, hrun⟩ := Option.bind_eq_some_iff.mp hrun
  obtain ⟨s, h, hdone⟩ := Option.map_eq_some_iff.mp hrun
  have hend : s.Finished := by
    cases hr : s.reader <;> rw [hr] at hdone <;> simp at hdone
    exact Or.inr ⟨_, _, _, hr⟩
  exact ⟨s₀, s, h₀, h, served_iff_keepsFiles exactIds_data h₀ h hend⟩

end TableReader

end KvStorageEngine
