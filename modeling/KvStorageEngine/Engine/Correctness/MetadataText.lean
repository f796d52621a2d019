import KvStorageEngine.Engine.DataDir
import KvStorageEngine.Engine.Correctness.VersionWf

/-!
# `Engine.Correctness.MetadataText` — metadata read back

`levels.txt` separates its fields by blanks and its tables by newlines, and writes keys as they are. So a
line comes back when its two keys are words, that is when they are not empty and contain no white space
(`parseMeta_printMeta`), and with it the level structure (`parseLevels_printLevels`). The constructor then
comes back with what was saved (`construct_of_saved`, for a version with all its tables on level 0).
-/

namespace KvStorageEngine

open TextStream TableVersion

/-! ## A. A line

The fields of a line stand between blanks, and `>>` reads each of them back where none contains white space. -/

/-- Both ends of a table's range are words. -/
def SSTableMeta.HasWords (m : SSTableMeta) : Prop := IsWord m.minKey ∧ IsWord m.maxKey

instance (m : SSTableMeta) : Decidable m.HasWords := inferInstanceAs (Decidable (_ ∧ _))

theorem ascii_blank : Bytes.ascii " " = [32] := rfl

theorem ascii_newline : Bytes.ascii "\n" = [10] := rfl

theorem ends_blank_digit (rest : Bytes) : Ends isDigit (32 :: rest) := by
  intro b hb
  rw [← Option.some.inj hb]
  rfl

theorem ends_blank_word (rest : Bytes) : Ends (!isSpace ·) (32 :: rest) := by
  intro b hb
  rw [← Option.some.inj hb]
  rfl

theorem ends_nil (p : UInt8 → Bool) : Ends p [] := fun b hb => absurd hb (by simp)

/-- The id of a line, whatever the keys are. -/
theorem readNat_printMeta (m : SSTableMeta) : ∃ rest, readNat (printMeta m) = some (m.id, 32 :: rest) := by
  unfold printMeta
  rw [ascii_blank, List.append_assoc]
  exact ⟨_, readNat_toDecimal m.id (ends_blank_digit _)⟩

/-- **A line comes back.** -/
theorem parseMeta_printMeta {m : SSTableMeta} (h : m.HasWords) : parseMeta (printMeta m) = some m := by
  have hlast : readNat (Bytes.toDecimal m.sizeBytes) = some (m.sizeBytes, []) := by
    simpa using readNat_toDecimal m.sizeBytes (ends_nil isDigit)
  unfold parseMeta printMeta
  simp only [ascii_blank, List.append_assoc, List.singleton_append, readNat_space, readWord_space,
    readNat_toDecimal _ (ends_blank_digit _), readWord_append h.1 (ends_blank_word _),
    readWord_append h.2 (ends_blank_word _), hlast, Option.bind_eq_bind, Option.bind_some]

theorem newline_notMem_word {s : Bytes} (h : IsWord s) : (10 : UInt8) ∉ s := by
  intro hmem
  have hspace := h.2 10 hmem
  exact absurd hspace (by decide)

/-- A line has no newline in it. -/
theorem newline_notMem_printMeta {m : SSTableMeta} (h : m.HasWords) : (10 : UInt8) ∉ printMeta m := by
  unfold printMeta
  simp only [ascii_blank, List.mem_append, List.mem_singleton, not_or]
  exact ⟨⟨newline_notMem_word (isWord_toDecimal _), by decide⟩,
    ⟨newline_notMem_word (isWord_toDecimal _), by decide⟩, ⟨newline_notMem_word h.1, by decide⟩,
    ⟨newline_notMem_word h.2, by decide⟩, ⟨newline_notMem_word (isWord_toDecimal _), by decide⟩,
    newline_notMem_word (isWord_toDecimal _)⟩

theorem printMeta_ne_nil (m : SSTableMeta) : printMeta m ≠ [] := by
  unfold printMeta
  simp [toDecimal_ne_nil]

/-! ## B. The files

Reading the lines one by one puts each table behind those of its level, so the levels come back in their order. -/

theorem getLines_flatMap_append (metas : List SSTableMeta) (h : ∀ m ∈ metas, m.HasWords) (rest : Bytes) :
    getLines ((metas.flatMap fun m => printMeta m ++ Bytes.ascii "\n") ++ rest)
      = metas.map printMeta ++ getLines rest := by
  induction metas with
  | nil => rfl
  | cons m metas ih =>
      obtain ⟨hm, hmetas⟩ := List.forall_mem_cons.mp h
      rw [List.flatMap_cons, ascii_newline, List.append_assoc, List.append_assoc, List.singleton_append,
        getLines_cons (newline_notMem_printMeta hm), List.map_cons]
      exact congrArg _ (ih hmetas)

theorem getLines_flatMap (metas : List SSTableMeta) (h : ∀ m ∈ metas, m.HasWords) :
    getLines (metas.flatMap fun m => printMeta m ++ Bytes.ascii "\n") = metas.map printMeta := by
  simpa [getLines] using getLines_flatMap_append metas h []

/-- The text of the levels has a line for each table. -/
theorem getLines_printLevels {levels : List (List SSTableMeta)} (h : ∀ m ∈ levels.flatten, m.HasWords) :
    getLines (printLevels levels) = levels.flatten.map printMeta := getLines_flatMap levels.flatten h

/-- The levels with one more table, put where its metadata says. -/
def placeMeta (levels : List (List SSTableMeta)) (m : SSTableMeta) : List (List SSTableMeta) :=
  (roomFor levels m.level).modify m.level (· ++ [m])

/-- Printed lines are placed one after the other. -/
theorem parseLevels_printed (metas : List SSTableMeta) (h : ∀ m ∈ metas, m.HasWords)
    (levels : List (List SSTableMeta)) :
    parseLevels (metas.map printMeta) levels = some (metas.foldl placeMeta levels) := by
  induction metas generalizing levels with
  | nil => rfl
  | cons m metas ih =>
      obtain ⟨hm, hmetas⟩ := List.forall_mem_cons.mp h
      have hne : (printMeta m).isEmpty = false := by simpa using printMeta_ne_nil m
      rw [List.map_cons, parseLevels, hne, parseMeta_printMeta hm, List.foldl_cons, ← ih hmetas]
      rfl

/-- A table is put behind those of its level. -/
theorem getD_placeMeta (levels : List (List SSTableMeta)) (m : SSTableMeta) (i : Nat) :
    (placeMeta levels m).getD i [] = levels.getD i [] ++ if i = m.level then [m] else [] := by
  unfold placeMeta
  rw [getD_modify _ (lt_length_roomFor levels m.level), getD_roomFor]
  split_ifs
  · rfl
  · rw [List.append_nil]

/-- Each level gets the tables that name it, in order. -/
theorem getD_foldl_placeMeta (metas : List SSTableMeta) (levels : List (List SSTableMeta)) (i : Nat) :
    (metas.foldl placeMeta levels).getD i [] = levels.getD i [] ++ metas.filter (i = ·.level) := by
  induction metas generalizing levels with
  | nil => rw [List.foldl_nil, List.filter_nil, List.append_nil]
  | cons m metas ih =>
      rw [List.foldl_cons, ih, getD_placeMeta, List.append_assoc]
      by_cases hi : i = m.level
      · rw [if_pos hi, List.filter_cons_of_pos (by simpa using hi)]
        rfl
      · rw [if_neg hi, List.filter_cons_of_neg (by simpa using hi), List.nil_append]

/-- When every table names the level it is on, the tables that name a level are those on it. -/
theorem filter_flatten (levels : List (List SSTableMeta)) (n i : Nat)
    (h : ∀ j, ∀ m ∈ levels.getD j [], m.level = n + j) :
    levels.flatten.filter (n + i = ·.level) = levels.getD i [] := by
  induction levels generalizing n i with
  | nil => rfl
  | cons l levels ih =>
      have hrest : ∀ j, ∀ m ∈ levels.getD j [], m.level = n + 1 + j := by
        intro j m hm
        have hlevel := h (j + 1) m hm
        omega
      rw [List.flatten_cons, List.filter_append]
      cases i with
      | zero =>
          have hnil : levels.flatten.filter (n + 0 = ·.level) = [] := by
            rw [List.filter_eq_nil_iff]
            intro m hm
            obtain ⟨l', hl', hm⟩ := List.mem_flatten.mp hm
            obtain ⟨j, hj, rfl⟩ := List.getElem_of_mem hl'
            have hlevel := hrest j m (by simpa [List.getD, hj] using hm)
            simp only [decide_eq_true_eq]
            omega
          rw [hnil, List.append_nil]
          apply List.filter_eq_self.mpr
          intro m hm
          rw [decide_eq_true_eq]
          exact (h 0 m hm).symm
      | succ i =>
          have hnil : l.filter (n + (i + 1) = ·.level) = [] := by
            rw [List.filter_eq_nil_iff]
            intro m hm
            have hlevel := h 0 m hm
            simp only [decide_eq_true_eq]
            omega
          rw [hnil, List.nil_append, show n + (i + 1) = n + 1 + i by omega, ih (n + 1) i hrest]
          rfl

section Placed

variable {levels : List (List SSTableMeta)}

/-- Where the tables of each level have words for keys, all have. -/
theorem hasWords_of_placed (h : ∀ i, ∀ m ∈ levels.getD i [], m.level = i ∧ m.HasWords) :
    ∀ m ∈ levels.flatten, m.HasWords := by
  intro m hm
  obtain ⟨l, hl, hm⟩ := List.mem_flatten.mp hm
  obtain ⟨i, hi, rfl⟩ := List.getElem_of_mem hl
  exact (h i m (by simpa [List.getD, hi] using hm)).2

theorem filter_of_placed (h : ∀ i, ∀ m ∈ levels.getD i [], m.level = i ∧ m.HasWords) (i : Nat) :
    levels.flatten.filter (i = ·.level) = levels.getD i [] := by
  have hfilter := filter_flatten levels 0 i fun j m hm => by rw [(h j m hm).1, Nat.zero_add]
  rwa [Nat.zero_add] at hfilter

/-- **The levels come back** when every table names the level it is on and has words for keys. -/
theorem parseLevels_printLevels (h : ∀ i, ∀ m ∈ levels.getD i [], m.level = i ∧ m.HasWords) :
    ∃ levels', parseLevels (getLines (printLevels levels)) [] = some levels' ∧
      ∀ i, levels'.getD i [] = levels.getD i [] := by
  have hwords := hasWords_of_placed h
  refine ⟨levels.flatten.foldl placeMeta [], ?_, ?_⟩
  · rw [getLines_printLevels hwords]
    exact parseLevels_printed _ hwords []
  · intro i
    rw [getD_foldl_placeMeta, filter_of_placed h]
    rfl

end Placed

/-- The two counters come back. -/
theorem loadCounters_printCounters (n q : Nat) : loadCounters (printCounters n q) = some (n, q) := by
  have hnl : ∀ k, (10 : UInt8) ∉ Bytes.toDecimal k := fun k => newline_notMem_word (isWord_toDecimal k)
  have hread : ∀ k, readNat (Bytes.toDecimal k) = some (k, []) := by
    intro k
    simpa using readNat_toDecimal k (ends_nil isDigit)
  have hlines : getLines (printCounters n q) = [Bytes.toDecimal n, Bytes.toDecimal q] := by
    unfold printCounters
    rw [ascii_newline, List.append_assoc, List.singleton_append, getLines_cons (hnl n),
      getLines_cons (hnl q)]
    rfl
  unfold loadCounters
  rw [hlines]
  simp [hread]

/-! ## C. Versions with level 0 only

What a store has on disk before its first compaction, and what the restart is first shown for. -/

variable [Platform] {dataDir : Bytes} {n q : Nat} {v v' : TableVersion} {d : DataDir}

/-- A version whose tables are all on level 0, in the order of their metadata. -/
structure TableVersion.Flat (dataDir : Bytes) (n : Nat) (v : TableVersion) : Prop extends
    Joined dataDir n v where
  deep : ∀ i, 0 < i → v.level i = []
  aligned : v.sstables.map (·.path) = (v.level 0).map fun m => sstablePath (sstableDir dataDir) m.id
  level_eq : ∀ m ∈ v.level 0, m.level = 0

/-- With nothing below level 0, level 0 is all there is. -/
theorem TableVersion.metas_of_deep (hdeep : ∀ i, 0 < i → v.level i = []) : v.metas = v.level 0 := by
  unfold metas level at *
  cases hl : v.levels with
  | nil => rfl
  | cons l rest =>
      have hrest : rest.flatten = [] := by
        rw [List.flatten_eq_nil_iff]
        intro x hx
        obtain ⟨i, hi, rfl⟩ := List.getElem_of_mem hx
        have hdeep := hdeep (i + 1) (Nat.succ_pos i)
        rw [hl] at hdeep
        simpa [List.getD, hi] using hdeep
      rw [List.flatten_cons, hrest, List.append_nil]
      rfl

theorem TableVersion.Flat.metas_eq (h : v.Flat dataDir n) : v.metas = v.level 0 := metas_of_deep h.deep

/-- The same tables on the same levels. -/
theorem TableVersion.Flat.congr (h : v.Flat dataDir n) (hl : ∀ i, v'.level i = v.level i)
    (hs : v'.sstables = v.sstables) : v'.Flat dataDir n := by
  have hdeep : ∀ i, 0 < i → v'.level i = [] := fun i hi => (hl i).trans (h.deep i hi)
  have hmetas : v'.metas = v.metas := by
    rw [metas_of_deep hdeep, hl, h.metas_eq]
  refine ⟨h.toJoined.of_perm (List.Perm.of_eq hmetas) hs, hdeep, ?_, ?_⟩
  · rw [hs, hl]
    exact h.aligned
  · rw [hl]
    exact h.level_eq

theorem TableVersion.flat_initial (dataDir : Bytes) (n : Nat) : initial.Flat dataDir n := by
  refine ⟨(wf_initial dataDir n).toJoined, fun i _ => level_initial i, ?_, fun m hm => ?_⟩
  · rw [level_initial]
    rfl
  · rw [level_initial] at hm
    exact absurd hm List.not_mem_nil

/-! ## D. Loading what was saved

The counters, the levels and the table files together: the constructor finds all tables that the text names. -/

/-- A directory as some `saveMetadata` left it: its metadata is that of the version `v` with the counters `n`
    and `q`, and the tables of `v` are there. -/
structure Saved (dataDir : Bytes) (d : DataDir) (n q : Nat) (v : TableVersion) : Prop where
  flat : v.Flat dataDir n
  text : (d.metadata = none ∧ d.levels = none ∧ v = initial ∧ n = 0 ∧ q = 1) ∨
    (d.metadata = some (printCounters n q) ∧ d.levels = some (printLevels v.levels))
  there : ∀ t ∈ v.sstables, d.file? t.path = some t
  words : ∀ m ∈ v.level 0, m.HasWords

/-- The levels that `loadLevelMetadata` reads back. -/
theorem loadLevelMetadata_of_printed (n : Nat) {text : Option Bytes} {levels : List (List SSTableMeta)}
    (htext : text = some (printLevels levels))
    (h : ∀ i, ∀ m ∈ levels.getD i [], m.level = i ∧ m.HasWords) :
    ∃ levels', loadLevelMetadata n text = some ⟨levels', [], 0, n⟩ ∧
      ∀ i, levels'.getD i [] = levels.getD i [] := by
  obtain ⟨levels', hparse, hlevel⟩ := parseLevels_printLevels h
  unfold loadLevelMetadata
  rw [htext]
  simp only [hparse, Option.bind_eq_bind, Option.bind_some]
  refine ⟨_, rfl, ?_⟩
  intro i
  rw [← hlevel i]
  split_ifs with hempty
  · rw [List.isEmpty_iff.mp hempty]
    exact level_initial i
  · rfl

/-- In a saved version every table names its level and has words for keys. -/
theorem Saved.words_level (h : Saved dataDir d n q v) (i : Nat) :
    ∀ m ∈ v.level i, m.level = i ∧ m.HasWords := by
  intro m hm
  rcases Nat.eq_zero_or_pos i with rfl | hi
  · exact ⟨h.flat.level_eq m hm, h.words m hm⟩
  · rw [h.flat.deep i hi] at hm
    exact absurd hm List.not_mem_nil

/-- The tables are found under the paths of their metadata. -/
theorem Saved.filterMap_file? (h : Saved dataDir d n q v) :
    (v.level 0).filterMap (fun m => d.file? (sstablePath (sstableDir dataDir) m.id)) = v.sstables := by
  have hpaths : (v.level 0).filterMap (fun m => d.file? (sstablePath (sstableDir dataDir) m.id))
      = (v.sstables.map (·.path)).filterMap d.file? := by
    rw [h.flat.aligned, List.filterMap_map]
    rfl
  rw [hpaths, List.filterMap_map]
  exact (List.filterMap_congr h.there).trans List.filterMap_some

/-- **The constructor** comes back with the saved counters, levels and tables, and replays the log. -/
theorem construct_of_saved (h : Saved dataDir d n q v) (cacheSize : Nat) :
    ∃ v', (∀ i, v'.level i = v.level i) ∧ v'.sstables = v.sstables ∧
      d.construct dataDir cacheSize = some ({ StorageEngine.init dataDir cacheSize with
        version := v'
        flushCounter := n
        seqNumber := q }.recover d.log) := by
  rcases h.text with ⟨hmeta, -, rfl, rfl, rfl⟩ | ⟨hmeta, hlevels⟩
  · refine ⟨initial, fun _ => rfl, rfl, ?_⟩
    unfold DataDir.construct
    rw [hmeta]
    rfl
  · -- the version that is read: an empty level structure gets its four levels back
    obtain ⟨levels, hload, hlevel⟩ := loadLevelMetadata_of_printed n hlevels h.words_level
    have hflatten : levels.flatten = v.level 0 := by
      have hdeep : ∀ i, 0 < i → (⟨levels, [], 0, n⟩ : TableVersion).level i = [] :=
        fun i hi => (hlevel i).trans (h.flat.deep i hi)
      exact (metas_of_deep hdeep).trans (hlevel 0)
    refine ⟨loadSSTables d dataDir ⟨levels, [], 0, n⟩, hlevel, ?_, ?_⟩
    · show [] ++ levels.flatten.filterMap _ = _
      rw [hflatten, List.nil_append, h.filterMap_file?]
    · unfold DataDir.construct
      rw [hmeta]
      simp only [loadCounters_printCounters, hload, Option.bind_eq_bind, Option.bind_some]

end KvStorageEngine
