import KvStorageEngine.Engine.Correctness.LevelRoundTrip

/-!
# `Engine.Correctness.MetadataCrash` — a crash while the metadata is saved

`saveMetadata` opens `metadata.txt` for writing, which empties it, writes the two counters and closes it, and then
does the same with `levels.txt`. A crash in between leaves the first bytes of one of the new files, next to the
other as it was before or as it is now (`crashedSave`), and the next constructor reads that.

What it reads is a question about cut text. A line of `levels.txt` that is cut is still read as a line only when
the cut is in its last number, and then as the line of a shorter number (`parseMeta_prefix`); so the levels that
are read are printed just as the cut text, up to the last newline (`parseLevels_prefix`). That decides when the
constructor comes back with the old levels or the new ones and with counters that are not behind
(`recovers_iff_harmless`).

Layout of the file:
* **A** — what the constructor makes of two texts.
* **B** — cut counters.
* **C** — cut levels.
* **D** — the crash.
-/

namespace KvStorageEngine

open TextStream TableVersion

/-! ## A. The constructor on two texts

A constructor that finds both files reads them, and the log can only raise the sequence number it has read. So whether
it comes back as it should is a matter of what the two texts read as (`recovers_iff`). -/

/-- The sequence number that a recovery goes on with. -/
def recoveredSeq (log : List LogRecord) (q : Nat) : Nat :=
  if log.isEmpty then q else log.foldl (fun n r => max n r.seqNumber) q + 1

section Constructor

variable [Platform]

/-- A replay changes the memtable and raises the sequence number. -/
theorem recover_fields (s : StorageEngine) (log : List LogRecord) : (s.recover log).version = s.version ∧
    (s.recover log).flushCounter = s.flushCounter ∧ (s.recover log).seqNumber = recoveredSeq log s.seqNumber := by
  unfold StorageEngine.recover recoveredSeq
  split_ifs <;> exact ⟨rfl, rfl, rfl⟩

/-- The engine has the levels of a version. -/
def SameLevels (v w : TableVersion) : Prop := ∀ i, v.level i = w.level i

/-- The constructor comes back with the levels of one of two engines, and its counters are not behind those of the
    first. -/
def Recovers (d : DataDir) (dataDir : Bytes) (cacheSize : Nat) (old new : StorageEngine) : Prop :=
  ∃ e, d.construct dataDir cacheSize = some e ∧
    (SameLevels e.version old.version ∨ SameLevels e.version new.version) ∧
    old.flushCounter ≤ e.flushCounter ∧ old.seqNumber ≤ e.seqNumber

/-- The text is read as the levels of a version. -/
def ReadsAs (text : Bytes) (v : TableVersion) : Prop :=
  ∃ levels, parseLevels (getLines text) [] = some levels ∧ ∀ i, levels.getD i [] = v.level i

/-- The engine that comes back with the counters `f` and `q` and the levels that were read. -/
def comeBack (d : DataDir) (dataDir : Bytes) (cacheSize f q : Nat) (levels : List (List SSTableMeta)) :
    StorageEngine :=
  { StorageEngine.init dataDir cacheSize with
    version := loadSSTables d dataDir ⟨if levels.isEmpty then List.replicate 4 [] else levels, [], 0, f⟩
    flushCounter := f
    seqNumber := q }.recover d.log

/-- What the constructor comes back with. -/
theorem comeBack_eq (d : DataDir) (dataDir : Bytes) (cacheSize f q : Nat) (levels : List (List SSTableMeta)) :
    (∀ i, (comeBack d dataDir cacheSize f q levels).version.level i = levels.getD i []) ∧
      (comeBack d dataDir cacheSize f q levels).flushCounter = f ∧
      (comeBack d dataDir cacheSize f q levels).seqNumber = recoveredSeq d.log q := by
  have hroom : ∀ i, (if levels.isEmpty then List.replicate 4 [] else levels).getD i [] = levels.getD i [] := by
    intro i
    split_ifs with hempty
    · rw [List.isEmpty_iff.mp hempty]
      exact level_initial i
    · rfl
  obtain ⟨hversion, hflush, hseq⟩ := recover_fields { StorageEngine.init dataDir cacheSize with
    version := loadSSTables d dataDir ⟨if levels.isEmpty then List.replicate 4 [] else levels, [], 0, f⟩
    flushCounter := f
    seqNumber := q } d.log
  exact ⟨fun i => (congrArg (TableVersion.level · i) hversion).trans (hroom i), hflush, hseq⟩

/-- The constructor comes back exactly if both texts can be read, with what they say. -/
theorem construct_eq_some_iff {d : DataDir} {text levelText : Bytes} (hmeta : d.metadata = some text)
    (hlevels : d.levels = some levelText) (dataDir : Bytes) (cacheSize : Nat) {e : StorageEngine} :
    d.construct dataDir cacheSize = some e ↔ ∃ f q levels, loadCounters text = some (f, q) ∧
      parseLevels (getLines levelText) [] = some levels ∧ comeBack d dataDir cacheSize f q levels = e := by
  unfold DataDir.construct
  simp only [hmeta, hlevels, loadLevelMetadata, Option.bind_eq_bind, Option.bind_eq_some_iff, Option.some.injEq,
    Prod.exists]
  constructor
  · rintro ⟨f, q, hcounters, v, ⟨levels, hparse, rfl⟩, rfl⟩
    exact ⟨f, q, levels, hcounters, hparse, rfl⟩
  · rintro ⟨f, q, levels, hcounters, hparse, rfl⟩
    exact ⟨f, q, hcounters, _, ⟨levels, hparse, rfl⟩, rfl⟩

/-- The constructor is a matter of the two texts and the log. -/
theorem recovers_iff {d : DataDir} {text levelText : Bytes} (hmeta : d.metadata = some text)
    (hlevels : d.levels = some levelText) (dataDir : Bytes) (cacheSize : Nat) (old new : StorageEngine) :
    Recovers d dataDir cacheSize old new ↔ ∃ f q, loadCounters text = some (f, q) ∧
      (ReadsAs levelText old.version ∨ ReadsAs levelText new.version) ∧
      old.flushCounter ≤ f ∧ old.seqNumber ≤ recoveredSeq d.log q := by
  constructor
  · rintro ⟨e, he, hsame, hf, hq⟩
    obtain ⟨f, q, levels, hcounters, hparse, rfl⟩ := (construct_eq_some_iff hmeta hlevels dataDir cacheSize).mp he
    obtain ⟨hlevel, hflush, hseq⟩ := comeBack_eq d dataDir cacheSize f q levels
    rw [hflush] at hf
    rw [hseq] at hq
    refine ⟨f, q, hcounters, hsame.imp ?_ ?_, hf, hq⟩ <;>
      exact fun h => ⟨levels, hparse, fun i => (hlevel i).symm.trans (h i)⟩
  · rintro ⟨f, q, hcounters, hreads, hf, hq⟩
    have hcome : ∀ v, ReadsAs levelText v → ∃ e, d.construct dataDir cacheSize = some e ∧
        SameLevels e.version v ∧ old.flushCounter ≤ e.flushCounter ∧ old.seqNumber ≤ e.seqNumber := by
      rintro v ⟨levels, hparse, hv⟩
      obtain ⟨hlevel, hflush, hseq⟩ := comeBack_eq d dataDir cacheSize f q levels
      exact ⟨_, (construct_eq_some_iff hmeta hlevels dataDir cacheSize).mpr ⟨f, q, levels, hcounters, hparse, rfl⟩,
        fun i => (hlevel i).trans (hv i), hflush.symm ▸ hf, hseq.symm ▸ hq⟩
    rcases hreads with h | h
    · obtain ⟨e, he, hsame, hcounters⟩ := hcome _ h
      exact ⟨e, he, Or.inl hsame, hcounters⟩
    · obtain ⟨e, he, hsame, hcounters⟩ := hcome _ h
      exact ⟨e, he, Or.inr hsame, hcounters⟩

end Constructor

/-! ## B. Cut counters

`metadata.txt` has one number a line and no sign at its end, so a cut number is read as the shorter number that is
left of it. -/

/-- The number that the first `n` digits of a number stand for. -/
def cutNumber (k n : Nat) : Nat := ofDecimal ((Bytes.toDecimal k).take n)

/-- Some digits of a number are read as a number. -/
theorem readNat_cut (k : Nat) {n : Nat} (hn : 0 < n) :
    readNat ((Bytes.toDecimal k).take n) = some (cutNumber k n, []) := by
  have hne : (Bytes.toDecimal k).take n ≠ [] := by
    rw [Ne, List.take_eq_nil_iff, not_or]
    exact ⟨by omega, toDecimal_ne_nil k⟩
  obtain ⟨k', hk'⟩ := exists_toDecimal_of_prefix hne (List.take_prefix n _)
  unfold cutNumber
  rw [hk', ofDecimal_toDecimal]
  simpa using readNat_toDecimal k' (ends_nil isDigit)

/-- A cut number is one line. -/
theorem getLines_cut (k : Nat) {n : Nat} (hn : 0 < n) :
    getLines ((Bytes.toDecimal k).take n) = [(Bytes.toDecimal k).take n] := by
  apply getLines_of_notMem
  · rw [Ne, List.take_eq_nil_iff, not_or]
    exact ⟨by omega, toDecimal_ne_nil k⟩
  · intro h
    exact newline_notMem_toDecimal k (List.mem_of_mem_take h)

/-- A cut in the first counter: its digits stand for both. -/
theorem loadCounters_cut_first {f q n : Nat} (hn : 0 < n) (hle : n ≤ (Bytes.toDecimal f).length) :
    loadCounters ((printCounters f q).take n) = some (cutNumber f n, cutNumber f n) := by
  have htext : (printCounters f q).take n = (Bytes.toDecimal f).take n := by
    unfold printCounters
    rw [List.append_assoc, List.take_append_of_le_length hle]
  have hlast : ((Bytes.toDecimal f).take n).getLast? ≠ some 10 := fun h =>
    newline_notMem_toDecimal f (List.mem_of_mem_take (List.mem_of_getLast? h))
  rw [htext, loadCounters, getLines_cut f hn]
  simp only [hlast, if_false, readNat_cut f hn, Option.map_some]

/-- A cut behind the first line: there is no second number. -/
theorem loadCounters_cut_between (f q : Nat) :
    loadCounters ((printCounters f q).take ((Bytes.toDecimal f).length + 1)) = none := by
  have htext : (printCounters f q).take ((Bytes.toDecimal f).length + 1) = Bytes.toDecimal f ++ [10] := by
    unfold printCounters
    rw [ascii_newline, List.take_append_of_le_length (by simp), List.take_of_length_le (by simp)]
  rw [htext, loadCounters, getLines_cons (newline_notMem_toDecimal f) []]
  simp [getLines]

/-- A cut in the second counter. -/
theorem loadCounters_cut_second {f q n : Nat} (hn : (Bytes.toDecimal f).length + 1 < n) :
    loadCounters ((printCounters f q).take n)
      = some (f, cutNumber q (n - (Bytes.toDecimal f).length - 1)) := by
  obtain ⟨c, rfl⟩ : ∃ c, n = (Bytes.toDecimal f ++ [10]).length + c := ⟨n - (Bytes.toDecimal f).length - 1, by
    rw [List.length_append, List.length_singleton]
    omega⟩
  have hpos : 0 < c := by
    rw [List.length_append, List.length_singleton] at hn
    omega
  have hcut : (Bytes.toDecimal f ++ [10]).length + c - (Bytes.toDecimal f).length - 1 = c := by
    rw [List.length_append, List.length_singleton]
    omega
  have htext : (printCounters f q).take ((Bytes.toDecimal f ++ [10]).length + c)
      = Bytes.toDecimal f ++ 10 :: (Bytes.toDecimal q ++ [10]).take c := by
    unfold printCounters
    rw [ascii_newline, List.take_length_add_append, List.append_assoc]
    rfl
  have hread : ∀ k, readNat (Bytes.toDecimal k) = some (k, []) := by
    intro k
    simpa using readNat_toDecimal k (ends_nil isDigit)
  rw [hcut, htext, loadCounters, getLines_cons (newline_notMem_toDecimal f)]
  rcases Nat.lt_or_ge (Bytes.toDecimal q).length c with hlt | hle
  · -- the whole number and its newline
    have hwhole : cutNumber q c = q := by
      rw [cutNumber, List.take_of_length_le hlt.le, ofDecimal_toDecimal]
    rw [List.take_of_length_le (by simpa using Nat.succ_le_of_lt hlt), getLines_cons (newline_notMem_toDecimal q)]
    simp [hread, hwhole]
  · rw [List.take_append_of_le_length hle, getLines_cut q hpos]
    simp [hread, readNat_cut q hpos]

/-! ## C. Cut levels

A line that is cut can be read only when the cut is in its last number, and then as a line with a shorter number. So a
cut text reads as the levels of its whole lines, with perhaps one table more, and whether these are given levels comes
down to comparing texts (`IsTextOf`). -/

/-- The line of a table in `levels.txt`, with its newline. -/
def printLine (m : SSTableMeta) : Bytes := printMeta m ++ [10]

theorem printLevels_eq (levels : List (List SSTableMeta)) : printLevels levels = levels.flatten.flatMap printLine :=
  rfl

theorem not_readNat_nil : readNat [] = none := rfl

theorem not_readWord_nil : readWord [] = none := rfl

/-- **A cut line** that is read at all is cut in its last number. It is then the line of the table that is read,
    which is on the same level. -/
theorem parseMeta_prefix {m m' : SSTableMeta} (hm : m.HasWords) {r : Bytes} (h : r <+: printMeta m)
    (hparse : parseMeta r = some m') : printMeta m' = r ∧ m'.level = m.level ∧ m'.HasWords := by
  unfold printMeta at h
  simp only [ascii_blank, List.append_assoc, List.singleton_append] at h
  unfold parseMeta at hparse
  simp only [Option.bind_eq_bind, Option.bind_eq_some_iff, Option.some.injEq, Prod.exists] at hparse
  obtain ⟨id, s₁, h₁, level, s₂, h₂, minKey, s₃, h₃, maxKey, s₄, h₄, maxSeq, s₅, h₅, sizeBytes, s₆, h₆, rfl⟩ := hparse
  -- field by field: nothing can be read where the text has ended
  rcases readNat_of_prefix h h₁ with rfl | ⟨rfl, r₁, hr₁, rfl, rfl⟩
  · exact absurd h₂ (by simp [not_readNat_nil])
  rw [readNat_space] at h₂
  rcases readNat_of_prefix hr₁ h₂ with rfl | ⟨rfl, r₂, hr₂, rfl, rfl⟩
  · exact absurd h₃ (by simp [not_readWord_nil])
  rw [readWord_space] at h₃
  rcases readWord_of_prefix hm.1 hr₂ h₃ with rfl | ⟨rfl, r₃, hr₃, rfl, rfl⟩
  · exact absurd h₄ (by simp [not_readWord_nil])
  rw [readWord_space] at h₄
  rcases readWord_of_prefix hm.2 hr₃ h₄ with rfl | ⟨rfl, r₄, hr₄, rfl, rfl⟩
  · exact absurd h₅ (by simp [not_readNat_nil])
  rw [readNat_space] at h₅
  rcases readNat_of_prefix hr₄ h₅ with rfl | ⟨rfl, r₅, hr₅, rfl, rfl⟩
  · exact absurd h₆ (by simp [not_readNat_nil])
  rw [readNat_space] at h₆
  have hne : r₅ ≠ [] := by
    rintro rfl
    exact absurd h₆ (by simp [not_readNat_nil])
  obtain ⟨k, rfl⟩ := exists_toDecimal_of_prefix hne hr₅
  have hk := readNat_toDecimal k (ends_nil isDigit)
  rw [List.append_nil, h₆] at hk
  obtain ⟨rfl, -⟩ := Prod.mk.inj (Option.some.inj hk)
  refine ⟨?_, rfl, hm⟩
  unfold printMeta
  simp only [ascii_blank, List.append_assoc, List.singleton_append]

/-- **A cut text** that is read at all is the text of the tables that are read, up to a newline at its end. They
    are on the levels that the cut text has them on. -/
theorem parseLevels_prefix {metas : List SSTableMeta} (hwords : ∀ m ∈ metas, m.HasWords) {p : Bytes}
    (hp : p <+: metas.flatMap printLine) {levels levels' : List (List SSTableMeta)}
    (hparse : parseLevels (getLines p) levels = some levels') :
    ∃ read : List SSTableMeta, levels' = read.foldl placeMeta levels ∧
      (read.flatMap printLine = p ∨ read.flatMap printLine = p ++ [10]) ∧
      read.map (·.level) <+: metas.map (·.level) := by
  induction metas generalizing p levels with
  | nil =>
      obtain rfl := List.prefix_nil.mp hp
      exact ⟨[], (Option.some.inj hparse).symm, Or.inl rfl, List.nil_prefix⟩
  | cons m metas ih =>
      obtain ⟨hm, hmetas⟩ := List.forall_mem_cons.mp hwords
      rw [List.flatMap_cons, printLine, List.append_assoc, List.singleton_append] at hp
      rcases prefix_append_cons hp with hcut | ⟨p', hp', rfl⟩
      · by_cases hnil : p = []
        · subst hnil
          exact ⟨[], (Option.some.inj hparse).symm, Or.inl rfl, List.nil_prefix⟩
        · -- the last line, without its newline
          rw [getLines_of_notMem hnil fun h => newline_notMem_printMeta hm (hcut.subset h), parseLevels,
            if_neg (by simpa using hnil)] at hparse
          obtain ⟨m', hm', hparse⟩ := Option.bind_eq_some_iff.mp hparse
          obtain ⟨htext, hlevel, -⟩ := parseMeta_prefix hm hcut hm'
          refine ⟨[m'], (Option.some.inj hparse).symm, Or.inr ?_, ?_⟩
          · rw [List.flatMap_cons, List.flatMap_nil, List.append_nil, printLine, htext]
          · rw [List.map_cons, List.map_nil, List.map_cons, hlevel]
            exact List.cons_prefix_cons.mpr ⟨rfl, List.nil_prefix⟩
      · -- a whole line
        rw [getLines_cons (newline_notMem_printMeta hm), parseLevels,
          if_neg (by simpa using printMeta_ne_nil m), parseMeta_printMeta hm] at hparse
        obtain ⟨read, hread, htext, hlevels⟩ := ih hmetas hp' hparse
        refine ⟨m :: read, hread, ?_, ?_⟩
        · rw [List.flatMap_cons, printLine, List.append_assoc, List.singleton_append]
          apply htext.imp (congrArg (printMeta m ++ 10 :: ·))
          intro h
          rw [h, List.append_assoc, List.cons_append]
        · exact List.cons_prefix_cons.mpr ⟨rfl, hlevels⟩

theorem mem_iff_of_filter_level {l₁ l₂ : List SSTableMeta}
    (h : ∀ i, l₁.filter (i = ·.level) = l₂.filter (i = ·.level)) (m : SSTableMeta) : m ∈ l₁ ↔ m ∈ l₂ := by
  have hfilter : m ∈ l₁.filter (m.level = ·.level) ↔ m ∈ l₂.filter (m.level = ·.level) := by rw [h]
  simpa using hfilter

/-- Lists in the order of their levels are equal when they agree on every level. -/
theorem eq_of_filter_level {l₁ l₂ : List SSTableMeta} (h₁ : l₁.Pairwise (·.level ≤ ·.level))
    (h₂ : l₂.Pairwise (·.level ≤ ·.level)) (h : ∀ i, l₁.filter (i = ·.level) = l₂.filter (i = ·.level)) :
    l₁ = l₂ := by
  induction l₁ generalizing l₂ with
  | nil =>
      symm
      rw [List.eq_nil_iff_forall_not_mem]
      intro m hm
      exact absurd ((mem_iff_of_filter_level h m).mpr hm) List.not_mem_nil
  | cons a l₁ ih =>
      have hmem := mem_iff_of_filter_level h
      cases l₂ with
      | nil => exact absurd ((hmem a).mp List.mem_cons_self) List.not_mem_nil
      | cons b l₂ =>
          obtain ⟨ha, h₁'⟩ := List.pairwise_cons.mp h₁
          obtain ⟨hb, h₂'⟩ := List.pairwise_cons.mp h₂
          -- the first of either is on the lowest level of both
          have hlevel : a.level = b.level := by
            have hab : a.level ≤ b.level := by
              rcases List.mem_cons.mp ((hmem b).mpr List.mem_cons_self) with rfl | hmb
              · exact Nat.le_refl _
              · exact ha b hmb
            have hba : b.level ≤ a.level := by
              rcases List.mem_cons.mp ((hmem a).mp List.mem_cons_self) with rfl | hma
              · exact Nat.le_refl _
              · exact hb a hma
            exact Nat.le_antisymm hab hba
          have hfirst := h a.level
          rw [List.filter_cons_of_pos (by simp), List.filter_cons_of_pos (by simpa using hlevel)] at hfirst
          obtain ⟨rfl, -⟩ := List.cons_eq_cons.mp hfirst
          have hrest : ∀ i, l₁.filter (i = ·.level) = l₂.filter (i = ·.level) := by
            intro i
            have hi := h i
            by_cases hia : i = a.level
            · rw [List.filter_cons_of_pos (by simpa using hia), List.filter_cons_of_pos (by simpa using hia)] at hi
              exact (List.cons_eq_cons.mp hi).2
            · rwa [List.filter_cons_of_neg (by simpa using hia), List.filter_cons_of_neg (by simpa using hia)] at hi
          rw [ih h₁' h₂' hrest]

/-- Well-placed levels, one after the other, are in the order of their levels. -/
theorem WellPlaced.sorted {levels : List (List SSTableMeta)} (h : WellPlaced levels) :
    levels.flatten.Pairwise (·.level ≤ ·.level) := by
  rw [List.pairwise_flatten]
  constructor
  · intro l hl
    obtain ⟨i, hi, rfl⟩ := List.getElem_of_mem hl
    have hlevel : ∀ m ∈ levels[i], m.level = i := fun m hm => (h i m (by simpa [List.getD, hi] using hm)).1
    exact List.pairwise_of_forall_mem_list fun a ha b hb => by rw [hlevel a ha, hlevel b hb]
  · rw [List.pairwise_iff_getElem]
    intro i j hi hj hij a ha b hb
    rw [(h i a (by simpa [List.getD, hi] using ha)).1, (h j b (by simpa [List.getD, hj] using hb)).1]
    exact hij.le

/-- The text of some levels, with or without its last newline. -/
def IsTextOf (p : Bytes) (levels : List (List SSTableMeta)) : Prop :=
  p = printLevels levels ∨ p ++ [10] = printLevels levels

instance (p : Bytes) (levels : List (List SSTableMeta)) : Decidable (IsTextOf p levels) :=
  inferInstanceAs (Decidable (_ ∨ _))

/-- The last newline does not matter. -/
theorem IsTextOf.getLines_eq {p : Bytes} {levels : List (List SSTableMeta)} (hplaced : WellPlaced levels)
    (h : IsTextOf p levels) : getLines p = getLines (printLevels levels) := by
  rcases h with rfl | h
  · rfl
  · rw [printLevels_eq] at h ⊢
    have hwords := hasWords_of_placed hplaced
    rcases List.eq_nil_or_concat levels.flatten with hnil | ⟨front, m, hconcat⟩
    · rw [hnil] at h
      exact absurd h (by simp)
    · rw [List.concat_eq_append] at hconcat
      rw [hconcat] at h hwords ⊢
      rw [List.flatMap_append, List.flatMap_cons, List.flatMap_nil, List.append_nil, printLine, ← List.append_assoc] at h
      have hfront := fun x hx => hwords x (List.mem_append_left _ hx)
      have hm := hwords m (List.mem_append_right _ List.mem_cons_self)
      rw [(List.append_inj' h rfl).1]
      calc getLines (front.flatMap printLine ++ printMeta m)
          = front.map printMeta ++ getLines (printMeta m) := getLines_flatMap_append front hfront _
        _ = (front ++ [m]).map printMeta := by
            rw [getLines_of_notMem (printMeta_ne_nil m) (newline_notMem_printMeta hm), List.map_append]
            rfl
        _ = getLines ((front ++ [m]).flatMap printLine) := (getLines_flatMap _ hwords).symm

/-- **What a cut text is read as**: levels whose text it is, with or without the last newline. -/
theorem readsAs_prefix_iff [Platform] {levels : List (List SSTableMeta)} (hlevels : WellPlaced levels) {p : Bytes}
    (hp : p <+: printLevels levels) {v : TableVersion} (hv : WellPlaced v.levels) :
    ReadsAs p v ↔ IsTextOf p v.levels := by
  constructor
  · rintro ⟨levels', hparse, hsame⟩
    obtain ⟨read, rfl, htext, hread⟩ := parseLevels_prefix (hasWords_of_placed hlevels) hp hparse
    have hsorted : read.Pairwise (·.level ≤ ·.level) := by
      have hmap := (List.pairwise_map.mpr hlevels.sorted).sublist hread.sublist
      exact List.pairwise_map.mp hmap
    have hflatten : read = v.levels.flatten := by
      apply eq_of_filter_level hsorted hv.sorted
      intro i
      rw [filter_of_placed hv i]
      exact (getD_foldl_placeMeta read [] i).symm.trans (hsame i)
    rw [IsTextOf, printLevels_eq, ← hflatten]
    exact htext.imp Eq.symm Eq.symm
  · intro htext
    obtain ⟨levels', hparse, hsame⟩ := parseLevels_printLevels hv
    exact ⟨levels', by rw [htext.getLines_eq hv, hparse], hsame⟩

/-! ## D. The crash

A crash leaves a beginning of the new `metadata.txt` beside the old `levels.txt`, or the new `metadata.txt` beside a
beginning of the new `levels.txt`. What is harmless is read off the cut and the two versions. -/

/-- How far `saveMetadata` had come: so many bytes of the one file or of the other. -/
inductive CrashPoint where
  | metadata (written : Nat)
  | levels (written : Nat)
  deriving DecidableEq, Repr

section Crash

variable [Platform]

/-- The directory after a crash in `saveMetadata`. -/
def DataDir.crashedSave (d : DataDir) (s : StorageEngine) : CrashPoint → DataDir
  | .metadata written => { d with metadata := some ((printCounters s.flushCounter s.seqNumber).take written) }
  | .levels written => { d with
      metadata := some (printCounters s.flushCounter s.seqNumber)
      levels := some ((printLevels s.version.levels).take written) }

/-- When a crash does no harm. In `metadata.txt`: the digits that are there stand for large enough numbers, where
    those of the first counter stand for both as long as its newline is missing. In `levels.txt`: what is there is
    the text of the old levels or the new. -/
def HarmlessCrash (log : List LogRecord) (old new : StorageEngine) : CrashPoint → Prop
  | .metadata written =>
    let digits := (Bytes.toDecimal new.flushCounter).length
    (0 < written ∧ written ≤ digits ∧ old.flushCounter ≤ cutNumber new.flushCounter written ∧
        old.seqNumber ≤ recoveredSeq log (cutNumber new.flushCounter written)) ∨
      (digits + 1 < written ∧ old.flushCounter ≤ new.flushCounter ∧
        old.seqNumber ≤ recoveredSeq log (cutNumber new.seqNumber (written - digits - 1)))
  | .levels written =>
    let text := (printLevels new.version.levels).take written
    (IsTextOf text old.version.levels ∨ IsTextOf text new.version.levels) ∧
      old.flushCounter ≤ new.flushCounter ∧ old.seqNumber ≤ recoveredSeq log new.seqNumber

instance (log : List LogRecord) (old new : StorageEngine) : ∀ point, Decidable (HarmlessCrash log old new point)
  | .metadata _ => inferInstanceAs (Decidable ((_ ∧ _ ∧ _ ∧ _) ∨ (_ ∧ _ ∧ _)))
  | .levels _ => inferInstanceAs (Decidable ((_ ∨ _) ∧ _ ∧ _))

/-- **A crash in `saveMetadata` is survived** exactly when it is harmless, for versions that `levels.txt` can hold. The
    new one is only asked for where `levels.txt` is the file that was cut. -/
theorem recovers_iff_harmless (d : DataDir) (dataDir : Bytes) (cacheSize : Nat) {old new : StorageEngine}
    (hold : WellPlaced old.version.levels) (point : CrashPoint)
    (hnew : ∀ written, point = .levels written → WellPlaced new.version.levels) :
    Recovers ((d.saveMetadata old).crashedSave new point) dataDir cacheSize old new ↔
      HarmlessCrash d.log old new point := by
  cases point with
  | metadata written =>
      have holdText : ReadsAs (printLevels old.version.levels) old.version :=
        (readsAs_prefix_iff hold (List.prefix_refl _) hold).mpr (Or.inl rfl)
      rw [recovers_iff (d := (d.saveMetadata old).crashedSave new (.metadata written)) rfl rfl]
      unfold HarmlessCrash
      dsimp only
      rcases Nat.eq_zero_or_pos written with rfl | hpos
      · rw [List.take_zero]
        simp [loadCounters, getLines]
      · rcases Nat.lt_trichotomy written ((Bytes.toDecimal new.flushCounter).length + 1) with hlt | rfl | hgt
        · rw [loadCounters_cut_first hpos (Nat.lt_succ_iff.mp hlt)]
          constructor
          · rintro ⟨f, q, hfq, -, hf, hq⟩
            obtain ⟨rfl, rfl⟩ := Prod.mk.inj (Option.some.inj hfq)
            exact Or.inl ⟨hpos, by omega, hf, hq⟩
          · rintro (⟨-, -, hf, hq⟩ | ⟨hgt, -⟩)
            · exact ⟨_, _, rfl, Or.inl holdText, hf, hq⟩
            · omega
        · rw [loadCounters_cut_between]
          simp
        · rw [loadCounters_cut_second hgt]
          constructor
          · rintro ⟨f, q, hfq, -, hf, hq⟩
            obtain ⟨rfl, rfl⟩ := Prod.mk.inj (Option.some.inj hfq)
            exact Or.inr ⟨hgt, hf, hq⟩
          · rintro (⟨-, hle, -⟩ | ⟨-, hf, hq⟩)
            · omega
            · exact ⟨_, _, rfl, Or.inl holdText, hf, hq⟩
  | levels written =>
      have hnew := hnew written rfl
      rw [recovers_iff (d := (d.saveMetadata old).crashedSave new (.levels written)) rfl rfl,
        loadCounters_printCounters, readsAs_prefix_iff hnew (List.take_prefix written _) hold,
        readsAs_prefix_iff hnew (List.take_prefix written _) hnew]
      constructor
      · rintro ⟨f, q, hfq, htext, hf, hq⟩
        obtain ⟨rfl, rfl⟩ := Prod.mk.inj (Option.some.inj hfq)
        exact ⟨htext, hf, hq⟩
      · rintro ⟨htext, hf, hq⟩
        exact ⟨_, _, rfl, htext, hf, hq⟩

/-- An engine with the given tables on level 0. -/
def withTables (metas : List SSTableMeta) (flushCounter seqNumber : Nat) : StorageEngine :=
  { StorageEngine.init (Bytes.ascii "data") 0 with
    version := ⟨[metas], [], 0, flushCounter⟩
    flushCounter
    seqNumber }

omit [Platform] in
theorem wellPlaced_single {metas : List SSTableMeta} (h : ∀ m ∈ metas, m.level = 0 ∧ m.HasWords) :
    WellPlaced [metas] := by
  intro i m hm
  cases i with
  | zero => exact h m hm
  | succ i => exact absurd hm List.not_mem_nil

/-- The table of a first flush. -/
def firstTable : SSTableMeta := ⟨1, Bytes.ascii "a", Bytes.ascii "c", 4, 210, 0⟩

/-- The table of a second one. -/
def secondTable : SSTableMeta := ⟨2, Bytes.ascii "b", Bytes.ascii "d", 8, 97, 0⟩

omit [Platform] in
/-- A crash behind the first line of `levels.txt` leaves the old levels. -/
theorem recovers_iff_harmless_behindFirst : letI := Platform.sample
    Recovers ((DataDir.empty.saveMetadata (withTables [firstTable] 1 5)).crashedSave
      (withTables [firstTable, secondTable] 2 9) (.levels (printLine firstTable).length)) (Bytes.ascii "data") 0
      (withTables [firstTable] 1 5) (withTables [firstTable, secondTable] 2 9) := by
  let := Platform.sample
  have hharmless : decide (HarmlessCrash DataDir.empty.log (withTables [firstTable] 1 5)
      (withTables [firstTable, secondTable] 2 9) (.levels (printLine firstTable).length)) = true := by decide +kernel
  exact (recovers_iff_harmless DataDir.empty (Bytes.ascii "data") 0 (wellPlaced_single (by decide +kernel)) _
    fun _ _ => wellPlaced_single (by decide +kernel)).mpr (of_decide_eq_true hharmless)

omit [Platform] in
/-- Three crashes that are not survived: with `metadata.txt` just emptied the constructor throws, with one digit
    written the sequence number goes back, and with `levels.txt` just emptied all tables are forgotten. -/
theorem not_recovers_emptied : letI := Platform.sample
    let old := withTables [firstTable] 1 5
    let new := withTables [firstTable, secondTable] 2 9
    let saved := DataDir.empty.saveMetadata old
    ¬ Recovers (saved.crashedSave new (.metadata 0)) (Bytes.ascii "data") 0 old new ∧
      ¬ Recovers (saved.crashedSave new (.metadata 1)) (Bytes.ascii "data") 0 old new ∧
      ¬ Recovers (saved.crashedSave new (.levels 0)) (Bytes.ascii "data") 0 old new := by
  let := Platform.sample
  intro old new saved
  have hempty : (saved.crashedSave new (.metadata 0)).construct (Bytes.ascii "data") 0 = none := rfl
  refine ⟨?_, ?_, ?_⟩
  · rintro ⟨e, he, -⟩
    rw [hempty] at he
    exact absurd he (by simp)
  · have hback : ((saved.crashedSave new (.metadata 1)).construct (Bytes.ascii "data") 0).map (·.seqNumber)
        = some 2 := by decide +kernel
    rintro ⟨e, he, -, -, hq⟩
    rw [he] at hback
    have hlt : decide (old.seqNumber ≤ 2) = false := by decide +kernel
    rw [Option.map_some, Option.some.injEq] at hback
    rw [hback] at hq
    exact of_decide_eq_false hlt hq
  · have hforgotten : ((saved.crashedSave new (.levels 0)).construct (Bytes.ascii "data") 0).map
        (·.version.level 0) = some [] := by decide +kernel
    rintro ⟨e, he, hsame, -⟩
    rw [he, Option.map_some, Option.some.injEq] at hforgotten
    rcases hsame with h | h
    · have hlevel := h 0
      rw [hforgotten] at hlevel
      exact List.cons_ne_nil _ _ hlevel.symm
    · have hlevel := h 0
      rw [hforgotten] at hlevel
      exact List.cons_ne_nil _ _ hlevel.symm

end Crash

end KvStorageEngine
