import KvStorageEngine.Engine.SSTable

/-!
# `Engine.TableVersion` — versions of the table tree

`engine/src/table_version.cpp`. A version is the metadata of every level plus the tables themselves; the
two are joined only by name: a table belongs to an id when `_<id>.` occurs *anywhere* in its path. The
directory the store runs in is part of that path, so the join is exact only when the directory does not
contain such a pattern itself (`ExactIds`); `matchesId_sstablePath` is the consequence everything else
uses.
-/

namespace KvStorageEngine

variable [Platform]

/-- A version: the levels, the tables they name, and two counters. -/
structure TableVersion where
  levels : List (List SSTableMeta)
  sstables : List SSTable
  versionNumber : Nat
  flushCounter : Nat

/-- `std::vector::resize` with empty levels. -/
def resizeLevels (levels : List (List SSTableMeta)) (n : Nat) : List (List SSTableMeta) :=
  levels.take n ++ List.replicate (n - levels.length) []

/-- The levels, resized where `level` is past the last one. -/
def roomFor (levels : List (List SSTableMeta)) (level : Nat) : List (List SSTableMeta) :=
  if levels.length ≤ level then resizeLevels levels (level + 1) else levels

/-- The text `_<id>.` a table's file name is searched for. -/
def idPattern (id : Nat) : Bytes := Bytes.ascii "_" ++ Bytes.toDecimal id ++ Bytes.ascii "."

/-- Whether a table counts as the one with a given id. -/
def SSTable.matchesId (t : SSTable) (id : Nat) : Bool := decide (idPattern id <:+: t.filename)

namespace TableVersion

/-- The version an empty store starts from. -/
def initial : TableVersion := ⟨List.replicate 4 [], [], 0, 0⟩

/-- `TableVersion::copyFrom`. -/
def copyFrom (other : TableVersion) : TableVersion :=
  { other with versionNumber := other.versionNumber + 1 }

/-- `TableVersion::findSSTableById`: the first table whose file name matches. -/
def findSSTableById (v : TableVersion) (id : Nat) : Option SSTable :=
  v.sstables.find? (·.matchesId id)

/-- `TableVersion::addSSTable`. -/
def addSSTable (v : TableVersion) (sst : SSTable) (m : SSTableMeta) : TableVersion :=
  { v with
    sstables := v.sstables ++ [sst]
    levels := (roomFor v.levels m.level).modify m.level (· ++ [m]) }

/-- `TableVersion::removeSSTablesByIds`: tables by file name, metadata by id. -/
def removeSSTablesByIds (v : TableVersion) (ids : List Nat) : TableVersion :=
  { v with
    sstables := v.sstables.filter fun t => !ids.any (t.matchesId ·)
    levels := v.levels.map fun level => level.filter fun m => !ids.contains m.id }

/-- The metadata of one level, empty past the last one. -/
def level (v : TableVersion) (i : Nat) : List SSTableMeta := v.levels.getD i []

/-- Every id in the levels, level by level. -/
def ids (v : TableVersion) : List Nat := v.levels.flatten.map (·.id)

end TableVersion

/-! ## Matching a table by its id -/

/-- The store's directory contains no `_<id>.` of its own. -/
def ExactIds (dataDir : Bytes) : Prop := ∀ id, ¬ idPattern id <:+: dataDir

omit [Platform] in
/-- A directory without an underscore is exact. -/
theorem exactIds_of_notMem {dataDir : Bytes} (h : (95 : UInt8) ∉ dataDir) : ExactIds dataDir :=
  fun id hin => h (hin.subset (by simp [idPattern, show Bytes.ascii "_" = [95] from rfl]))

omit [Platform] in
/-- The default directory, `data`, is exact. -/
theorem exactIds_data : ExactIds (Bytes.ascii "data") := exactIds_of_notMem (by decide)

/-- `data_dir_ + "/sstables/"`. -/
def sstableDir (dataDir : Bytes) : Bytes := dataDir ++ Bytes.ascii "/sstables/"

omit [Platform] in
theorem slash_notMem_idPattern (id : Nat) : (47 : UInt8) ∉ idPattern id := by
  intro h
  have hmem : (47 : UInt8) ∈ Bytes.toDecimal id := by
    simpa [idPattern, show Bytes.ascii "_" = [95] from rfl, show Bytes.ascii "." = [46] from rfl] using h
  have := (Bytes.mem_toDecimal hmem).1
  simp at this

omit [Platform] in
/-- A digit string ends at the first dot. -/
theorem toDecimal_eq_of_prefix_dot {m n : Nat} {rest : Bytes}
    (h : Bytes.toDecimal m ++ [46] <+: Bytes.toDecimal n ++ 46 :: rest) : m = n := by
  obtain ⟨t, ht⟩ := h
  have hdot : ∀ k, (46 : UInt8) ∉ Bytes.toDecimal k := by
    intro k hk
    have := (Bytes.mem_toDecimal hk).1
    simp at this
  have htake : ∀ (k : Nat) (r : Bytes),
      (Bytes.toDecimal k ++ 46 :: r).takeWhile (· ≠ 46) = Bytes.toDecimal k := fun k r => by
    rw [List.takeWhile_append_of_pos]
    · simp
    · intro b hb
      simpa using fun he : b = 46 => hdot k (he ▸ hb)
  apply Bytes.toDecimal_inj
  rw [← htake m t, ← htake n rest, ← ht]
  simp

omit [Platform] in
/-- The part of a table's path after its directory matches only its own id. -/
theorem idPattern_infix_fileName {m n : Nat}
    (h : idPattern m <:+: Bytes.ascii "sstable_" ++ Bytes.toDecimal n ++ Bytes.ascii ".bin") : m = n := by
  have hname : Bytes.ascii "sstable_" = Bytes.ascii "sstable" ++ [95] := by decide
  have hus : (95 : UInt8) ∉ Bytes.toDecimal n ++ Bytes.ascii ".bin" := by
    intro hmem
    rcases List.mem_append.mp hmem with hmem | hmem
    · have := (Bytes.mem_toDecimal hmem).2
      simp at this
    · exact absurd hmem (by decide)
  obtain ⟨s, t, hst⟩ := h
  rw [hname, List.append_assoc, List.append_assoc, idPattern,
    show Bytes.ascii "_" = [95] from rfl, show Bytes.ascii "." = [46] from rfl] at hst
  simp only [List.append_assoc, List.singleton_append] at hst
  -- the underscore of the pattern is the only one of the file name
  have hsplit : ∀ {a b c d : Bytes}, (95 : UInt8) ∉ c → (95 : UInt8) ∉ d →
      a ++ 95 :: b = c ++ 95 :: d → b = d := by
    intro a b c d hc hd he
    rcases List.append_eq_append_iff.mp he with ⟨u, hcu, hbu⟩ | ⟨u, hau, hdu⟩
    · cases u with
      | nil => simpa using hbu
      | cons y u =>
          obtain ⟨rfl, -⟩ := List.cons_eq_cons.mp hbu
          exact absurd (hcu ▸ by simp) hc
    · cases u with
      | nil => simpa using hdu.symm
      | cons y u =>
          obtain ⟨rfl, hd'⟩ := List.cons_eq_cons.mp hdu
          exact absurd (hd' ▸ by simp) hd
  have hb := hsplit (by decide) hus hst
  refine @toDecimal_eq_of_prefix_dot m n (Bytes.ascii "bin") ⟨t, ?_⟩
  rw [List.append_assoc, List.singleton_append]
  exact hb

/-- What a table matches by name: its own id, and every id that the directory contains the pattern of. -/
theorem matchesId_iff_or {dataDir : Bytes} {t : SSTable} {n : Nat} (ht : t.path = sstablePath (sstableDir dataDir) n)
    (id : Nat) : t.matchesId id = true ↔ n = id ∨ idPattern id <:+: dataDir := by
  unfold SSTable.matchesId SSTable.filename
  rw [decide_eq_true_eq, ht]
  have hpath : sstablePath (sstableDir dataDir) n
      = dataDir ++ 47 :: (Bytes.ascii "sstables" ++ 47 ::
          (Bytes.ascii "sstable_" ++ Bytes.toDecimal n ++ Bytes.ascii ".bin")) := by
    rw [sstablePath, sstableDir, show Bytes.ascii "/sstables/"
      = 47 :: (Bytes.ascii "sstables" ++ [47]) by decide]
    simp
  constructor
  · intro h
    rw [hpath] at h
    rcases Bytes.infix_append_cons (slash_notMem_idPattern id) h with h | h
    · exact Or.inr h
    · rcases Bytes.infix_append_cons (slash_notMem_idPattern id) h with h | h
      · refine absurd (h.subset (?_ : (95 : UInt8) ∈ idPattern id)) (by decide)
        simp [idPattern, show Bytes.ascii "_" = [95] from rfl]
      · exact Or.inl (idPattern_infix_fileName h).symm
  · rintro (rfl | h)
    · refine ⟨sstableDir dataDir ++ Bytes.ascii "sstable", Bytes.ascii "bin", ?_⟩
      rw [idPattern, sstablePath, show Bytes.ascii "sstable_" = Bytes.ascii "sstable" ++ Bytes.ascii "_"
        by decide, show Bytes.ascii ".bin" = Bytes.ascii "." ++ Bytes.ascii "bin" by decide]
      simp only [List.append_assoc]
    · rw [hpath]
      exact h.trans (List.prefix_append _ _).isInfix

/-- **Matching by name is matching by id**, when the directory is `ExactIds`. -/
theorem matchesId_sstablePath {dataDir : Bytes} (hdir : ExactIds dataDir) {t : SSTable} {n : Nat}
    (ht : t.path = sstablePath (sstableDir dataDir) n) (id : Nat) :
    t.matchesId id = true ↔ n = id := by
  rw [matchesId_iff_or ht, or_iff_left (hdir id)]

end KvStorageEngine
