import KvStorageEngine.Engine.Correctness.PointLookup

/-!
# `Engine.Correctness.FilterRoundTrip` — filters that are written and read back

A filter of any size comes back from its bytes with the same size, the same number of hash functions and the same bits
(`BloomFilter.deserialize_serialize`), so it contains what it contained, every key that was added first of all. A lookup
asks the filter before it goes to the file, and is never turned away from a table that has the key.
-/

namespace KvStorageEngine

namespace BloomFilter

variable [Platform]

/-- A key that the filter of a table contains is looked for in the table, if it is in range. -/
theorem not_skips_of_contains {t : FileTable} {f : BloomFilter} (ht : t.bloomFilter = some f) {k : Bytes}
    (hk : f.contains k = true) (hmin : t.minKey ≤ k) (hmax : k ≤ t.maxKey) : ¬ t.Skips k := by
  rintro ((hlt | hlt) | hfilter)
  · exact absurd hmin (not_le.mpr hlt)
  · exact absurd hmax (not_le.mpr hlt)
  · rw [ht] at hfilter
    simp [hk] at hfilter

/-- **No false negatives**, also after persistence. From a filter of any size, with any keys added to it, the same one
    is read back; both contain all these keys, and no table with either of the two is skipped by a lookup of one of
    them. -/
theorem contains_after_roundTrip (f : BloomFilter) (hpos : 1 ≤ f.bitArraySize) (hbits : f.bitArraySize < 2 ^ 64)
    (hhashes : f.numHashFunctions < 2 ^ 64) (keys : List Bytes) :
    ∃ g, deserialize (f.addAll keys).serialize = some g ∧ g.bitArraySize = f.bitArraySize ∧
      g.numHashFunctions = f.numHashFunctions ∧ g.bits = (f.addAll keys).bits ∧
        ∀ k ∈ keys, (f.addAll keys).contains k = true ∧ g.contains k = true ∧
          ∀ t : FileTable, t.bloomFilter = some (f.addAll keys) ∨ t.bloomFilter = some g →
            t.minKey ≤ k → k ≤ t.maxKey → ¬ t.Skips k := by
  have hsize := bitArraySize_addAll f keys
  have hcount := numHashFunctions_addAll f keys
  have hround : deserialize (f.addAll keys).serialize = some (f.addAll keys) := by
    apply deserialize_serialize
    · rw [hsize]
      exact hbits
    · rw [hcount]
      exact hhashes
  refine ⟨f.addAll keys, hround, hsize, hcount, rfl, ?_⟩
  intro k hk
  have hcontains : (f.addAll keys).contains k = true := contains_of_mem hpos hk
  refine ⟨hcontains, hcontains, ?_⟩
  intro t ht hmin hmax
  exact not_skips_of_contains (ht.elim id id) hcontains hmin hmax

end BloomFilter

/-- A filter of three bits, fewer than a filter for one element has. -/
theorem contains_after_roundTrip_threeBits : letI := Platform.sample
    ∃ g, BloomFilter.deserialize ((⟨[false, true, false], 2, 3, rfl⟩ : BloomFilter).addAll
        [Bytes.ascii "a", Bytes.ascii "b"]).serialize = some g ∧ g.bitArraySize = 3 ∧
          g.contains (Bytes.ascii "b") = true := by
  let := Platform.sample
  obtain ⟨g, hg, hsize, -, -, hall⟩ := BloomFilter.contains_after_roundTrip ⟨[false, true, false], 2, 3, rfl⟩ (by decide)
    (by decide) (by decide) [Bytes.ascii "a", Bytes.ascii "b"]
  exact ⟨g, hg, hsize, (hall (Bytes.ascii "b") (by simp)).2.1⟩

end KvStorageEngine
