import KvStorageEngine.Engine.BloomFilter
import KvStorageEngine.Lib.LittleEndian

/-!
# `Engine.BloomCodec` — a filter as bytes

`BloomFilter::serialize` and `deserialize` (`engine/src/bloom_filter.cpp`): three counters of eight bytes and
the bits, eight to a byte, the first one lowest. `deserialize` trusts the length that the bytes state. Where
that makes it read past their end, the result here is `none`.

A filter comes back from its own bytes (`deserialize_serialize`), and never from fewer
(`deserialize_take`).
-/

namespace KvStorageEngine

open LittleEndian

/-! ## Bits in bytes -/

/-- `data[i / 8] |= (1 << i % 8)`. -/
def setBit (data : Bytes) (i : Nat) : Bytes :=
  data.modify (i / 8) fun b => UInt8.ofNat (b.toNat ||| 1 <<< (i % 8))

/-- `data[i / 8] & (1 << i % 8)`, as a condition. -/
def testBit (data : Bytes) (i : Nat) : Bool := (data.getD (i / 8) 0).toNat.testBit (i % 8)

/-- The first `n` bits, packed. -/
def packBits (bits : List Bool) (n : Nat) : Bytes :=
  (List.range n).foldl (fun data i => if bits[i]?.getD false then setBit data i else data)
    (Bytes.zeros ((n + 7) / 8))

theorem length_setBit (data : Bytes) (i : Nat) : (setBit data i).length = data.length :=
  List.length_modify _ _ _

theorem testBit_setBit {data : Bytes} {i : Nat} (h : i / 8 < data.length) (j : Nat) :
    testBit (setBit data i) j = (decide (j = i) || testBit data j) := by
  unfold testBit setBit
  rw [List.getD_eq_getElem?_getD, List.getD_eq_getElem?_getD, List.getElem?_modify]
  by_cases hbyte : i / 8 = j / 8
  · -- in the same byte the two agree when their places in it do
    have hplace : (j = i) ↔ i % 8 = j % 8 := by omega
    have hlt : j % 8 < 8 := Nat.mod_lt j (by decide)
    rw [List.getElem?_eq_getElem (hbyte ▸ h)]
    simp only [hbyte, if_true, Option.map_eq_map, Option.map_some, Option.getD_some, UInt8.toNat_ofNat',
      Nat.testBit_mod_two_pow, Nat.testBit_or, Nat.one_shiftLeft, Nat.testBit_two_pow, hlt, decide_true,
      Bool.true_and, hplace]
    exact Bool.or_comm _ _
  · have hne : j ≠ i := by
      rintro rfl
      exact hbyte rfl
    rw [decide_eq_false hne, Bool.false_or]
    simp only [hbyte, if_false]
    cases data[j / 8]? <;> rfl

theorem testBit_zeros (n i : Nat) : testBit (Bytes.zeros n) i = false := by
  unfold testBit Bytes.zeros
  rw [List.getD_eq_getElem?_getD, List.getElem?_replicate]
  split_ifs <;> exact Nat.zero_testBit _

/-- The loop after `k` rounds: the first `k` bits are in place. -/
theorem packBits_loop (bits : List Bool) {n k : Nat} (hk : k ≤ n) :
    ((List.range k).foldl (fun data i => if bits[i]?.getD false then setBit data i else data)
        (Bytes.zeros ((n + 7) / 8))).length = (n + 7) / 8 ∧
      ∀ i, testBit ((List.range k).foldl (fun data i => if bits[i]?.getD false then setBit data i else data)
        (Bytes.zeros ((n + 7) / 8))) i = (decide (i < k) && bits[i]?.getD false) := by
  induction k with
  | zero =>
      refine ⟨Bytes.length_zeros _, ?_⟩
      intro i
      rw [decide_eq_false (Nat.not_lt_zero i), Bool.false_and]
      exact testBit_zeros _ i
  | succ k ih =>
      obtain ⟨hlen, hbits⟩ := ih (by omega)
      rw [List.range_succ, List.foldl_append, List.foldl_cons, List.foldl_nil]
      by_cases hb : bits[k]?.getD false = true
      · rw [if_pos hb]
        refine ⟨by rw [length_setBit, hlen], ?_⟩
        intro i
        rw [testBit_setBit (by rw [hlen]; omega), hbits]
        by_cases hi : i = k
        · subst hi
          simp [hb]
        · have hlt : (i < k + 1) ↔ i < k := by omega
          simp [hi, hlt]
      · rw [if_neg hb]
        refine ⟨hlen, ?_⟩
        intro i
        rw [hbits]
        by_cases hi : i = k
        · subst hi
          simp [hb]
        · have hlt : (i < k + 1) ↔ i < k := by omega
          simp [hlt]

theorem length_packBits (bits : List Bool) (n : Nat) : (packBits bits n).length = (n + 7) / 8 :=
  (packBits_loop bits (Nat.le_refl n)).1

theorem testBit_packBits (bits : List Bool) {n i : Nat} (hi : i < n) :
    testBit (packBits bits n) i = bits[i]?.getD false := by
  unfold packBits
  rw [(packBits_loop bits (Nat.le_refl n)).2, decide_eq_true hi, Bool.true_and]

/-- `std::vector<bool>::resize(n, false)`. -/
def resizeBits (bits : List Bool) (n : Nat) : List Bool := bits.take n ++ List.replicate (n - bits.length) false

/-- The loop of `deserialize`. -/
def unpackLoop (data : Bytes) (n : Nat) (bits : List Bool) : List Bool :=
  (List.range n).foldl (fun bits i => if testBit data i then bits.set i true else bits) bits

/-- Bits that are all false stay so. -/
theorem resizeBits_of_false {bits : List Bool} (h : ∀ b ∈ bits, b = false) (n : Nat) :
    resizeBits bits n = List.replicate n false := by
  rw [resizeBits, List.eq_replicate_of_mem h, List.take_replicate, List.replicate_append_replicate, List.length_replicate]
  congr 1
  omega

/-- The loop after `k` rounds, on bits that are all false. -/
theorem getElem?_unpackLoop (data : Bytes) {n k : Nat} (hk : k ≤ n) (i : Nat) :
    ((List.range k).foldl (fun bits i => if testBit data i then bits.set i true else bits)
        (List.replicate n false))[i]? = if i < n then some (decide (i < k) && testBit data i) else none := by
  induction k with
  | zero =>
      rw [List.range_zero, List.foldl_nil, List.getElem?_replicate]
      simp
  | succ k ih =>
      have ih := ih (by omega)
      rw [List.range_succ, List.foldl_append, List.foldl_cons, List.foldl_nil]
      by_cases hi : i = k
      · subst hi
        have hin : i < n := by omega
        rw [if_pos hin] at ih ⊢
        obtain ⟨hlen, -⟩ := List.getElem?_eq_some_iff.mp ih
        cases hbit : testBit data i with
        | true =>
            rw [if_pos rfl, List.getElem?_set_self hlen]
            simp
        | false =>
            rw [if_neg (by simp), ih]
            simp [hbit]
      · have hlt : (i < k + 1) ↔ i < k := by omega
        rw [decide_eq_decide.mpr hlt, ← ih]
        split_ifs
        · rw [List.getElem?_set_ne (Ne.symm hi)]
        · rfl

theorem unpackLoop_replicate (data : Bytes) (n : Nat) :
    unpackLoop data n (List.replicate n false) = (List.range n).map (testBit data) := by
  apply List.ext_getElem?
  intro i
  rw [unpackLoop, getElem?_unpackLoop data (Nat.le_refl n), List.getElem?_map]
  split_ifs with hi
  · rw [List.getElem?_range hi, decide_eq_true hi, Bool.true_and]
    rfl
  · rw [List.getElem?_eq_none (by simpa using hi)]
    rfl

/-! ## The filter -/

namespace BloomFilter

/-- `BloomFilter::serialize`. -/
def serialize (f : BloomFilter) : Bytes :=
  encode 8 f.bitArraySize ++ encode 8 f.numHashFunctions ++ encode 8 ((f.bitArraySize + 7) / 8) ++
    packBits f.bits f.bitArraySize

/-- `BloomFilter::deserialize`. The loop sets bits of an array that is all false. -/
def deserialize (data : Bytes) : Option BloomFilter :=
  let bitArraySize := decode (data.take 8)
  let numHashFunctions := decode ((data.drop 8).take 8)
  if data.length < 24 + (bitArraySize + 7) / 8 then none
  else some {
    bits := (List.range bitArraySize).map (testBit (data.drop 24))
    numHashFunctions := numHashFunctions
    bitArraySize := bitArraySize
    length_bits := by rw [List.length_map, List.length_range] }

/-- The object that is filled is one for a single element at first, whatever size it then gets. -/
theorem bits_of_deserialize [Platform] {data : Bytes} {g : BloomFilter} (h : deserialize data = some g) :
    g.bits = unpackLoop (data.drop 24) g.bitArraySize (resizeBits (BloomFilter.new 1).bits g.bitArraySize) := by
  have hfalse : ∀ b ∈ (BloomFilter.new 1).bits, b = false := fun b hb => List.eq_of_mem_replicate hb
  rw [resizeBits_of_false hfalse, unpackLoop_replicate]
  unfold deserialize at h
  dsimp only at h
  split_ifs at h
  obtain rfl := Option.some.inj h
  rfl

variable {f : BloomFilter}

theorem length_serialize (f : BloomFilter) : f.serialize.length = f.serializedSize := by
  unfold serialize serializedSize
  simp only [List.length_append, length_encode, length_packBits]

/-- The first counter, as long as it is there. -/
theorem take_serialize {n : Nat} (hn : 8 ≤ n) : (f.serialize.take n).take 8 = encode 8 f.bitArraySize := by
  unfold serialize
  rw [List.take_take, Nat.min_eq_left hn, List.append_assoc, List.append_assoc,
    List.take_left' (length_encode 8 _)]

/-- **A filter comes back.** -/
theorem deserialize_serialize (hbits : f.bitArraySize < 2 ^ 64) (hhashes : f.numHashFunctions < 2 ^ 64) :
    deserialize f.serialize = some f := by
  have hsize : decode (f.serialize.take 8) = f.bitArraySize := by
    have htake := take_serialize (f := f) (Nat.le_refl 8)
    rw [List.take_take, Nat.min_self] at htake
    rw [htake, decode_encode hbits]
  have hcount : decode ((f.serialize.drop 8).take 8) = f.numHashFunctions := by
    unfold serialize
    rw [List.append_assoc, List.append_assoc, List.drop_left' (length_encode 8 _),
      List.take_left' (length_encode 8 _), decode_encode hhashes]
  -- behind the three counters
  have hpacked : f.serialize.drop 24 = packBits f.bits f.bitArraySize := by
    unfold serialize
    exact List.drop_left' (by simp only [List.length_append, length_encode])
  have hlen : ¬ f.serialize.length < 24 + (f.bitArraySize + 7) / 8 := by
    rw [length_serialize]
    exact Nat.lt_irrefl _
  have hread : (List.range f.bitArraySize).map (testBit (packBits f.bits f.bitArraySize)) = f.bits := by
    apply List.ext_getElem
    · rw [List.length_map, List.length_range, f.length_bits]
    · intro i hi hi'
      rw [List.length_map, List.length_range] at hi
      rw [List.getElem_map, List.getElem_range, testBit_packBits f.bits hi, List.getElem?_eq_getElem hi']
      rfl
  unfold deserialize
  simp only [hsize, hcount, hpacked, hread, if_neg hlen]

/-- **Nothing comes back from fewer bytes.** -/
theorem deserialize_take (hbits : f.bitArraySize < 2 ^ 64) {n : Nat} (hn : n < f.serializedSize) :
    deserialize (f.serialize.take n) = none := by
  have hlen : (f.serialize.take n).length = n := by
    rw [List.length_take, length_serialize]
    omega
  unfold deserialize
  dsimp only
  apply if_pos
  rw [hlen]
  by_cases hheader : n < 24
  · omega
  · -- the counter is there and states all bits
    rw [take_serialize (by omega), decode_encode hbits]
    exact hn

end BloomFilter

end KvStorageEngine
