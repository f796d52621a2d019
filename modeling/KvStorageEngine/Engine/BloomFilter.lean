import KvStorageEngine.Lib.Bytes

/-!
# `Engine.BloomFilter` — the filter in front of a table

`engine/src/bloom_filter.cpp`. Two things it uses are fixed by the platform and not by this code: the
value of `std::hash<std::string>`, and the floating-point sizing of the bit array. Both come from the
`Platform`; all the code relies on is that a filter for at least one element has at least one bit.

The one property a reader of a table depends on is `contains_of_mem`: a filter answers yes for every key
that was added, so a lookup it rejects is for a key the table does not hold.
-/

namespace KvStorageEngine

/-- What the C++ platform fixes: the string hash, and the two results of the floating-point sizing. -/
class Platform where
  hash : Bytes → Nat
  bloomBits : Nat → Nat
  bloomHashes : Nat → Nat
  bloomBits_pos : ∀ n, 0 < n → 0 < bloomBits n

/-- A platform to run the model on: a multiplicative string hash, and the sizing for one false positive in
    a hundred. -/
@[reducible] def Platform.sample : Platform where
  hash key := key.foldl (fun h b => (h * 131 + b.toNat) % 2 ^ 64) 7
  bloomBits n := 9585 * n / 1000
  bloomHashes _ := 6
  bloomBits_pos n h := by omega

variable [Platform]

/-- The bit array, its length and the number of hash functions. -/
structure BloomFilter where
  bits : List Bool
  numHashFunctions : Nat
  bitArraySize : Nat
  length_bits : bits.length = bitArraySize

namespace BloomFilter

/-- The constructor, at the false-positive rate the tables use. -/
def new (numElements : Nat) : BloomFilter where
  bits := List.replicate (Platform.bloomBits numElements) false
  numHashFunctions :=
    if Platform.bloomHashes numElements < 1 then 1 else Platform.bloomHashes numElements
  bitArraySize := Platform.bloomBits numElements
  length_bits := List.length_replicate

/-- The bit positions of a key: double hashing in `size_t` arithmetic. -/
def hash (f : BloomFilter) (key : Bytes) : List Nat :=
  (List.range f.numHashFunctions).map fun i =>
    ((Platform.hash key + i * Platform.hash (key ++ Bytes.ascii "salt")) % 2 ^ 64) % f.bitArraySize

/-- Set the bits of a key. -/
def add (f : BloomFilter) (key : Bytes) : BloomFilter where
  bits := (f.hash key).foldl (fun bits h => bits.set h true) f.bits
  numHashFunctions := f.numHashFunctions
  bitArraySize := f.bitArraySize
  length_bits := by
    suffices h : ∀ (hs : List Nat) (bits : List Bool),
        (hs.foldl (fun bits h => bits.set h true) bits).length = bits.length by
      rw [h, f.length_bits]
    intro hs
    induction hs with
    | nil => intro bits; rfl
    | cons h hs ih => intro bits; rw [List.foldl_cons, ih, List.length_set]

/-- Whether every bit of a key is set. -/
def contains (f : BloomFilter) (key : Bytes) : Bool :=
  (f.hash key).all fun h => f.bits[h]?.getD false

/-- The length of `serialize`: three counters and the packed bits. -/
def serializedSize (f : BloomFilter) : Nat := 8 * 3 + (f.bitArraySize + 7) / 8

/-! ## No false negatives -/

omit [Platform] in
/-- The bits a fold of `set` leaves: those set before and those of the fold. -/
theorem getElem?_foldl_set (hs : List Nat) (bits : List Bool) (i : Nat) :
    (hs.foldl (fun bits h => bits.set h true) bits)[i]?
      = if i ∈ hs ∧ i < bits.length then some true else bits[i]? := by
  induction hs generalizing bits with
  | nil => simp
  | cons h hs ih =>
      rw [List.foldl_cons, ih, List.length_set, List.getElem?_set]
      by_cases hi : h = i
      · subst hi
        by_cases hl : h < bits.length
        · simp [hl]
        · simp [hl]
      · simp [hi, Ne.symm hi]

theorem hash_lt {f : BloomFilter} (hf : 0 < f.bitArraySize) {key : Bytes} {h : Nat}
    (hh : h ∈ f.hash key) : h < f.bitArraySize := by
  obtain ⟨i, -, rfl⟩ := List.mem_map.mp hh
  exact Nat.mod_lt _ hf

@[simp] theorem hash_add (f : BloomFilter) (key k : Bytes) : (f.add key).hash k = f.hash k := rfl

@[simp] theorem bitArraySize_add (f : BloomFilter) (key : Bytes) :
    (f.add key).bitArraySize = f.bitArraySize := rfl

/-- An added key is contained. -/
theorem contains_add_self {f : BloomFilter} (hf : 0 < f.bitArraySize) (key : Bytes) :
    (f.add key).contains key = true := by
  rw [contains, List.all_eq_true]
  intro h hh
  have hlt : h < f.bits.length := by rw [f.length_bits]; exact hash_lt hf hh
  rw [add, getElem?_foldl_set, if_pos ⟨hh, hlt⟩]
  rfl

/-- Adding a key forgets no other. -/
theorem contains_add {f : BloomFilter} {k : Bytes} (key : Bytes) (hk : f.contains k = true) :
    (f.add key).contains k = true := by
  rw [contains, List.all_eq_true] at hk ⊢
  intro h hh
  have hset := hk h hh
  rw [add, getElem?_foldl_set]
  split_ifs
  · rfl
  · exact hset

/-- Add a list of keys in order. -/
def addAll (f : BloomFilter) (keys : List Bytes) : BloomFilter := keys.foldl add f

theorem contains_addAll {f : BloomFilter} {k : Bytes} (keys : List Bytes)
    (hk : f.contains k = true) : (f.addAll keys).contains k = true := by
  induction keys generalizing f with
  | nil => exact hk
  | cons key keys ih => exact ih (contains_add key hk)

/-- **No false negatives.** A filter with at least one bit contains every key that was added. -/
theorem contains_of_mem {f : BloomFilter} (hf : 0 < f.bitArraySize) {keys : List Bytes} {k : Bytes}
    (hk : k ∈ keys) : (f.addAll keys).contains k = true := by
  induction keys generalizing f with
  | nil => exact absurd hk (by simp)
  | cons key keys ih =>
      rcases List.mem_cons.mp hk with rfl | hk
      · exact contains_addAll keys (contains_add_self hf k)
      · exact ih (f := f.add key) hf hk

end BloomFilter

end KvStorageEngine
