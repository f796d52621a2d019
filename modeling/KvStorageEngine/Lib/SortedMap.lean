import Mathlib.Data.List.Sort
import Mathlib.Order.Defs.LinearOrder

/-!
# `Lib.SortedMap` — finite maps iterated in key order

The map a C++ `std::map` is: a list of bindings with strictly increasing keys. The order is a field, so
an unsorted map cannot be built, and two maps with the same lookups are equal (`ext_find?`), which is what
lets a file written by iterating one map be compared with the map itself.
-/

/-- A finite map from `κ` to `ν`, kept as its bindings in strictly increasing key order. -/
structure SortedMap (κ ν : Type*) [LinearOrder κ] where
  entries : List (κ × ν)
  sorted : entries.Pairwise (·.1 < ·.1)

namespace SortedMap

variable {κ ν : Type*} [LinearOrder κ]

/-! ## Bindings -/

/-- Bind `k` in a sorted list of bindings, replacing the old binding of `k`. -/
def insertEntry (k : κ) (v : ν) : List (κ × ν) → List (κ × ν)
  | [] => [(k, v)]
  | (k', v') :: rest =>
    if k < k' then (k, v) :: (k', v') :: rest
    else if k = k' then (k, v) :: rest
    else (k', v') :: insertEntry k v rest

theorem mem_insertEntry {k : κ} {v : ν} {p : κ × ν} {l : List (κ × ν)}
    (h : p ∈ insertEntry k v l) : p = (k, v) ∨ p ∈ l := by
  induction l with
  | nil => exact Or.inl (by simpa [insertEntry] using h)
  | cons q rest ih =>
      obtain ⟨k', v'⟩ := q
      rw [insertEntry] at h
      split_ifs at h with h1 h2
      · exact List.mem_cons.mp h
      · exact (List.mem_cons.mp h).imp_right (List.mem_cons_of_mem _)
      · rcases List.mem_cons.mp h with rfl | h
        · exact Or.inr List.mem_cons_self
        · exact (ih h).imp_right (List.mem_cons_of_mem _)

theorem insertEntry_sorted (k : κ) (v : ν) {l : List (κ × ν)} (h : l.Pairwise (·.1 < ·.1)) :
    (insertEntry k v l).Pairwise (·.1 < ·.1) := by
  induction l with
  | nil => simp [insertEntry]
  | cons q rest ih =>
      obtain ⟨k', v'⟩ := q
      obtain ⟨hhd, htl⟩ := List.pairwise_cons.mp h
      rw [insertEntry]
      split_ifs with h1 h2
      · refine List.pairwise_cons.mpr ⟨fun p hp => ?_, h⟩
        rcases List.mem_cons.mp hp with rfl | hp
        · exact h1
        · exact h1.trans (hhd p hp)
      · subst h2
        exact List.pairwise_cons.mpr ⟨hhd, htl⟩
      · refine List.pairwise_cons.mpr ⟨fun p hp => ?_, ih htl⟩
        rcases mem_insertEntry hp with rfl | hp
        · exact lt_of_le_of_ne (not_lt.mp h1) (Ne.symm h2)
        · exact hhd p hp

/-- The value bound to `k` in a list of bindings. -/
def findEntry (k : κ) : List (κ × ν) → Option ν
  | [] => none
  | (k', v) :: rest => if k = k' then some v else findEntry k rest

theorem findEntry_insertEntry (k k' : κ) (v : ν) (l : List (κ × ν)) :
    findEntry k' (insertEntry k v l) = if k' = k then some v else findEntry k' l := by
  induction l with
  | nil => rfl
  | cons q rest ih =>
      obtain ⟨k'', v''⟩ := q
      rw [insertEntry]
      by_cases h1 : k < k''
      · rw [if_pos h1, findEntry]
      · rw [if_neg h1]
        by_cases h2 : k = k''
        · subst h2
          rw [if_pos rfl, findEntry, findEntry]
          by_cases h3 : k' = k <;> simp [h3]
        · rw [if_neg h2, findEntry, findEntry, ih]
          by_cases h3 : k' = k''
          · subst h3; simp [Ne.symm h2]
          · simp [h3]

theorem findEntry_eq_some {k : κ} {v : ν} {l : List (κ × ν)} (h : l.Pairwise (·.1 < ·.1)) :
    findEntry k l = some v ↔ (k, v) ∈ l := by
  induction l with
  | nil => simp [findEntry]
  | cons q rest ih =>
      obtain ⟨k', v'⟩ := q
      obtain ⟨hhd, htl⟩ := List.pairwise_cons.mp h
      simp only [findEntry, List.mem_cons, Prod.mk.injEq]
      split_ifs with h1
      · subst h1
        have : (k, v) ∉ rest := fun hm => lt_irrefl k (hhd _ hm)
        simp [this, eq_comm]
      · simp [h1, ih htl]

theorem findEntry_append (k : κ) (a b : List (κ × ν)) :
    findEntry k (a ++ b) = (findEntry k a).or (findEntry k b) := by
  induction a with
  | nil => rfl
  | cons q a ih =>
      rw [List.cons_append, findEntry, findEntry, ih]
      split_ifs <;> rfl

theorem findEntry_eq_none {k : κ} {l : List (κ × ν)} (h : ∀ q ∈ l, q.1 ≠ k) : findEntry k l = none := by
  induction l with
  | nil => rfl
  | cons q l ih =>
      obtain ⟨hq, hl⟩ := List.forall_mem_cons.mp h
      rw [findEntry, if_neg (Ne.symm hq), ih hl]

/-! ## The map operations -/

/-- The empty map. -/
def empty : SortedMap κ ν := ⟨[], List.Pairwise.nil⟩

/-- The value bound to `k`, if any (`std::map::find`). -/
def find? (m : SortedMap κ ν) (k : κ) : Option ν := findEntry k m.entries

/-- Bind `k` to `v` (`m[k] = v`). -/
def insert (m : SortedMap κ ν) (k : κ) (v : ν) : SortedMap κ ν :=
  ⟨insertEntry k v m.entries, insertEntry_sorted k v m.sorted⟩

/-- Remove the binding of `k` (`std::map::erase`). -/
def erase (m : SortedMap κ ν) (k : κ) : SortedMap κ ν :=
  ⟨m.entries.filter (fun p => p.1 ≠ k), m.sorted.filter _⟩

/-- The keys, in increasing order. -/
def keys (m : SortedMap κ ν) : List κ := m.entries.map Prod.fst

/-- The number of bindings. -/
def size (m : SortedMap κ ν) : Nat := m.entries.length

/-- No bindings (`std::map::empty`). -/
def isEmpty (m : SortedMap κ ν) : Bool := m.entries.isEmpty

theorem find?_eq_some {m : SortedMap κ ν} {k : κ} {v : ν} :
    m.find? k = some v ↔ (k, v) ∈ m.entries := findEntry_eq_some m.sorted

@[simp] theorem find?_empty (k : κ) : (empty : SortedMap κ ν).find? k = none := rfl

theorem find?_insert (m : SortedMap κ ν) (k k' : κ) (v : ν) :
    (m.insert k v).find? k' = if k' = k then some v else m.find? k' :=
  findEntry_insertEntry k k' v m.entries

@[simp] theorem find?_insert_self (m : SortedMap κ ν) (k : κ) (v : ν) :
    (m.insert k v).find? k = some v := by rw [find?_insert, if_pos rfl]

theorem find?_insert_ne (m : SortedMap κ ν) {k k' : κ} (v : ν) (h : k' ≠ k) :
    (m.insert k v).find? k' = m.find? k' := by rw [find?_insert, if_neg h]

theorem find?_erase (m : SortedMap κ ν) (k k' : κ) :
    (m.erase k).find? k' = if k' = k then none else m.find? k' := by
  apply Option.ext
  intro v
  rw [find?_eq_some]
  split_ifs with h
  · simp [erase, h]
  · rw [find?_eq_some]
    simp [erase, h]

theorem isEmpty_iff {m : SortedMap κ ν} : m.isEmpty = true ↔ ∀ k, m.find? k = none := by
  constructor
  · intro h k
    have : m.entries = [] := List.isEmpty_iff.mp h
    simp [find?, this, findEntry]
  · intro h
    refine List.isEmpty_iff.mpr (List.eq_nil_iff_forall_not_mem.mpr fun p hp => ?_)
    have hp' : m.find? p.1 = some p.2 := find?_eq_some.mpr hp
    rw [h p.1] at hp'
    exact absurd hp' (by simp)

theorem mem_keys {m : SortedMap κ ν} {k : κ} : k ∈ m.keys ↔ ∃ v, m.find? k = some v := by
  simp [keys, find?_eq_some]

/-- Two maps with the same lookups are the same map. -/
theorem ext_find? {m₁ m₂ : SortedMap κ ν} (h : ∀ k, m₁.find? k = m₂.find? k) : m₁ = m₂ := by
  have hmem : ∀ p, p ∈ m₁.entries ↔ p ∈ m₂.entries := by
    intro p
    rw [← find?_eq_some (m := m₁), ← find?_eq_some (m := m₂), h]
  have hnodup : ∀ m : SortedMap κ ν, m.entries.Nodup := fun m =>
    m.sorted.imp fun hab he => absurd (congrArg Prod.fst he) hab.ne
  have hperm : m₁.entries.Perm m₂.entries :=
    (List.perm_ext_iff_of_nodup (hnodup m₁) (hnodup m₂)).mpr hmem
  have heq : m₁.entries = m₂.entries :=
    hperm.eq_of_pairwise (fun a b _ _ hab hba => absurd hab hba.asymm) m₁.sorted m₂.sorted
  cases m₁; cases m₂; cases heq; rfl

theorem erase_insert (m : SortedMap κ ν) (k : κ) (v : ν) : (m.erase k).insert k v = m.insert k v := by
  apply ext_find?
  intro k'
  rw [find?_insert, find?_insert, find?_erase]
  split_ifs <;> rfl

/-- Binding a key to what it is bound to changes nothing. -/
theorem insert_eq_self {m : SortedMap κ ν} {k : κ} {v : ν} (h : m.find? k = some v) : m.insert k v = m := by
  apply ext_find?
  intro k'
  rw [find?_insert]
  split_ifs with hk
  · rw [hk, h]
  · rfl

theorem find?_foldl_insert {l : List (κ × ν)} (h : l.Pairwise (·.1 < ·.1)) (m : SortedMap κ ν) (k : κ) :
    (l.foldl (fun m p => m.insert p.1 p.2) m).find? k = (findEntry k l).or (m.find? k) := by
  induction l generalizing m with
  | nil => rfl
  | cons q l ih =>
      obtain ⟨hhd, htl⟩ := List.pairwise_cons.mp h
      rw [List.foldl_cons, ih htl, find?_insert, findEntry]
      split_ifs with hk
      · subst hk
        rw [findEntry_eq_none fun p hp => (hhd p hp).ne', Option.none_or, Option.some_or]
      · rfl

/-- A map is what comes of its bindings, one after the other. -/
theorem foldl_insert_entries (m : SortedMap κ ν) : m.entries.foldl (fun m p => m.insert p.1 p.2) empty = m := by
  apply ext_find?
  intro k
  rw [find?_foldl_insert m.sorted, find?_empty, Option.or_none]
  rfl

theorem keys_nodup (m : SortedMap κ ν) : m.keys.Nodup :=
  (List.pairwise_map.mpr m.sorted).imp fun hab => hab.ne

/-- The map with a function applied to its values. -/
def mapValues {ν' : Type*} (f : ν → ν') (m : SortedMap κ ν) : SortedMap κ ν' :=
  ⟨m.entries.map fun p => (p.1, f p.2), List.pairwise_map.mpr m.sorted⟩

theorem find?_mapValues {ν' : Type*} (f : ν → ν') (m : SortedMap κ ν) (k : κ) :
    (m.mapValues f).find? k = (m.find? k).map f := by
  apply Option.ext
  intro v
  rw [find?_eq_some, Option.map_eq_some_iff]
  simp only [mapValues, List.mem_map, Prod.mk.injEq, find?_eq_some]
  constructor
  · rintro ⟨p, hp, rfl, rfl⟩
    exact ⟨p.2, hp, rfl⟩
  · rintro ⟨v', hv', rfl⟩
    exact ⟨(k, v'), hv', rfl, rfl⟩

theorem mapValues_insert {ν' : Type*} (f : ν → ν') (m : SortedMap κ ν) (k : κ) (v : ν) :
    (m.insert k v).mapValues f = (m.mapValues f).insert k (f v) := by
  apply ext_find?
  intro k'
  rw [find?_mapValues, find?_insert, find?_insert, find?_mapValues]
  split_ifs <;> rfl

theorem mapValues_erase {ν' : Type*} (f : ν → ν') (m : SortedMap κ ν) (k : κ) :
    (m.erase k).mapValues f = (m.mapValues f).erase k := by
  apply ext_find?
  intro k'
  rw [find?_mapValues, find?_erase, find?_erase, find?_mapValues]
  split_ifs <;> rfl

@[simp] theorem size_mapValues {ν' : Type*} (f : ν → ν') (m : SortedMap κ ν) :
    (m.mapValues f).size = m.size := List.length_map _

/-! ## The first and the last binding -/

/-- The first key in order (`begin()->first`). -/
def firstKey? (m : SortedMap κ ν) : Option κ := m.keys.head?

/-- The last key in order (`rbegin()->first`). -/
def lastKey? (m : SortedMap κ ν) : Option κ := m.keys.getLast?

theorem keys_sorted (m : SortedMap κ ν) : m.keys.Pairwise (· < ·) :=
  List.pairwise_map.mpr m.sorted

/-- The first key is a bound key below every bound key. -/
theorem firstKey?_le {m : SortedMap κ ν} {lo k : κ} {v : ν} (hlo : m.firstKey? = some lo)
    (h : m.find? k = some v) : lo ≤ k := by
  have hk : k ∈ m.keys := mem_keys.mpr ⟨v, h⟩
  have hs := m.keys_sorted
  unfold firstKey? at hlo
  cases hm : m.keys with
  | nil => simp [hm] at hlo
  | cons x xs =>
      rw [hm] at hk hs hlo
      obtain rfl : x = lo := Option.some.inj hlo
      rcases List.mem_cons.mp hk with rfl | hk
      · exact le_rfl
      · exact ((List.pairwise_cons.mp hs).1 k hk).le

/-- The last key is a bound key above every bound key. -/
theorem le_lastKey? {m : SortedMap κ ν} {hi k : κ} {v : ν} (hhi : m.lastKey? = some hi)
    (h : m.find? k = some v) : k ≤ hi := by
  have hk : k ∈ m.keys := mem_keys.mpr ⟨v, h⟩
  have hs := m.keys_sorted
  obtain ⟨ys, hys⟩ := List.getLast?_eq_some_iff.mp hhi
  rw [hys] at hk hs
  rcases List.mem_append.mp hk with hk | hk
  · exact ((List.pairwise_append.mp hs).2.2 k hk hi (List.mem_singleton.mpr rfl)).le
  · exact (List.mem_singleton.mp hk).le

theorem firstKey?_mem {m : SortedMap κ ν} {lo : κ} (h : m.firstKey? = some lo) :
    ∃ v, m.find? lo = some v :=
  mem_keys.mp (List.mem_of_head? h)

theorem lastKey?_mem {m : SortedMap κ ν} {hi : κ} (h : m.lastKey? = some hi) :
    ∃ v, m.find? hi = some v :=
  mem_keys.mp (List.mem_of_getLast? h)

/-- A non-empty map has a first and a last key. -/
theorem exists_bounds {m : SortedMap κ ν} (h : m.isEmpty = false) :
    ∃ lo hi, m.firstKey? = some lo ∧ m.lastKey? = some hi := by
  have hne : m.keys ≠ [] := by
    intro hk
    have : m.entries = [] := List.map_eq_nil_iff.mp hk
    simp [isEmpty, this] at h
  exact ⟨m.keys.head hne, m.keys.getLast hne, List.head?_eq_some_head hne,
    List.getLast?_eq_some_getLast hne⟩

end SortedMap
