import KvStorageEngine.Engine.Types
import KvStorageEngine.Lib.SortedMap

/-!
# `Engine.LRUCache` — the read cache

`engine/src/lru_cache.cpp`: a recency list of keys and a hash map from key to entry. An iterator into the
list is the position of the one node holding its key, so `splice` to the front is removing the key and
putting it first. Every method runs under the cache's lock.
-/

namespace KvStorageEngine

/-- Capacity, recency list (most recent first), and the entries. -/
structure LRUCache where
  capacity : Nat
  lruList : List Bytes
  cache : SortedMap Bytes Entry

namespace LRUCache

def new (capacity : Nat) : LRUCache := ⟨capacity, [], SortedMap.empty⟩

/-- `LRUCache::get`: a hit moves the key to the front. -/
def get (c : LRUCache) (key : Bytes) : Option Entry × LRUCache :=
  match c.cache.find? key with
  | none => (none, c)
  | some entry => (some entry, { c with lruList := key :: c.lruList.erase key })

/-- Drop the least recently used key. -/
def evict (c : LRUCache) : LRUCache :=
  match c.lruList.getLast? with
  | none => c
  | some lruKey => { c with cache := c.cache.erase lruKey, lruList := c.lruList.dropLast }

/-- `LRUCache::put`: overwrite in place, or make room and add. -/
def put (c : LRUCache) (key : Bytes) (entry : Entry) : LRUCache :=
  match c.cache.find? key with
  | some _ => { c with cache := c.cache.insert key entry, lruList := key :: c.lruList.erase key }
  | none =>
    let c := if c.capacity ≤ c.cache.size then c.evict else c
    { c with cache := c.cache.insert key entry, lruList := key :: c.lruList }

/-- `LRUCache::clear`. -/
def clear (c : LRUCache) : LRUCache := { c with cache := SortedMap.empty, lruList := [] }

/-- `LRUCache::invalidate`. -/
def invalidate (c : LRUCache) (key : Bytes) : LRUCache :=
  match c.cache.find? key with
  | none => c
  | some _ => { c with cache := c.cache.erase key, lruList := c.lruList.erase key }

/-! ## What the entries are after each call -/

theorem fst_get (c : LRUCache) (key : Bytes) : (c.get key).1 = c.cache.find? key := by
  unfold get
  split <;> simp_all

theorem cache_get (c : LRUCache) (key : Bytes) : (c.get key).2.cache = c.cache := by
  unfold get
  split <;> rfl

theorem find?_clear (c : LRUCache) (k : Bytes) : c.clear.cache.find? k = none := rfl

theorem find?_evict {c : LRUCache} {k : Bytes} {e : Entry} (h : c.evict.cache.find? k = some e) :
    c.cache.find? k = some e := by
  unfold evict at h
  split at h
  · exact h
  · rw [SortedMap.find?_erase] at h
    split_ifs at h
    exact h

/-- After a `put` the cache holds the new entry and otherwise only entries it held before. -/
theorem find?_put {c : LRUCache} {key k : Bytes} {entry e : Entry}
    (h : (c.put key entry).cache.find? k = some e) :
    (k = key ∧ e = entry) ∨ (k ≠ key ∧ c.cache.find? k = some e) := by
  by_cases hk : k = key
  · subst hk
    refine Or.inl ⟨rfl, ?_⟩
    unfold put at h
    split at h <;> exact (Option.some.inj ((SortedMap.find?_insert_self ..).symm.trans h)).symm
  · refine Or.inr ⟨hk, ?_⟩
    unfold put at h
    split at h
    · rwa [SortedMap.find?_insert_ne _ _ hk] at h
    · dsimp only at h
      rw [SortedMap.find?_insert_ne _ _ hk] at h
      split_ifs at h
      · exact find?_evict h
      · exact h

/-- After `invalidate` the key is gone and nothing is new. -/
theorem find?_invalidate {c : LRUCache} {key k : Bytes} {e : Entry}
    (h : (c.invalidate key).cache.find? k = some e) : k ≠ key ∧ c.cache.find? k = some e := by
  unfold invalidate at h
  split at h
  · rename_i hn
    refine ⟨fun hk => ?_, h⟩
    rw [hk, hn] at h
    exact absurd h (by simp)
  · rw [SortedMap.find?_erase] at h
    split_ifs at h with hk
    exact ⟨hk, h⟩

theorem find?_invalidate_ne {c : LRUCache} {key k : Bytes} (hk : k ≠ key) :
    (c.invalidate key).cache.find? k = c.cache.find? k := by
  unfold invalidate
  split
  · rfl
  · rw [SortedMap.find?_erase, if_neg hk]

theorem find?_put_self (c : LRUCache) (key : Bytes) (entry : Entry) :
    (c.put key entry).cache.find? key = some entry := by
  unfold put
  split <;> exact SortedMap.find?_insert_self ..

end LRUCache

end KvStorageEngine
