import KvStorageEngine.Engine.LRUCache
import KvStorageEngine.Lib.RecencyList

/-!
# `Engine.LinkedCache` — the read cache with its list nodes

`engine/src/lru_cache.cpp` once more, with the iterators that `Engine.LRUCache` leaves out. `lru_list_` is a
`std::list`: a node keeps its address for as long as it lives, and an iterator is the address of a node. `cache_` maps a
key to its entry and to the iterator that was stored with it. Splicing or erasing at an address where no node is, and
`back()` of an empty list, are undefined: `none`.

Where a new node goes is up to the allocator.
-/

namespace KvStorageEngine

/-- `operator new`: an address that is not in use. -/
structure Allocator where
  new : List Nat → Nat
  fresh : ∀ used, new used ∉ used

/-- `LRUCache::CacheNode`. -/
structure CacheNode where
  entry : Entry
  listIter : Nat
  deriving DecidableEq, Repr

/-- The cache: `lru_list_` as its nodes, each an address and a key, and `cache_`. -/
structure LinkedCache where
  capacity : Nat
  lruList : List (Nat × Bytes)
  cache : SortedMap Bytes CacheNode

namespace LinkedCache

def new (capacity : Nat) : LinkedCache := ⟨capacity, [], SortedMap.empty⟩

/-- The list without the node at an address (`std::list::erase`). -/
def eraseNode (l : List (Nat × Bytes)) (iter : Nat) : Option (List (Nat × Bytes)) :=
  if (l.find? (·.1 = iter)).isSome then some (l.filter (·.1 ≠ iter)) else none

/-- The node at an address moves to the front (`std::list::splice`). -/
def splice (l : List (Nat × Bytes)) (iter : Nat) : Option (List (Nat × Bytes)) :=
  (l.find? (·.1 = iter)).map fun node => node :: l.filter (·.1 ≠ iter)

/-- `LRUCache::get`. -/
def get (c : LinkedCache) (key : Bytes) : Option (Option Entry × LinkedCache) :=
  match c.cache.find? key with
  | none => some (none, c)
  | some node => do
    let lruList ← splice c.lruList node.listIter
    some (some node.entry, { c with lruList })

/-- The part of `put` that makes room: the key of the last node leaves the map, then the node the list. -/
def evict (c : LinkedCache) : Option LinkedCache :=
  if c.capacity ≤ c.cache.size then do
    let last ← c.lruList.getLast?
    some { c with cache := c.cache.erase last.2, lruList := c.lruList.dropLast }
  else some c

/-- `LRUCache::put`. -/
def put (alloc : Allocator) (c : LinkedCache) (key : Bytes) (entry : Entry) : Option LinkedCache :=
  match c.cache.find? key with
  | some node => do
    let cache := c.cache.insert key { node with entry }
    let lruList ← splice c.lruList node.listIter
    some { c with cache, lruList }
  | none => do
    let c ← c.evict
    let front := alloc.new (c.lruList.map (·.1))
    some { c with lruList := (front, key) :: c.lruList, cache := c.cache.insert key ⟨entry, front⟩ }

/-- `LRUCache::clear`. -/
def clear (c : LinkedCache) : LinkedCache := { c with cache := SortedMap.empty, lruList := [] }

/-- `LRUCache::invalidate`. -/
def invalidate (c : LinkedCache) (key : Bytes) : Option LinkedCache :=
  match c.cache.find? key with
  | none => some c
  | some node => do
    let lruList ← eraseNode c.lruList node.listIter
    some { c with lruList, cache := c.cache.erase key }

/-- `LRUCache::size`. -/
def size (c : LinkedCache) : Nat := c.cache.size

/-- The cache under a sequence of calls, with what the `get`s have answered so far. -/
structure Calls where
  cache : LinkedCache
  answers : List (Option Entry)

/-- One call. -/
def step (alloc : Allocator) (s : Calls) : RecencyList.Op Bytes Entry → Option Calls
  | .get key => (s.cache.get key).map fun r => ⟨r.2, s.answers ++ [r.1]⟩
  | .put key entry => (s.cache.put alloc key entry).map fun cache => { s with cache }
  | .invalidate key => (s.cache.invalidate key).map fun cache => { s with cache }
  | .clear => some { s with cache := s.cache.clear }

end LinkedCache

end KvStorageEngine
