import KvStorageEngine.Engine.LinkedCache
import KvStorageEngine.Lib.Run

/-!
# `Engine.Correctness.CacheRefinement` — the read cache is an LRU cache

`lru_list_` and `cache_` are two structures that four methods update one after the other. `Linked` says that they
correspond one to one: the stored iterators lead to the nodes of their keys, and every node is found through the map.
All methods come down to two changes, a key that leaves both (`Linked.drop`) and a key that joins both in front
(`Linked.add`). With that the cache simulates the ideal one of `Lib.RecencyList` (`refines_recencyList`).

The last part connects the cache without iterators that the engine uses, `LRUCache`.
-/

namespace KvStorageEngine

open RecencyList Run

namespace LinkedCache

/-- The list and the map correspond: nodes and keys are listed once, a stored iterator is at the node of its key, and a
    node's key is in the map with an iterator to the node. -/
structure Linked (c : LinkedCache) : Prop where
  nodes : (c.lruList.map (·.1)).Nodup
  keys : (c.lruList.map (·.2)).Nodup
  points : ∀ k n, c.cache.find? k = some n → (n.listIter, k) ∈ c.lruList
  listed : ∀ a k, (a, k) ∈ c.lruList → ∃ n, c.cache.find? k = some n ∧ n.listIter = a

/-- The bindings of a cache, in the order of its list. -/
def bindings (cache : SortedMap Bytes CacheNode) (l : List (Nat × Bytes)) : List (Bytes × Entry) :=
  l.filterMap fun node => (cache.find? node.2).map fun n => (node.2, n.entry)

/-- The ideal cache that a linked one stands for. -/
def pairs (c : LinkedCache) : List (Bytes × Entry) := bindings c.cache c.lruList

/-! ## A. What the correspondence says

A node is where its key says, and its key leads to it; so the list of the nodes is the list of the pairs that the
ideal cache keeps. -/

/-- The pairs depend on the map only at the keys of the list. -/
theorem bindings_congr {cache cache' : SortedMap Bytes CacheNode} {l : List (Nat × Bytes)}
    (h : ∀ p ∈ l, cache.find? p.2 = cache'.find? p.2) : bindings cache l = bindings cache' l := by
  unfold bindings
  apply List.filterMap_congr
  intro p hp
  rw [h p hp]

theorem bindings_cons {cache : SortedMap Bytes CacheNode} {a : Nat} {k : Bytes} {n : CacheNode}
    (h : cache.find? k = some n) (l : List (Nat × Bytes)) :
    bindings cache ((a, k) :: l) = (k, n.entry) :: bindings cache l := by
  unfold bindings
  rw [List.filterMap_cons, h]
  rfl

/-- Taking a key out of the list takes it out of the pairs. -/
theorem bindings_filter (cache : SortedMap Bytes CacheNode) (l : List (Nat × Bytes)) (key : Bytes) :
    bindings cache (l.filter (·.2 ≠ key)) = remove key (bindings cache l) := by
  unfold bindings remove
  rw [List.filterMap_filter, List.filter_filterMap]
  apply List.filterMap_congr
  intro p _
  by_cases hk : p.2 = key
  · cases cache.find? p.2 <;> simp [hk, Option.filter]
  · cases cache.find? p.2 <;> simp [hk, Option.filter]

namespace Linked

variable {c : LinkedCache} {key : Bytes} {node : CacheNode}

/-- The node that a stored iterator leads to. -/
theorem find?_node (h : c.Linked) (hk : c.cache.find? key = some node) :
    c.lruList.find? (·.1 = node.listIter) = some (node.listIter, key) :=
  find?_of_mem h.nodes (h.points key node hk)

/-- The node at a key's iterator is the one node with the key. -/
theorem filter_node (h : c.Linked) (hk : c.cache.find? key = some node) :
    c.lruList.filter (·.1 ≠ node.listIter) = c.lruList.filter (·.2 ≠ key) := by
  apply List.filter_congr
  rintro ⟨a, k⟩ hp
  have hmem := h.points key node hk
  have hiff : a = node.listIter ↔ k = key := by
    constructor
    · intro ha
      have := List.inj_on_of_nodup_map h.nodes hp hmem ha
      exact congrArg Prod.snd this
    · intro he
      have := List.inj_on_of_nodup_map h.keys hp hmem he
      exact congrArg Prod.fst this
  simp [hiff]

/-- `splice` moves the node of a key to the front. -/
theorem splice_eq (h : c.Linked) (hk : c.cache.find? key = some node) :
    splice c.lruList node.listIter = some ((node.listIter, key) :: c.lruList.filter (·.2 ≠ key)) := by
  unfold splice
  rw [h.find?_node hk, h.filter_node hk]
  rfl

/-- `erase` takes the node of a key out. -/
theorem eraseNode_eq (h : c.Linked) (hk : c.cache.find? key = some node) :
    eraseNode c.lruList node.listIter = some (c.lruList.filter (·.2 ≠ key)) := by
  unfold eraseNode
  rw [h.find?_node hk, h.filter_node hk]
  rfl

/-- The ideal cache lists the keys of the list. -/
theorem map_pairs (h : c.Linked) : c.pairs.map (·.1) = c.lruList.map (·.2) := by
  have hall : ∀ p ∈ c.lruList, ∃ n, c.cache.find? p.2 = some n := by
    intro p hp
    obtain ⟨n, hn, -⟩ := h.listed p.1 p.2 hp
    exact ⟨n, hn⟩
  unfold pairs
  generalize c.lruList = l at hall
  induction l with
  | nil => rfl
  | cons p l ih =>
      obtain ⟨⟨n, hn⟩, hl⟩ := List.forall_mem_cons.mp hall
      rw [bindings_cons hn, List.map_cons, List.map_cons, ih hl]

theorem length_pairs (h : c.Linked) : c.pairs.length = c.lruList.length := by
  have := congrArg List.length h.map_pairs
  simpa using this

/-- A lookup in the map is one in the ideal cache. -/
theorem find_pairs (h : c.Linked) (key : Bytes) :
    find key c.pairs = (c.cache.find? key).map (·.entry) := by
  cases hk : c.cache.find? key with
  | none =>
      rw [Option.map_none, find_eq_none]
      rintro ⟨k, e⟩ hp rfl
      obtain ⟨⟨a, k'⟩, hl, hf⟩ := List.mem_filterMap.mp hp
      obtain ⟨n, hn, -⟩ := h.listed a k' hl
      rw [hn] at hf
      obtain ⟨rfl, -⟩ := Prod.mk.inj (Option.some.inj hf)
      rw [hk] at hn
      exact absurd hn (by simp)
  | some n =>
      apply find_of_mem
      · rw [h.map_pairs]
        exact h.keys
      · refine List.mem_filterMap.mpr ⟨(n.listIter, key), h.points key n hk, ?_⟩
        simp [hk]

/-- The map holds as many keys as the list. -/
theorem size_eq (h : c.Linked) : c.size = c.lruList.length := by
  have hperm : c.cache.keys.Perm (c.lruList.map (·.2)) := by
    rw [List.perm_ext_iff_of_nodup c.cache.keys_nodup h.keys]
    intro k
    rw [SortedMap.mem_keys]
    constructor
    · rintro ⟨n, hn⟩
      exact List.mem_map.mpr ⟨_, h.points k n hn, rfl⟩
    · intro hk
      obtain ⟨⟨a, k'⟩, hp, rfl⟩ := List.mem_map.mp hk
      obtain ⟨n, hn, -⟩ := h.listed a k' hp
      exact ⟨n, hn⟩
  have hlen := hperm.length_eq
  unfold SortedMap.keys at hlen
  rwa [List.length_map, List.length_map] at hlen

/-! ## B. A key leaves, a key joins

`splice` and `erase` take the same node out of the list, `push_front` puts a new one in front. The allocator hands
out an address that is not in use. -/

theorem new (capacity : Nat) : (new capacity).Linked :=
  ⟨List.nodup_nil, List.nodup_nil, fun _ _ h => absurd h (by simp [LinkedCache.new]),
    fun _ _ h => absurd h List.not_mem_nil⟩

/-- A key leaves the list and the map. -/
theorem drop (h : c.Linked) (key : Bytes) :
    ({ c with cache := c.cache.erase key, lruList := c.lruList.filter (·.2 ≠ key) } : LinkedCache).Linked := by
  have hsub : (c.lruList.filter (·.2 ≠ key)).Sublist c.lruList := List.filter_sublist
  refine ⟨h.nodes.sublist (hsub.map _), h.keys.sublist (hsub.map _), ?_, ?_⟩
  · intro k n hn
    rw [SortedMap.find?_erase] at hn
    split_ifs at hn with hk
    exact List.mem_filter.mpr ⟨h.points k n hn, by simpa using hk⟩
  · intro a k hp
    obtain ⟨hp, hk⟩ := List.mem_filter.mp hp
    obtain ⟨n, hn, ha⟩ := h.listed a k hp
    refine ⟨n, ?_, ha⟩
    rw [SortedMap.find?_erase, if_neg (by simpa using hk)]
    exact hn

theorem pairs_drop (c : LinkedCache) (key : Bytes) :
    pairs { c with cache := c.cache.erase key, lruList := c.lruList.filter (·.2 ≠ key) }
      = remove key c.pairs := by
  unfold pairs
  rw [← bindings_filter]
  apply bindings_congr
  intro p hp
  have hk : p.2 ≠ key := by simpa using (List.mem_filter.mp hp).2
  rw [SortedMap.find?_erase, if_neg hk]

/-- A key that is not there joins the map and, at a free address, the front of the list. -/
theorem add (h : c.Linked) (hk : c.cache.find? key = none) {a : Nat} (ha : a ∉ c.lruList.map (·.1))
    (entry : Entry) :
    ({ c with lruList := (a, key) :: c.lruList, cache := c.cache.insert key ⟨entry, a⟩ } : LinkedCache).Linked := by
  have hnot : ∀ b k, (b, k) ∈ c.lruList → k ≠ key := by
    rintro b k hp rfl
    obtain ⟨n, hn, -⟩ := h.listed b k hp
    rw [hk] at hn
    exact absurd hn (by simp)
  refine ⟨List.nodup_cons.mpr ⟨ha, h.nodes⟩, List.nodup_cons.mpr ⟨?_, h.keys⟩, ?_,
    ?_⟩
  · intro hm
    obtain ⟨⟨b, k⟩, hp, he⟩ := List.mem_map.mp hm
    exact hnot b k hp he
  · intro k n hn
    rw [SortedMap.find?_insert] at hn
    split_ifs at hn with he
    · rw [← Option.some.inj hn, he]
      exact List.mem_cons_self
    · exact List.mem_cons_of_mem _ (h.points k n hn)
  · intro b k hp
    rcases List.mem_cons.mp hp with he | hp
    · obtain ⟨rfl, rfl⟩ := Prod.mk.inj he
      exact ⟨_, SortedMap.find?_insert_self .., rfl⟩
    · obtain ⟨n, hn, hb⟩ := h.listed b k hp
      exact ⟨n, (SortedMap.find?_insert_ne _ _ (hnot b k hp)).trans hn, hb⟩

theorem pairs_add (h : c.Linked) (hk : c.cache.find? key = none) (a : Nat) (entry : Entry) :
    pairs { c with lruList := (a, key) :: c.lruList, cache := c.cache.insert key ⟨entry, a⟩ }
      = (key, entry) :: c.pairs := by
  unfold pairs
  rw [bindings_cons (SortedMap.find?_insert_self ..)]
  congr 1
  apply bindings_congr
  intro p hp
  obtain ⟨n, hn, -⟩ := h.listed p.1 p.2 hp
  apply SortedMap.find?_insert_ne
  rintro he
  rw [he, hk] at hn
  exact absurd hn (by simp)

/-- A key that is there gets an entry and moves to the front. -/
theorem touch (h : c.Linked) (hk : c.cache.find? key = some node) (entry : Entry) :
    let c' : LinkedCache := { c with
      cache := c.cache.insert key { node with entry }
      lruList := (node.listIter, key) :: c.lruList.filter (·.2 ≠ key) }
    c'.Linked ∧ c'.pairs = RecencyList.touch key entry c.pairs := by
  have hgone : (c.cache.erase key).find? key = none := by rw [SortedMap.find?_erase, if_pos rfl]
  have hfree : node.listIter ∉ (c.lruList.filter (·.2 ≠ key)).map (·.1) := by
    rw [← h.filter_node hk]
    simp
  have hadd := (h.drop key).add hgone hfree entry
  have hpairs := (h.drop key).pairs_add hgone node.listIter entry
  rw [pairs_drop] at hpairs
  dsimp only at hadd hpairs
  rw [SortedMap.erase_insert] at hadd hpairs
  exact ⟨hadd, hpairs⟩

/-- Dropping the last node is dropping its key. -/
theorem dropLast (h : c.Linked) {init : List (Nat × Bytes)} {a : Nat} {k : Bytes}
    (hl : c.lruList = init ++ [(a, k)]) :
    let c' : LinkedCache := { c with cache := c.cache.erase k, lruList := init }
    c'.Linked ∧ c'.pairs = c.pairs.dropLast := by
  obtain ⟨n, hn, -⟩ := h.listed a k (by simp [hl])
  have hpairs : c.pairs = bindings c.cache init ++ [(k, n.entry)] := by
    unfold pairs bindings
    rw [hl, List.filterMap_append]
    simp [hn]
  have hinit : c.lruList.filter (·.2 ≠ k) = init := by
    have hkeys := h.keys
    rw [hl, List.map_append, List.nodup_append] at hkeys
    have hself : init.filter (·.2 ≠ k) = init := by
      rw [List.filter_eq_self]
      intro p hp
      have hne := hkeys.2.2 p.2 (List.mem_map.mpr ⟨p, hp, rfl⟩) k (by simp)
      simpa using hne
    rw [hl, List.filter_append, hself]
    simp
  have hdrop := h.drop k
  have hpairs_drop := pairs_drop c k
  rw [hinit] at hdrop hpairs_drop
  refine ⟨hdrop, ?_⟩
  have hnodup : (c.pairs.map (·.1)).Nodup := by
    rw [h.map_pairs]
    exact h.keys
  rw [hpairs] at hnodup hpairs_drop ⊢
  rw [hpairs_drop, remove_last hnodup, List.dropLast_concat]

end Linked

/-! ## C. The calls

Each call on the nodes does what the ideal call does on the pairs (`Simulates`). -/

/-- A cache that stands for an ideal one. -/
structure Simulates (capacity : Nat) (l : List (Bytes × Entry)) (c : LinkedCache) : Prop extends Linked c where
  capacity_eq : c.capacity = capacity
  pairs_eq : c.pairs = l
  bound : c.size ≤ capacity

namespace Simulates

variable {capacity : Nat} {l : List (Bytes × Entry)} {c : LinkedCache}

theorem length_eq (h : Simulates capacity l c) : l.length = c.size := by
  rw [← h.pairs_eq, h.length_pairs, h.size_eq]

theorem find_eq (h : Simulates capacity l c) (key : Bytes) :
    find key l = (c.cache.find? key).map (·.entry) := by
  rw [← h.pairs_eq, h.find_pairs]

/-- Whatever has the right pairs has the right size. -/
theorem of_pairs {c' : LinkedCache} (h : c'.Linked) (hcap : c'.capacity = capacity) (hpairs : c'.pairs = l)
    (hlen : l.length ≤ capacity) : Simulates capacity l c' :=
  ⟨h, hcap, hpairs, by rwa [h.size_eq, ← h.length_pairs, hpairs]⟩

/-- Removing a key does not make the ideal cache longer. -/
theorem length_remove_le (key : Bytes) (l : List (Bytes × Entry)) : (remove key l).length ≤ l.length :=
  List.length_filter_le _ _

/-- Nor does moving a key that is there. -/
theorem length_touch_le {key : Bytes} {e : Entry} (hf : find key l = some e) (entry : Entry) :
    (RecencyList.touch key entry l).length ≤ l.length := by
  obtain ⟨p, hp, -⟩ := Option.map_eq_some_iff.mp hf
  have hlt : (remove key l).length < l.length := by
    apply List.length_filter_lt_length_iff_exists.mpr
    exact ⟨p, List.mem_of_find?_eq_some hp, by simpa using List.find?_some hp⟩
  unfold RecencyList.touch
  rw [List.length_cons]
  omega

/-- A `get` moves the key that it finds to the front. -/
theorem get (h : Simulates capacity l c) (key : Bytes) :
    ∃ c', c.get key = some (find key l, c') ∧ Simulates capacity (RecencyList.get key l) c' := by
  have hfind := h.find_eq key
  unfold LinkedCache.get RecencyList.get
  cases hk : c.cache.find? key with
  | none =>
      rw [hk] at hfind
      refine ⟨c, by rw [hfind]; rfl, ?_⟩
      rw [hfind]
      exact h
  | some node =>
      rw [hk] at hfind
      obtain ⟨hlinked, hpairs⟩ := h.touch hk node.entry
      rw [show { node with entry := node.entry } = node from rfl, SortedMap.insert_eq_self hk] at hlinked hpairs
      refine ⟨{ c with lruList := (node.listIter, key) :: c.lruList.filter (·.2 ≠ key) }, ?_, ?_⟩
      · simp only [h.splice_eq hk, hfind]
        rfl
      · rw [hfind]
        rw [h.pairs_eq] at hpairs
        refine of_pairs hlinked h.capacity_eq hpairs ((length_touch_le hfind _).trans ?_)
        rw [h.length_eq]
        exact h.bound

/-- Making room drops the least recently used key of a full cache. -/
theorem evict (hpos : 1 ≤ capacity) (h : Simulates capacity l c) {key : Bytes}
    (hk : c.cache.find? key = none) :
    ∃ c', c.evict = some c' ∧ c'.cache.find? key = none ∧
      Simulates capacity (if capacity ≤ l.length then l.dropLast else l) c' ∧ c'.size < capacity := by
  unfold LinkedCache.evict
  rw [h.capacity_eq, h.length_eq]
  show ∃ c', (if capacity ≤ c.size then _ else _) = some c' ∧ _
  have hbound := h.bound
  split_ifs with hfull
  · have hlen := h.size_eq
    rcases List.eq_nil_or_concat c.lruList with hnil | ⟨init, ⟨a, k⟩, hl⟩
    · rw [hnil, List.length_nil] at hlen
      omega
    · rw [List.concat_eq_append] at hl
      obtain ⟨hlinked, hpairs⟩ := h.dropLast hl
      rw [h.pairs_eq] at hpairs
      rw [hl, List.length_append, List.length_singleton] at hlen
      have hlen' := hlinked.size_eq
      dsimp only at hlen'
      refine ⟨{ c with cache := c.cache.erase k, lruList := init }, ?_, ?_,
        ⟨hlinked, h.capacity_eq, hpairs, ?_⟩, ?_⟩
      · rw [hl, ← h.capacity_eq]
        simp
      · show (c.cache.erase k).find? key = none
        rw [SortedMap.find?_erase]
        split_ifs
        · rfl
        · exact hk
      · omega
      · omega
  · exact ⟨c, rfl, hk, h, by omega⟩

/-- A `put` moves or adds its key, and evicts the last one where there is no room. -/
theorem put (alloc : Allocator) (hpos : 1 ≤ capacity) (h : Simulates capacity l c) (key : Bytes)
    (entry : Entry) :
    ∃ c', c.put alloc key entry = some c' ∧ Simulates capacity (RecencyList.put capacity key entry l) c' := by
  have hfind := h.find_eq key
  unfold LinkedCache.put RecencyList.put
  cases hk : c.cache.find? key with
  | some node =>
      rw [hk] at hfind
      obtain ⟨hlinked, hpairs⟩ := h.touch hk entry
      refine ⟨_, by simp only [h.splice_eq hk]; rfl, ?_⟩
      rw [hfind]
      rw [h.pairs_eq] at hpairs
      refine of_pairs hlinked h.capacity_eq hpairs ((length_touch_le hfind _).trans ?_)
      rw [h.length_eq]
      exact h.bound
  | none =>
      rw [hk] at hfind
      obtain ⟨c', hevict, hk', hsim, hroom⟩ := h.evict hpos hk
      refine ⟨_, by simp only [hevict]; rfl, ?_⟩
      rw [hfind]
      refine of_pairs (hsim.add hk' (alloc.fresh _) entry) hsim.capacity_eq ?_ ?_
      · rw [hsim.pairs_add hk', hsim.pairs_eq]
        rfl
      · show ((key, entry) :: _).length ≤ capacity
        rw [List.length_cons, hsim.length_eq]
        exact hroom

/-- An `invalidate` takes the key out. -/
theorem invalidate (h : Simulates capacity l c) (key : Bytes) :
    ∃ c', c.invalidate key = some c' ∧ Simulates capacity (remove key l) c' := by
  have hfind := h.find_eq key
  unfold LinkedCache.invalidate
  cases hk : c.cache.find? key with
  | none =>
      rw [hk] at hfind
      have hl : remove key l = l := by
        unfold remove
        rw [List.filter_eq_self]
        intro p hp
        simpa using find_eq_none.mp hfind p hp
      exact ⟨c, rfl, hl.symm ▸ h⟩
  | some node =>
      refine ⟨_, by simp only [h.eraseNode_eq hk]; rfl, ?_⟩
      refine of_pairs (h.drop key) h.capacity_eq ?_ ((length_remove_le key l).trans ?_)
      · rw [Linked.pairs_drop, h.pairs_eq]
      · rw [h.length_eq]
        exact h.bound

/-- A `clear` takes everything out. -/
theorem clear (h : Simulates capacity l c) : Simulates capacity [] c.clear :=
  of_pairs (Linked.new c.capacity |> fun hn => ⟨hn.nodes, hn.keys, hn.points, hn.listed⟩) h.capacity_eq rfl
    (Nat.zero_le _)

/-- One call, on both sides. -/
theorem step (alloc : Allocator) (hpos : 1 ≤ capacity) {s : Calls} (h : Simulates capacity l s.cache)
    (op : Op Bytes Entry) :
    ∃ s', LinkedCache.step alloc s op = some s' ∧ Simulates capacity (perform capacity l op).2 s'.cache ∧
      s'.answers = s.answers ++ (perform capacity l op).1.toList := by
  cases op with
  | get key =>
      obtain ⟨c', hget, hsim⟩ := h.get key
      exact ⟨⟨c', s.answers ++ [find key l]⟩, by simp [LinkedCache.step, hget], hsim, rfl⟩
  | put key entry =>
      obtain ⟨c', hput, hsim⟩ := h.put alloc hpos key entry
      exact ⟨{ s with cache := c' }, by simp [LinkedCache.step, hput], hsim, (List.append_nil _).symm⟩
  | invalidate key =>
      obtain ⟨c', hinv, hsim⟩ := h.invalidate key
      exact ⟨{ s with cache := c' }, by simp [LinkedCache.step, hinv], hsim, (List.append_nil _).symm⟩
  | clear => exact ⟨{ s with cache := s.cache.clear }, rfl, h.clear, (List.append_nil _).symm⟩

/-- Any number of calls. -/
theorem run (alloc : Allocator) (hpos : 1 ≤ capacity) (calls : List (Op Bytes Entry)) :
    ∃ s, exec (LinkedCache.step alloc) ⟨LinkedCache.new capacity, []⟩ calls = some s ∧
      Simulates capacity (performAll capacity [] calls).2 s.cache ∧
      s.answers = (performAll capacity [] calls).1 := by
  induction calls using List.reverseRecOn with
  | nil => exact ⟨_, rfl, of_pairs (Linked.new capacity) rfl rfl (Nat.zero_le _), rfl⟩
  | append_singleton calls op ih =>
      obtain ⟨s, hs, hsim, hans⟩ := ih
      obtain ⟨s', hs', hsim', hans'⟩ := hsim.step alloc hpos op
      refine ⟨s', by rw [exec_concat, hs, Option.bind_some, hs'], ?_⟩
      rw [performAll_concat]
      exact ⟨hsim', hans ▸ hans'⟩

end Simulates

/-! ## D. Any sequence of calls -/

/-- **The cache is an LRU cache.** Any sequence of calls is well defined, leaves list and map in correspondence and at
    most `capacity` keys, and its `get`s answer as those of the ideal cache. -/
theorem refines_recencyList (alloc : Allocator) {capacity : Nat} (hpos : 1 ≤ capacity)
    (calls : List (Op Bytes Entry)) :
    ∃ s, exec (step alloc) ⟨new capacity, []⟩ calls = some s ∧ s.cache.Linked ∧
      s.cache.lruList.length = s.cache.size ∧ s.cache.size ≤ capacity ∧
      s.cache.pairs = (performAll capacity [] calls).2 ∧ s.answers = (performAll capacity [] calls).1 := by
  obtain ⟨s, hs, hsim, hans⟩ := Simulates.run alloc hpos calls
  exact ⟨s, hs, hsim.toLinked, hsim.size_eq.symm, hsim.bound, hsim.pairs_eq, hans⟩

/-- The first free address. -/
def firstFree : Allocator where
  new used := used.foldl max 0 + 1
  fresh used h := by
    have hle : ∀ (l : List Nat) (n : Nat), n ≤ l.foldl max n ∧ ∀ a ∈ l, a ≤ l.foldl max n := by
      intro l
      induction l with
      | nil => exact fun n => ⟨Nat.le_refl n, by simp⟩
      | cons b l ih =>
          intro n
          obtain ⟨hn, hl⟩ := ih (max n b)
          exact ⟨(Nat.le_max_left n b).trans hn,
            List.forall_mem_cons.mpr ⟨(Nat.le_max_right n b).trans hn, hl⟩⟩
    have := (hle used 0).2 _ h
    omega

/-- Three keys in a cache for two. -/
theorem refines_recencyList_two : ∃ s, exec (step firstFree) ⟨new 2, []⟩
      [.put [1] ⟨[], 1, .put⟩, .put [2] ⟨[], 2, .put⟩, .get [1], .put [3] ⟨[], 3, .put⟩, .get [2]] = some s ∧
    s.cache.Linked ∧ s.cache.lruList.length = s.cache.size ∧ s.cache.size ≤ 2 ∧
    s.cache.pairs = [([3], ⟨[], 3, .put⟩), ([1], ⟨[], 1, .put⟩)] ∧
    s.answers = [some ⟨[], 1, .put⟩, none] :=
  refines_recencyList firstFree (by decide) _

/-! ## E. The cache without its nodes

The engine model uses a cache whose recency list is a list of keys. `forget` takes the nodes to that one, and all
calls agree. -/

/-- The cache that the engine uses: the keys of the list, and the entries. -/
def forget (c : LinkedCache) : LRUCache :=
  ⟨c.capacity, c.lruList.map (·.2), c.cache.mapValues (·.entry)⟩

namespace Linked

variable {c c' : LinkedCache} {key : Bytes}

/-- Without the nodes, removing a node is removing its key. -/
theorem map_filter (h : c.Linked) (key : Bytes) :
    (c.lruList.filter (·.2 ≠ key)).map (·.2) = (c.lruList.map (·.2)).erase key := by
  rw [h.keys.erase_eq_filter, List.filter_map]
  congr 1
  apply List.filter_congr
  intro p _
  by_cases hk : p.2 = key <;> simp [hk]

theorem forget_find? (c : LinkedCache) (key : Bytes) :
    c.forget.cache.find? key = (c.cache.find? key).map (·.entry) := SortedMap.find?_mapValues _ _ _

/-- `get` on the nodes is `get` without them. -/
theorem forget_get (h : c.Linked) {r : Option Entry} (hget : c.get key = some (r, c')) :
    c.forget.get key = (r, c'.forget) := by
  unfold LinkedCache.get at hget
  unfold LRUCache.get
  rw [forget_find?]
  cases hk : c.cache.find? key with
  | none =>
      simp only [hk] at hget
      obtain ⟨rfl, rfl⟩ := Prod.mk.inj (Option.some.inj hget)
      rfl
  | some node =>
      simp only [hk, h.splice_eq hk] at hget
      obtain ⟨rfl, rfl⟩ := Prod.mk.inj (Option.some.inj hget)
      simp only [forget, List.map_cons, h.map_filter, Option.map_some]

theorem forget_evict (hevict : c.evict = some c') :
    (if c.forget.capacity ≤ c.forget.cache.size then c.forget.evict else c.forget) = c'.forget := by
  unfold LinkedCache.evict at hevict
  rw [show c.forget.cache.size = c.cache.size from SortedMap.size_mapValues _ _]
  show (if c.capacity ≤ c.cache.size then _ else _) = _
  split_ifs at hevict ⊢
  · obtain ⟨last, hlast, he⟩ := Option.bind_eq_some_iff.mp hevict
    obtain rfl := Option.some.inj he
    unfold LRUCache.evict
    rw [show c.forget.lruList.getLast? = some last.2 by
      simp only [forget, List.getLast?_map, hlast, Option.map_some]]
    simp only [forget, SortedMap.mapValues_erase, List.map_dropLast]
  · rw [Option.some.inj hevict]

/-- `put` on the nodes is `put` without them. -/
theorem forget_put (h : c.Linked) {alloc : Allocator} {entry : Entry}
    (hput : c.put alloc key entry = some c') : c.forget.put key entry = c'.forget := by
  unfold LinkedCache.put at hput
  unfold LRUCache.put
  rw [forget_find?]
  cases hk : c.cache.find? key with
  | some node =>
      simp only [hk, h.splice_eq hk] at hput
      rw [← Option.some.inj hput]
      simp only [forget, SortedMap.mapValues_insert, List.map_cons, h.map_filter, Option.map_some]
  | none =>
      simp only [hk] at hput
      obtain ⟨c₁, hevict, he⟩ := Option.bind_eq_some_iff.mp hput
      rw [← Option.some.inj he]
      simp only [Option.map_none, forget_evict hevict]
      simp only [forget, SortedMap.mapValues_insert, List.map_cons]

theorem forget_invalidate (h : c.Linked) (hinv : c.invalidate key = some c') :
    c.forget.invalidate key = c'.forget := by
  unfold LinkedCache.invalidate at hinv
  unfold LRUCache.invalidate
  rw [forget_find?]
  cases hk : c.cache.find? key with
  | none =>
      simp only [hk] at hinv
      rw [← Option.some.inj hinv]
      rfl
  | some node =>
      simp only [hk, h.eraseNode_eq hk] at hinv
      rw [← Option.some.inj hinv]
      simp only [forget, SortedMap.mapValues_erase, h.map_filter, Option.map_some]

theorem forget_clear (c : LinkedCache) : c.forget.clear = c.clear.forget := rfl

end Linked

end LinkedCache

end KvStorageEngine
