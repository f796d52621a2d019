import KvStorageEngine.Engine.Types
import KvStorageEngine.Lib.SortedMap

/-!
# `Engine.MemTable` — the in-memory table

`engine/src/memtable.cpp`. Every method runs under the table's own lock, so each one is a single step of
any interleaving; a tombstone is a record with an empty value.
-/

namespace KvStorageEngine

/-- The memtable: one record per key, iterated in key order. Tombstones carry no value. -/
structure MemTable where
  memtable : SortedMap Bytes Entry
  tombstone : ∀ k e, memtable.find? k = some e → e.type = .delete → e.value = []

namespace MemTable

def empty : MemTable := ⟨SortedMap.empty, by simp⟩

/-- The record `memtable_[key] = entry` leaves, for an entry that is a well-formed record. -/
def store (m : MemTable) (key : Bytes) (entry : Entry) (h : entry.type = .delete → entry.value = []) :
    MemTable where
  memtable := m.memtable.insert key entry
  tombstone k e he := by
    rw [SortedMap.find?_insert] at he
    split_ifs at he with hk
    · obtain rfl := Option.some.inj he
      exact h
    · exact m.tombstone k e he

/-- `MemTable::put`; the call always reports success. -/
def put (m : MemTable) (key value : Bytes) (seqNumber : Nat) : MemTable :=
  m.store key ⟨value, seqNumber, .put⟩ (by simp)

/-- `MemTable::del`, as its effect on the table. -/
def del (m : MemTable) (key : Bytes) (seqNumber : Nat) : MemTable :=
  m.store key ⟨[], seqNumber, .delete⟩ (by simp)

/-- The effect of a request, under its sequence number. -/
def apply (m : MemTable) (request : WriteRequest) (seqNumber : Nat) : MemTable :=
  match request with
  | .put key value => m.put key value seqNumber
  | .delete key => m.del key seqNumber

/-- `MemTable::get`: the record of a key, tombstones included. -/
def get (m : MemTable) (key : Bytes) : Option Entry := m.memtable.find? key

/-- `MemTable::snapshot`. -/
def snapshot (m : MemTable) : SortedMap Bytes Entry := m.memtable

/-- `MemTable::clear`. -/
def clear (_ : MemTable) : MemTable := empty

/-- `MemTable::getSize`: the size the records would take in the log, the value only for a put. -/
def getSize (m : MemTable) : Nat :=
  (m.memtable.entries.map fun (key, entry) =>
    4 + 2 + 2 + 1 + 8 + key.length + (if entry.type = .put then entry.value.length else 0)).sum

/-- Entry by entry into a fresh memtable, the way the rotation copies a snapshot. -/
def copyOf (snapshot : SortedMap Bytes Entry) : MemTable :=
  snapshot.entries.foldl (fun m p =>
    match p.2.type with
    | .put => m.put p.1 p.2.value p.2.seq
    | .delete => m.del p.1 p.2.seq) empty

@[simp] theorem get_empty (k : Bytes) : empty.get k = none := rfl

@[simp] theorem get_clear (m : MemTable) (k : Bytes) : m.clear.get k = none := rfl

theorem get_put (m : MemTable) (key value : Bytes) (n : Nat) (k : Bytes) :
    (m.put key value n).get k = if k = key then some ⟨value, n, .put⟩ else m.get k := by
  by_cases h : k = key
  · subst h; simp [put, store, get]
  · simp [put, store, get, h, SortedMap.find?_insert_ne]

theorem get_del (m : MemTable) (key : Bytes) (n : Nat) (k : Bytes) :
    (m.del key n).get k = if k = key then some ⟨[], n, .delete⟩ else m.get k := by
  by_cases h : k = key
  · subst h; simp [del, store, get]
  · simp [del, store, get, h, SortedMap.find?_insert_ne]

theorem get_apply (m : MemTable) (request : WriteRequest) (n : Nat) (k : Bytes) :
    (m.apply request n).get k = if k = request.key then some (request.entry n) else m.get k := by
  cases request with
  | put key value => exact m.get_put key value n k
  | delete key => exact m.get_del key n k

/-- Two memtables with the same lookups are the same table. -/
theorem ext_get {m₁ m₂ : MemTable} (h : ∀ k, m₁.get k = m₂.get k) : m₁ = m₂ := by
  have hmap : m₁.memtable = m₂.memtable := SortedMap.ext_find? h
  cases m₁; cases m₂; cases hmap; rfl

/-! ## The rotation's copy -/

/-- Copying a sorted list of well-formed bindings on top of `m` overwrites exactly their keys. -/
theorem get_foldl_copy (l : List (Bytes × Entry)) (hs : l.Pairwise (·.1 < ·.1))
    (hw : ∀ p ∈ l, p.2.type = .delete → p.2.value = []) (m : MemTable) (k : Bytes) :
    (l.foldl (fun m p => match p.2.type with
      | .put => m.put p.1 p.2.value p.2.seq
      | .delete => m.del p.1 p.2.seq) m).get k = (SortedMap.findEntry k l).or (m.get k) := by
  induction l generalizing m with
  | nil => simp [SortedMap.findEntry]
  | cons p rest ih =>
      obtain ⟨key, value, seq, type⟩ := p
      obtain ⟨hhd, htl⟩ := List.pairwise_cons.mp hs
      rw [List.foldl_cons, ih htl (fun q hq => hw q (List.mem_cons_of_mem _ hq)),
        SortedMap.findEntry]
      -- the keys after this one are larger
      have hnot : k = key → SortedMap.findEntry k rest = none := by
        rintro rfl
        apply Option.eq_none_iff_forall_ne_some.mpr
        intro e he
        exact lt_irrefl k (hhd _ ((SortedMap.findEntry_eq_some htl).mp he))
      cases type with
      | put =>
          simp only [get_put]
          split_ifs with hk
          · simp [hnot hk]
          · rfl
      | delete =>
          have hv : value = [] := hw _ List.mem_cons_self rfl
          simp only [get_del]
          split_ifs with hk
          · simp [hnot hk, hv]
          · rfl

/-- The copy holds exactly what the copied memtable held. -/
@[simp] theorem copyOf_snapshot (m : MemTable) : copyOf m.snapshot = m := by
  apply ext_get
  intro k
  rw [copyOf, get_foldl_copy m.snapshot.entries m.snapshot.sorted ?_ empty k]
  · simp [get, snapshot, SortedMap.find?, empty, SortedMap.empty, SortedMap.findEntry]
  · intro p hp
    exact m.tombstone p.1 p.2 (SortedMap.find?_eq_some.mpr hp)

end MemTable

end KvStorageEngine
