import KvStorageEngine.Lib.Bytes

/-!
# `Engine.Types` — the records of the store

The types of `engine/include/types.h`. A record is an `Entry` under a key; its sequence number is the
store's clock and is what every layer is compared by. Counters are `Nat`: a store would have to take
2^64 writes for the difference to show.
-/

namespace KvStorageEngine

/-- The kind of a record: a value, or a tombstone. -/
inductive EntryType where
  | put
  | delete
  deriving DecidableEq, Repr

/-- A record of a key, in a memtable or in a table. -/
structure Entry where
  value : Bytes
  seq : Nat
  type : EntryType
  deriving DecidableEq, Repr

/-- A record with its key, as `SSTable::Iterator` yields it. -/
structure SSTableEntry where
  key : Bytes
  value : Bytes
  seq : Nat
  type : EntryType
  deriving DecidableEq, Repr

/-- A request in the write queue: `Operation::PUT` with its value, or `Operation::DELETE`. -/
inductive WriteRequest where
  | put (key value : Bytes)
  | delete (key : Bytes)
  deriving DecidableEq, Repr

/-- `MAX_BATCH_SIZE`, the most requests the writer thread takes at once. -/
def maxBatchSize : Nat := 1000

/-- What a version knows about one table without opening its file. -/
structure SSTableMeta where
  id : Nat
  minKey : Bytes
  maxKey : Bytes
  maxSeq : Nat
  sizeBytes : Nat
  level : Nat
  deriving DecidableEq, Repr

/-- The record without its key. -/
def SSTableEntry.entry (e : SSTableEntry) : Entry := ⟨e.value, e.seq, e.type⟩

namespace WriteRequest

def key : WriteRequest → Bytes
  | .put key _ | .delete key => key

/-- The record a request leaves under its sequence number. -/
def entry (seq : Nat) : WriteRequest → Entry
  | .put _ value => ⟨value, seq, .put⟩
  | .delete _ => ⟨[], seq, .delete⟩

@[simp] theorem seq_entry (request : WriteRequest) (n : Nat) : (request.entry n).seq = n := by
  cases request <;> rfl

end WriteRequest

/-- What a read answers for the record it settled on: nothing for a tombstone or for no record. -/
def answer : Option Entry → Option Entry
  | some e => match e.type with
    | .put => some e
    | .delete => none
  | none => none

@[simp] theorem answer_none : answer none = none := rfl

theorem answer_put {e : Entry} (h : e.type = .put) : answer (some e) = some e := by
  simp [answer, h]

theorem answer_delete {e : Entry} (h : e.type = .delete) : answer (some e) = none := by
  simp [answer, h]

theorem answer_eq_some {c : Option Entry} {e : Entry} :
    answer c = some e ↔ c = some e ∧ e.type = .put := by
  cases c with
  | none => simp
  | some e' =>
      cases ht : e'.type with
      | put =>
          rw [answer_put ht]
          constructor
          · rintro h; obtain rfl := Option.some.inj h; exact ⟨rfl, ht⟩
          · exact fun h => h.1
      | delete =>
          rw [answer_delete ht]
          constructor
          · exact fun h => absurd h (by simp)
          · rintro ⟨h, hp⟩; obtain rfl := Option.some.inj h; rw [ht] at hp; exact absurd hp (by simp)

theorem answer_eq_none_iff {e : Entry} : answer (some e) = none ↔ e.type = .delete := by
  cases ht : e.type with
  | put =>
      rw [answer_put ht]
      simp
  | delete =>
      rw [answer_delete ht]
      simp

/-- Two different records answer alike only when both are tombstones. -/
theorem answer_eq_answer_iff {e r : Entry} (hne : e ≠ r) :
    answer (some e) = answer (some r) ↔ e.type = .delete ∧ r.type = .delete := by
  constructor
  · intro h
    have hr : answer (some r) = none := by
      by_contra hsome
      obtain ⟨o, ho⟩ := Option.ne_none_iff_exists'.mp hsome
      obtain ⟨hr, -⟩ := answer_eq_some.mp ho
      obtain ⟨he, -⟩ := answer_eq_some.mp (h.trans ho)
      exact hne (Option.some.inj (he.trans hr.symm))
    exact ⟨answer_eq_none_iff.mp (h.trans hr), answer_eq_none_iff.mp hr⟩
  · rintro ⟨he, hr⟩
    rw [answer_delete he, answer_delete hr]

end KvStorageEngine
