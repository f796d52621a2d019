import KvStorageEngine.Lib.Bytes
import KvStorageEngine.Lib.KeyedWrites
import KvStorageEngine.Lib.NumberedLog

/-!
# `Distributed.Replica` — the log of a leader and of a follower

The types of `distributed/include/replication_types.h`, and the members that `Leader` and `Follower`
(`distributed/replication/leader.cpp`, `follower.cpp`) share with the apply loop over them. Indices and terms are `Nat`:
an index would have to pass 2^64 for the difference to show.

The loop finds the entry after `last_applied_` by its index and gives up the lock with the iterator in its hand; it calls
the callback on `*it`, takes the lock again and only then moves `last_applied_`: three steps here, `beginApply`,
`callApply` and `endApply`, and anything may happen in between. An append in between that makes the vector grow leaves
the iterator dangling, and what the callback then reads is not the log's (`callApply` reads anything).

Leader and follower differ in how the log grows: `Leader.appendLog` numbers its entries, `Follower.handleReplication`
takes whatever a message brings.
-/

namespace KvStorageEngine.Distributed

open KeyedWrites NumberedLog

/-! ## Entries and messages -/

inductive NodeRole where
  | leader
  | follower
  deriving DecidableEq, Repr

inductive ReplicationOp where
  | put
  | delete
  deriving DecidableEq, Repr

/-- A write request with its place in the leader's log. -/
structure LogEntry where
  term : Nat
  index : Nat
  op : ReplicationOp
  key : Bytes
  value : Bytes
  deriving DecidableEq, Repr

/-- What the entry does to the map; the value of a delete is not used. -/
def LogEntry.write (e : LogEntry) : Write Bytes Bytes :=
  ⟨e.key, match e.op with
    | .put => some e.value
    | .delete => none⟩

structure ReplicationMessage where
  term : Nat
  leaderCommit : Nat
  entries : List LogEntry
  deriving DecidableEq, Repr

/-! ## The members of a replica -/

/-- Where the body of the apply loop is. `it` is what the iterator points to, nothing when it dangles; `entry` is what
    the callback has read. -/
inductive CallbackPc where
  | idle
  | found (nextIndex : Nat) (it : Option LogEntry)
  | called (nextIndex : Nat) (entry : LogEntry)
  deriving DecidableEq

namespace CallbackPc

/-- The log has been moved to another place in memory. -/
def dangle : CallbackPc → CallbackPc
  | .found nextIndex _ => .found nextIndex none
  | .idle => .idle
  | .called nextIndex entry => .called nextIndex entry

/-- The entry that the callback has read. -/
def entry? : CallbackPc → Option LogEntry
  | .called _ entry => some entry
  | .idle | .found _ _ => none

/-- The index that the body is at work on. -/
def nextIndex? : CallbackPc → Option Nat
  | .found nextIndex _ | .called nextIndex _ => some nextIndex
  | .idle => none

/-- Whether an iterator in hand still points into the log. -/
def valid : CallbackPc → Bool
  | .found _ none => false
  | .found _ (some _) | .idle | .called _ _ => true

@[simp] theorem entry?_dangle (pc : CallbackPc) : pc.dangle.entry? = pc.entry? := by cases pc <;> rfl

@[simp] theorem nextIndex?_dangle (pc : CallbackPc) : pc.dangle.nextIndex? = pc.nextIndex? := by cases pc <;> rfl

end CallbackPc

/-- The members that `Leader` and `Follower` share. -/
structure Replica where
  log : List LogEntry
  /-- `log_.capacity()`. -/
  capacity : Nat
  currentTerm : Nat
  commitIndex : Nat
  lastApplied : Nat
  applying : CallbackPc
  /-- History: every entry that a callback has read. -/
  passed : List LogEntry
  deriving DecidableEq

namespace Replica

/-- A replica that has just been constructed. -/
def new : Replica := ⟨[], 0, 0, 0, 0, .idle, []⟩

/-- `log_.push_back(entry)`: a vector that is full doubles its capacity and moves its elements. -/
def pushBack (r : Replica) (entry : LogEntry) : Replica :=
  { r with
    log := r.log ++ [entry]
    capacity := if r.log.length < r.capacity then r.capacity else max 1 (2 * r.capacity)
    applying := if r.log.length < r.capacity then r.applying else r.applying.dangle }

/-- The body of the apply loop up to `lock.unlock()`, `none` where the loop waits: nothing is committed beyond
    `last_applied_`, or the entry is not there. -/
def beginApply (r : Replica) : Option Replica :=
  if r.applying = .idle ∧ r.lastApplied < r.commitIndex then
    match r.log.find? (fun e => e.index == r.lastApplied + 1) with
    | none => none
    | some e => some { r with applying := .found (r.lastApplied + 1) (some e) }
  else none

/-- `apply_callback_(*it)`, up to where the callback reads the entry for the last time: through a dangling iterator it
    reads whatever the memory holds by now. -/
def callApply (r : Replica) (memory : LogEntry) : Option Replica :=
  match r.applying with
  | .found nextIndex it =>
    some { r with applying := .called nextIndex (it.getD memory), passed := r.passed ++ [it.getD memory] }
  | .idle | .called _ _ => none

/-- `last_applied_ = next_index`, when the callback has returned. -/
def endApply (r : Replica) : Option Replica :=
  match r.applying with
  | .called nextIndex _ => some { r with applying := .idle, lastApplied := nextIndex }
  | .idle | .found _ _ => none

theorem beginApply_eq_some {r r' : Replica} :
    r.beginApply = some r' ↔ r.applying = .idle ∧ r.lastApplied < r.commitIndex ∧
      ∃ e, r.log.find? (fun e => e.index == r.lastApplied + 1) = some e ∧
        r' = { r with applying := .found (r.lastApplied + 1) (some e) } := by
  unfold beginApply
  split_ifs with h
  · obtain ⟨hidle, hlt⟩ := h
    cases hfind : r.log.find? (fun e => e.index == r.lastApplied + 1) with
    | none => simp
    | some e => simp [hidle, hlt, eq_comm]
  · constructor
    · exact fun h' => absurd h' (by simp)
    · rintro ⟨hidle, hlt, -⟩
      exact absurd ⟨hidle, hlt⟩ h

theorem callApply_eq_some {r r' : Replica} {memory : LogEntry} :
    r.callApply memory = some r' ↔ ∃ nextIndex it, r.applying = .found nextIndex it ∧
      r' = { r with applying := .called nextIndex (it.getD memory), passed := r.passed ++ [it.getD memory] } := by
  unfold callApply
  cases r.applying with
  | idle => simp
  | found nextIndex it => simp [eq_comm]
  | called nextIndex entry => simp

theorem endApply_eq_some {r r' : Replica} :
    r.endApply = some r' ↔ ∃ nextIndex entry, r.applying = .called nextIndex entry ∧
      r' = { r with applying := .idle, lastApplied := nextIndex } := by
  unfold endApply
  cases r.applying with
  | idle => simp
  | found nextIndex it => simp
  | called nextIndex entry => simp [eq_comm]

/-- What appends leave as it was; of the body of the loop they change at most the iterator. -/
structure Appended (r r' : Replica) (entries : List LogEntry) : Prop where
  log : r'.log = r.log ++ entries
  currentTerm : r'.currentTerm = r.currentTerm
  commitIndex : r'.commitIndex = r.commitIndex
  lastApplied : r'.lastApplied = r.lastApplied
  passed : r'.passed = r.passed
  applying : r'.applying = r.applying ∨ r'.applying = r.applying.dangle

theorem appended_pushBack (r : Replica) (entry : LogEntry) : r.Appended (r.pushBack entry) [entry] := by
  refine ⟨rfl, rfl, rfl, rfl, rfl, ?_⟩
  by_cases h : r.log.length < r.capacity
  · exact Or.inl (if_pos h)
  · exact Or.inr (if_neg h)

theorem Appended.trans {r r' r'' : Replica} {entries entries' : List LogEntry} (h : r.Appended r' entries)
    (h' : r'.Appended r'' entries') : r.Appended r'' (entries ++ entries') := by
  refine ⟨by rw [h'.log, h.log, List.append_assoc], h'.currentTerm.trans h.currentTerm,
    h'.commitIndex.trans h.commitIndex, h'.lastApplied.trans h.lastApplied, h'.passed.trans h.passed, ?_⟩
  have hdangle : ∀ pc : CallbackPc, pc.dangle.dangle = pc.dangle := fun pc => by cases pc <;> rfl
  rcases h.applying with he | he <;> rcases h'.applying with he' | he' <;> simp [he, he', hdangle]

theorem appended_foldl (r : Replica) (entries : List LogEntry) : r.Appended (entries.foldl pushBack r) entries := by
  induction entries generalizing r with
  | nil => exact ⟨(List.append_nil _).symm, rfl, rfl, rfl, rfl, Or.inl rfl⟩
  | cons entry entries ih => exact (r.appended_pushBack entry).trans (ih (r.pushBack entry))

variable {r r' : Replica} {entries : List LogEntry}

theorem Appended.entry? (h : r.Appended r' entries) : r'.applying.entry? = r.applying.entry? := by
  rcases h.applying with he | he <;> simp [he]

theorem Appended.nextIndex? (h : r.Appended r' entries) : r'.applying.nextIndex? = r.applying.nextIndex? := by
  rcases h.applying with he | he <;> simp [he]

/-- An iterator that still points to an entry pointed to it before. -/
theorem Appended.found (h : r.Appended r' entries) {i : Nat} {e : LogEntry}
    (he : r'.applying = .found i (some e)) : r.applying = .found i (some e) := by
  rcases h.applying with heq | heq
  · exact heq.symm.trans he
  · rw [heq] at he
    cases hr : r.applying <;> rw [hr] at he <;> simp [CallbackPc.dangle] at he

end Replica

/-! ## The leader -/

abbrev Leader := Replica

namespace Leader

/-- The entry `appendLog` makes of a request. -/
def indexed (l : Leader) (entry : LogEntry) : LogEntry :=
  { entry with index := nextIndex LogEntry.index l.log, term := l.currentTerm }

/-- `Leader::appendLog`. -/
def appendLog (l : Leader) (entry : LogEntry) : Leader := l.pushBack (l.indexed entry)

/-- `commit_index_ = log_.back().index`, under the lock. -/
def commitLast (l : Leader) : Option Leader :=
  l.log.getLast?.map fun last => { l with commitIndex := last.index }

end Leader

/-! ## The follower -/

abbrev Follower := Replica

/-- `Follower::handleReplication`. -/
def Follower.handleReplication (f : Follower) (msg : ReplicationMessage) : Follower :=
  { msg.entries.foldl Replica.pushBack f with
    currentTerm := if f.currentTerm < msg.term then msg.term else f.currentTerm
    commitIndex := if f.commitIndex < msg.leaderCommit then msg.leaderCommit else f.commitIndex }

end KvStorageEngine.Distributed
