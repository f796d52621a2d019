import Mathlib.Data.List.Nodup

/-!
# `Lib.RecencyList` — an ideal LRU cache

What a cache with least-recently-used replacement is for: a list of bindings, the most recently used first. `get` and
`put` move the key to the front, and a `put` of a new key into a full list drops the last binding. `perform` runs an
operation and yields what it answers.
-/

namespace RecencyList

variable {κ ν : Type*} [DecidableEq κ]

/-- The value bound to `k`. -/
def find (k : κ) (l : List (κ × ν)) : Option ν := (l.find? (·.1 = k)).map (·.2)

/-- The list without `k`. -/
def remove (k : κ) (l : List (κ × ν)) : List (κ × ν) := l.filter (·.1 ≠ k)

/-- The list with `k` in front. -/
def touch (k : κ) (v : ν) (l : List (κ × ν)) : List (κ × ν) := (k, v) :: remove k l

def get (k : κ) (l : List (κ × ν)) : List (κ × ν) :=
  match find k l with
  | none => l
  | some v => touch k v l

def put (capacity : Nat) (k : κ) (v : ν) (l : List (κ × ν)) : List (κ × ν) :=
  match find k l with
  | some _ => touch k v l
  | none => (k, v) :: (if capacity ≤ l.length then l.dropLast else l)

/-- The operations of a cache. -/
inductive Op (κ ν : Type*) where
  | get (k : κ)
  | put (k : κ) (v : ν)
  | invalidate (k : κ)
  | clear
  deriving DecidableEq

/-- Carry out an operation: the answer of a `get`, and the list afterwards. -/
def perform (capacity : Nat) (l : List (κ × ν)) : Op κ ν → Option (Option ν) × List (κ × ν)
  | .get k => (some (find k l), get k l)
  | .put k v => (none, put capacity k v l)
  | .invalidate k => (none, remove k l)
  | .clear => (none, [])

/-- The answers of a sequence of operations, and the list they leave. -/
def performAll (capacity : Nat) (l : List (κ × ν)) (ops : List (Op κ ν)) :
    List (Option ν) × List (κ × ν) :=
  ops.foldl (fun s op => (s.1 ++ (perform capacity s.2 op).1.toList, (perform capacity s.2 op).2)) ([], l)

theorem performAll_concat (capacity : Nat) (l : List (κ × ν)) (ops : List (Op κ ν)) (op : Op κ ν) :
    performAll capacity l (ops ++ [op]) =
      ((performAll capacity l ops).1 ++ (perform capacity (performAll capacity l ops).2 op).1.toList,
        (perform capacity (performAll capacity l ops).2 op).2) := by
  unfold performAll
  rw [List.foldl_append]
  rfl

theorem find_eq_none {k : κ} {l : List (κ × ν)} : find k l = none ↔ ∀ p ∈ l, p.1 ≠ k := by
  simp [find]

/-- Where the keys are distinct, a binding is what its key finds. -/
theorem find?_of_mem {k : κ} {v : ν} {l : List (κ × ν)} (hn : (l.map (·.1)).Nodup) (h : (k, v) ∈ l) :
    l.find? (·.1 = k) = some (k, v) := by
  induction l with
  | nil => exact absurd h List.not_mem_nil
  | cons p l ih =>
      obtain ⟨hp, hn⟩ := List.nodup_cons.mp hn
      rcases List.mem_cons.mp h with rfl | h
      · exact List.find?_cons_of_pos (by simp)
      · have hne : p.1 ≠ k := by
          rintro rfl
          exact hp (List.mem_map.mpr ⟨_, h, rfl⟩)
        rw [List.find?_cons_of_neg (by simpa using hne)]
        exact ih hn h

theorem find_of_mem {k : κ} {v : ν} {l : List (κ × ν)} (hn : (l.map (·.1)).Nodup) (h : (k, v) ∈ l) :
    find k l = some v := by
  unfold find
  rw [find?_of_mem hn h]
  rfl

/-- Where the keys are distinct, removing the last key takes the last binding away. -/
theorem remove_last {k : κ} {v : ν} {l : List (κ × ν)} (hn : ((l ++ [(k, v)]).map (·.1)).Nodup) :
    remove k (l ++ [(k, v)]) = l := by
  rw [List.map_append, List.nodup_append] at hn
  have hl : l.filter (·.1 ≠ k) = l := by
    rw [List.filter_eq_self]
    intro p hp
    have hne : p.1 ≠ k := hn.2.2 p.1 (List.mem_map.mpr ⟨p, hp, rfl⟩) k (by simp)
    simpa using hne
  unfold remove
  rw [List.filter_append, hl]
  simp

example : (performAll 2 [] [Op.put 1 10, .put 2 20, .get 1, .put 3 30, .get 2, .get 1]).1
    = [some 10, none, some 10] := by decide

end RecencyList
