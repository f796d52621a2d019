import Mathlib.Data.List.FinRange
import Mathlib.Data.List.Perm.Lattice

/-!
# `Lib.Held` — what the threads of a finite family hold

Each of `n` threads holds at most one thing at a time. `held f` lists what they hold altogether, thread by thread; a
thread that takes something up or lays it down changes the list by that one thing, up to the order. So what a system
hands to its threads can be accounted for as a permutation.
-/

namespace Held

variable {n : Nat} {α : Type*}

/-- What the threads hold, in the order of the threads. -/
def held (f : Fin n → Option α) : List α := (List.finRange n).filterMap f

/-- What all threads but one hold. -/
def others (f : Fin n → Option α) (i : Fin n) : List α := ((List.finRange n).erase i).filterMap f

theorem held_none : held (fun _ : Fin n => (none : Option α)) = [] := by
  unfold held
  rw [List.filterMap_eq_nil_iff]
  exact fun _ _ => rfl

theorem mem_held {f : Fin n → Option α} {a : α} : a ∈ held f ↔ ∃ i, f i = some a := by
  simp [held]

theorem held_eq_nil {f : Fin n → Option α} (h : ∀ i, f i = none) : held f = [] := by
  rw [funext h]
  exact held_none

/-- One thread apart from the others. -/
theorem held_perm (f : Fin n → Option α) (i : Fin n) : List.Perm (held f) ((f i).toList ++ others f i) := by
  have hperm := (List.perm_cons_erase (List.mem_finRange i)).filterMap f
  unfold held others
  cases hi : f i with
  | none => simpa [List.filterMap_cons, hi] using hperm
  | some a => simpa [List.filterMap_cons, hi] using hperm

/-- What one thread takes up or lays down is nothing to the others. -/
theorem others_update (f : Fin n → Option α) (i : Fin n) (v : Option α) :
    others (Function.update f i v) i = others f i := by
  apply List.filterMap_congr
  intro j hj
  exact Function.update_of_ne ((List.nodup_finRange n).mem_erase_iff.mp hj).1 _ _

theorem held_update_perm (f : Fin n → Option α) (i : Fin n) (v : Option α) :
    List.Perm (held (Function.update f i v)) (v.toList ++ others f i) := by
  have h := held_perm (Function.update f i v) i
  rwa [Function.update_self, others_update] at h

/-- A thread that held nothing takes something up. -/
theorem held_take {f : Fin n → Option α} {i : Fin n} (hi : f i = none) (a : α) :
    List.Perm (held (Function.update f i (some a))) (a :: held f) := by
  have h := held_perm f i
  rw [hi] at h
  exact (held_update_perm f i (some a)).trans (h.symm.cons a)

/-- A thread lays down what it held. -/
theorem held_drop {f : Fin n → Option α} {i : Fin n} {a : α} (hi : f i = some a) :
    List.Perm (held f) (a :: held (Function.update f i none)) := by
  have h := held_perm f i
  rw [hi] at h
  exact h.trans ((held_update_perm f i none).symm.cons a)

/-- A thread that goes on holding the same, or nothing as before. -/
theorem held_update_self {f : Fin n → Option α} {i : Fin n} {v : Option α} (hi : f i = v) :
    held (Function.update f i v) = held f := by
  rw [← hi, Function.update_eq_self]

/-- Threads that hold one thing each never hold the same one, where no two of the things are the same. -/
theorem eq_of_nodup_held {f : Fin n → Option α} (h : (held f).Nodup) {i j : Fin n} {a : α} (hi : f i = some a)
    (hj : f j = some a) : i = j := by
  by_contra hij
  have hperm := (held_perm f i).nodup_iff.mp h
  rw [hi, Option.toList_some, List.singleton_append, List.nodup_cons] at hperm
  apply hperm.1
  rw [others, List.mem_filterMap]
  exact ⟨j, (List.mem_erase_of_ne (Ne.symm hij)).mpr (List.mem_finRange j), hj⟩

/-- Where every thread that holds one thing holds another as well, there are as many of those at least. -/
theorem length_held_le {β : Type*} {f : Fin n → Option α} {g : Fin n → Option β}
    (h : ∀ i, (f i).isSome → (g i).isSome) : (held f).length ≤ (held g).length := by
  unfold held
  rw [List.length_filterMap_eq_countP, List.length_filterMap_eq_countP]
  exact List.countP_mono_left fun i _ => h i

end Held
