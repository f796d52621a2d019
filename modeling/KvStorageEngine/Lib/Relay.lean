import Mathlib.Data.List.Basic
import Mathlib.Data.List.ReduceOption
import Mathlib.Order.Defs.PartialOrder

/-!
# `Lib.Relay` — a record that is handed from place to place

The records of one key, the newest first: one that can be overwritten (`active`), one that is being handed on and
that nobody sees (`hidden`), one that waits (`waiting`), and one that has arrived (`settled`). A record moves in this
direction only, and a reader looks into the places in the same direction. So it cannot miss a record by being
overtaken: what it has not seen yet is still ahead of it. The one way to miss a record is to look past it while it
is hidden.

Records are compared by their rank, and `Reaches D` says of the first of some places that it is no older than any
rank in `D`, which is what a reader wants of the places it has yet to look into.
-/

/-- The places of one key. -/
structure Relay (ρ : Type*) where
  active : Option ρ
  hidden : Option ρ
  waiting : Option ρ
  settled : Option ρ

namespace Relay

variable {ρ α : Type*} [Preorder α] (rank : ρ → α) {D : α → Prop} {s s' : Relay ρ} {e : ρ}

/-! ## A. The places -/

/-- All records, the newest first. -/
def held (s : Relay ρ) : List ρ := [s.active, s.hidden, s.waiting, s.settled].reduceOption

/-- Those a reader that has looked into the active place has ahead of it, -/
def behindActive (s : Relay ρ) : List ρ := [s.hidden, s.waiting, s.settled].reduceOption

/-- and those behind the waiting place. -/
def behindWaiting (s : Relay ρ) : List ρ := [s.settled].reduceOption

/-- No record is older than one behind it. -/
def Sorted (s : Relay ρ) : Prop := s.held.Pairwise fun x y => rank y ≤ rank x

/-- The first of the records is as new as everything of `D`. -/
def Reaches (D : α → Prop) (records : List ρ) : Prop := ∀ q, D q → ∃ e, records.head? = some e ∧ q ≤ rank e

/-! ## B. The moves

One for each way in which the places can change. -/

inductive Move (s : Relay ρ) : Relay ρ → Prop where
  | write {e : ρ} (hnew : ∀ x ∈ s.held, rank x < rank e) : Move s { s with active := some e }
  | hide (hhidden : s.hidden = none) (hwaiting : s.waiting = none) :
      Move s { s with active := none, hidden := s.active }
  | publish (hwaiting : s.waiting = none) : Move s { s with hidden := none, waiting := s.hidden }
  | settle : Move s { s with settled := s.waiting.or s.settled }
  | drop (hsettled : ∀ e ∈ s.waiting, s.settled = some e) : Move s { s with waiting := none }

variable {rank}

theorem Move.sorted (h : Move rank s s') (hs : Sorted rank s) : Sorted rank s' := by
  obtain ⟨active, hidden, waiting, settled⟩ := s
  unfold Sorted held at hs ⊢
  cases h with
  | @write e hnew =>
      have hbehind : ([hidden, waiting, settled].reduceOption).Pairwise fun x y => rank y ≤ rank x := by
        cases active with
        | none => exact hs
        | some x => exact (List.pairwise_cons.mp hs).2
      have hle : ∀ x ∈ [hidden, waiting, settled].reduceOption, rank x ≤ rank e := by
        intro x hx
        refine le_of_lt (hnew x ?_)
        cases active with
        | none => exact hx
        | some _ => exact List.mem_cons_of_mem _ hx
      exact List.pairwise_cons.mpr ⟨hle, hbehind⟩
  | hide hhidden hwaiting =>
      dsimp only at hhidden hwaiting ⊢
      subst hhidden hwaiting
      exact hs
  | publish hwaiting =>
      dsimp only at hwaiting ⊢
      subst hwaiting
      cases active <;> cases hidden <;> exact hs
  | settle =>
      cases waiting with
      | none => exact hs
      | some w => cases active <;> cases hidden <;> cases settled <;> simp_all [List.reduceOption]
  | drop hsettled =>
      cases waiting with
      | none => exact hs
      | some w => cases active <;> cases hidden <;> cases settled <;> simp_all [List.reduceOption]

/-! ## C. What is ahead of a reader -/

theorem reaches_nil : Reaches rank D [] ↔ ∀ q, ¬ D q := by
  simp [Reaches]

theorem reaches_cons {l : List ρ} : Reaches rank D (e :: l) ↔ ∀ q, D q → q ≤ rank e := by
  simp [Reaches]

theorem Reaches.mono {D' : α → Prop} {l : List ρ} (h : Reaches rank D l) (hD : ∀ q, D' q → D q) : Reaches rank D' l :=
  fun q hq => h q (hD q hq)

theorem held_eq (s : Relay ρ) : s.held = s.active.toList ++ s.behindActive := by
  unfold held behindActive
  cases s.active <;> rfl

/-- The active place has what the reader wants, or it is ahead. -/
theorem Reaches.readActive (h : Reaches rank D s.held) :
    (∀ e, s.active = some e → ∀ q, D q → q ≤ rank e) ∧ (s.active = none → Reaches rank D s.behindActive) := by
  rw [held_eq] at h
  constructor
  · intro e he
    rw [he] at h
    exact reaches_cons.mp h
  · intro he
    rwa [he] at h

/-- So has the waiting place, unless a record is hidden. -/
theorem Reaches.readWaiting (h : Reaches rank D s.behindActive) (hhidden : s.hidden = none) :
    (∀ e, s.waiting = some e → ∀ q, D q → q ≤ rank e) ∧ (s.waiting = none → Reaches rank D s.behindWaiting) := by
  unfold behindActive at h
  rw [hhidden] at h
  constructor
  · intro e he
    rw [he] at h
    exact reaches_cons.mp h
  · intro he
    rw [he] at h
    exact h

theorem Reaches.readSettled (h : Reaches rank D s.behindWaiting) :
    (∀ e, s.settled = some e → ∀ q, D q → q ≤ rank e) ∧ (s.settled = none → ∀ q, ¬ D q) := by
  unfold behindWaiting at h
  constructor
  · intro e he
    rw [he] at h
    exact reaches_cons.mp h
  · intro he
    rw [he] at h
    exact reaches_nil.mp h

/-- What was ahead of a reader behind the active place is still ahead of it after a move, -/
theorem Reaches.move (h : Reaches rank D s.behindActive) (hs : Sorted rank s) (hm : Move rank s s') :
    Reaches rank D s'.behindActive := by
  obtain ⟨active, hidden, waiting, settled⟩ := s
  unfold Sorted held at hs
  unfold behindActive at h ⊢
  cases hm with
  | write hnew => exact h
  | hide hhidden hwaiting =>
      -- the record that is hidden now is newer than the one that was ahead
      dsimp only at hhidden hwaiting ⊢
      subst hhidden hwaiting
      cases active with
      | none => exact h
      | some a =>
          cases settled with
          | none => exact fun q hq => absurd hq (reaches_nil.mp h q)
          | some e =>
              have hle : rank e ≤ rank a := (List.pairwise_cons.mp hs).1 e (by simp)
              exact reaches_cons.mpr fun q hq => le_trans (reaches_cons.mp h q hq) hle
  | publish hwaiting =>
      dsimp only at hwaiting ⊢
      subst hwaiting
      cases hidden <;> exact h
  | settle =>
      cases waiting with
      | none => exact h
      | some w => cases hidden <;> exact h
  | drop hsettled =>
      cases waiting with
      | none => exact h
      | some w =>
          obtain rfl : settled = some w := hsettled w rfl
          cases hidden <;> exact h

/-- and so is what was ahead of one behind the waiting place. -/
theorem Reaches.moveWaiting (h : Reaches rank D s.behindWaiting) (hs : Sorted rank s) (hm : Move rank s s') :
    Reaches rank D s'.behindWaiting := by
  obtain ⟨active, hidden, waiting, settled⟩ := s
  unfold Sorted held at hs
  unfold behindWaiting at h ⊢
  cases hm with
  | settle =>
      cases waiting with
      | none => exact h
      | some w =>
          cases settled with
          | none => exact fun q hq => absurd hq (reaches_nil.mp h q)
          | some e =>
              have hle : rank e ≤ rank w := by
                cases active <;> cases hidden <;> simp_all [List.reduceOption]
              exact reaches_cons.mpr fun q hq => le_trans (reaches_cons.mp h q hq) hle
  | write hnew => exact h
  | hide hhidden hwaiting => exact h
  | publish hwaiting => exact h
  | drop hsettled => exact h

/-- What all places together have is not lost by a move either. -/
theorem Reaches.moveHeld (h : Reaches rank D s.held) (hm : Move rank s s') : Reaches rank D s'.held := by
  obtain ⟨active, hidden, waiting, settled⟩ := s
  unfold held at h ⊢
  cases hm with
  | @write e hnew =>
      refine reaches_cons.mpr fun q hq => ?_
      obtain ⟨x, hx, hle⟩ := h q hq
      exact le_trans hle (le_of_lt (hnew x (List.mem_of_head? hx)))
  | hide hhidden hwaiting =>
      dsimp only at hhidden hwaiting ⊢
      subst hhidden hwaiting
      exact h
  | publish hwaiting =>
      dsimp only at hwaiting ⊢
      subst hwaiting
      cases active <;> cases hidden <;> exact h
  | settle =>
      cases waiting with
      | none => exact h
      | some w => cases active <;> cases hidden <;> exact h
  | drop hsettled =>
      cases waiting with
      | none => exact h
      | some w =>
          obtain rfl : settled = some w := hsettled w rfl
          cases active <;> cases hidden <;> exact h

end Relay
