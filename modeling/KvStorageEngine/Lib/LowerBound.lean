import Mathlib.Data.List.Basic

/-!
# `Lib.LowerBound` — binary search for a partition point

`std::lower_bound` as the standard library runs it: the range `[first, first + count)` is halved until it
is empty. On a list that is *partitioned* by the test (everything that passes it comes before everything
that does not) the answer is the first element failing the test (`getElem?_lowerBound`); on any other
list it is whatever the halving happens to hit, so every caller owes the partition.
-/

namespace LowerBound

variable {α : Type*}

/-- The halving loop on `[first, first + count)`. Every round shrinks `count`, so fuel `count` is enough. -/
def lowerBoundLoop (p : α → Bool) (xs : List α) : Nat → Nat → Nat → Nat
  | 0, first, _ => first
  | fuel + 1, first, count =>
    if count = 0 then first
    else match xs[first + count / 2]? with
      | none => first
      | some x =>
        if p x then lowerBoundLoop p xs fuel (first + count / 2 + 1) (count - count / 2 - 1)
        else lowerBoundLoop p xs fuel first (count / 2)

/-- The position `std::lower_bound` returns; `xs.length` is the past-the-end iterator. -/
def lowerBound (p : α → Bool) (xs : List α) : Nat := lowerBoundLoop p xs xs.length 0 xs.length

/-- Everything that passes `p` comes before everything that does not. -/
def Partitioned (p : α → Bool) (xs : List α) : Prop :=
  xs.Pairwise (fun a b => p b = true → p a = true)

theorem Partitioned.of_le {p : α → Bool} {xs : List α} (h : Partitioned p xs) {i j : Nat} {x y : α}
    (hi : xs[i]? = some x) (hj : xs[j]? = some y) (hij : i ≤ j) (hy : p y = true) : p x = true := by
  obtain ⟨hi', rfl⟩ := List.getElem?_eq_some_iff.mp hi
  obtain ⟨hj', rfl⟩ := List.getElem?_eq_some_iff.mp hj
  rcases Nat.lt_or_eq_of_le hij with hlt | rfl
  · exact List.pairwise_iff_getElem.mp h i j hi' hj' hlt hy
  · exact hy

/-- The loop invariant: everything before `first` passes, everything from `first + count` on fails. -/
theorem lowerBoundLoop_spec {p : α → Bool} {xs : List α} (hp : Partitioned p xs) :
    ∀ (fuel first count : Nat), count ≤ fuel → first + count ≤ xs.length →
      (∀ i x, xs[i]? = some x → i < first → p x = true) →
      (∀ i x, xs[i]? = some x → first + count ≤ i → p x = false) →
      ∀ i x, xs[i]? = some x → (p x = true ↔ i < lowerBoundLoop p xs fuel first count) := by
  intro fuel
  induction fuel with
  | zero =>
      intro first count hfuel _ hlo hhi i x hx
      obtain rfl : count = 0 := Nat.le_zero.mp hfuel
      simp only [lowerBoundLoop]
      constructor
      · intro hpx
        by_contra hge
        simp [hhi i x hx (by omega)] at hpx
      · exact hlo i x hx
  | succ fuel ih =>
      intro first count hfuel hlen hlo hhi i x hx
      rw [lowerBoundLoop]
      by_cases hc : count = 0
      · subst hc
        rw [if_pos rfl]
        constructor
        · intro hpx
          by_contra hge
          simp [hhi i x hx (by omega)] at hpx
        · exact hlo i x hx
      · rw [if_neg hc]
        have hmid : first + count / 2 < xs.length := by omega
        rw [List.getElem?_eq_getElem hmid]
        have hget : xs[first + count / 2]? = some xs[first + count / 2] :=
          List.getElem?_eq_getElem hmid
        dsimp only
        split
        -- the middle passes, and so does all before it
        · rename_i hpm
          refine ih _ _ (by omega) (by omega) ?_ ?_ i x hx
          · intro j y hy hj
            exact hp.of_le hy hget (by omega) hpm
          · intro j y hy hj
            exact hhi j y hy (by omega)
        -- the middle fails, and so does all after it
        · rename_i hpm
          refine ih _ _ (by omega) (by omega) hlo ?_ i x hx
          intro j y hy hj
          by_contra hpy
          exact hpm (hp.of_le hget hy (by omega) (by simpa using hpy))

theorem lowerBoundLoop_le {p : α → Bool} {xs : List α} :
    ∀ (fuel first count : Nat), lowerBoundLoop p xs fuel first count ≤ first + count := by
  intro fuel
  induction fuel with
  | zero => exact fun first count => Nat.le_add_right first count
  | succ fuel ih =>
      intro first count
      rw [lowerBoundLoop]
      split_ifs with hc
      · exact Nat.le_add_right first count
      · split
        · exact Nat.le_add_right first count
        · split_ifs
          · have h := ih (first + count / 2 + 1) (count - count / 2 - 1)
            omega
          · have h := ih first (count / 2)
            omega

theorem lowerBound_le_length (p : α → Bool) (xs : List α) : lowerBound p xs ≤ xs.length := by
  have h := @lowerBoundLoop_le _ p xs xs.length 0 xs.length
  rwa [Nat.zero_add] at h

/-- On any list the loop ends behind an element that passes and at one that does not, if it begins so. -/
theorem lowerBoundLoop_boundary {p : α → Bool} {xs : List α} (fuel : Nat) {first count : Nat} (hfuel : count ≤ fuel)
    (hlen : first + count ≤ xs.length) (hlo : first = 0 ∨ ∃ x, xs[first - 1]? = some x ∧ p x = true)
    (hhi : ∀ x, xs[first + count]? = some x → p x = false) {bound : Nat}
    (hbound : lowerBoundLoop p xs fuel first count = bound) :
    (bound = 0 ∨ ∃ x, xs[bound - 1]? = some x ∧ p x = true) ∧ ∀ x, xs[bound]? = some x → p x = false := by
  induction fuel generalizing first count with
  | zero =>
      obtain rfl : count = 0 := Nat.le_zero.mp hfuel
      obtain rfl : first = bound := hbound
      exact ⟨hlo, hhi⟩
  | succ fuel ih =>
      rw [lowerBoundLoop] at hbound
      by_cases hc : count = 0
      · subst hc
        rw [if_pos rfl] at hbound
        obtain rfl : first = bound := hbound
        exact ⟨hlo, hhi⟩
      · have hmid : first + count / 2 < xs.length := by omega
        have hget : xs[first + count / 2]? = some xs[first + count / 2] := List.getElem?_eq_getElem hmid
        simp only [if_neg hc, hget] at hbound
        by_cases hpm : p xs[first + count / 2] = true
        · rw [if_pos hpm] at hbound
          refine ih (by omega) (by omega) (Or.inr ⟨_, hget, hpm⟩) ?_ hbound
          intro x hx
          apply hhi x
          rwa [show first + count = first + count / 2 + 1 + (count - count / 2 - 1) by omega]
        · rw [if_neg hpm] at hbound
          refine ih (by omega) (by omega) hlo ?_ hbound
          intro x hx
          rw [hget] at hx
          rw [← Option.some.inj hx]
          exact Bool.not_eq_true _ ▸ hpm

/-- On any list the element before the bound passes, and the one at the bound does not. -/
theorem lowerBound_boundary (p : α → Bool) (xs : List α) :
    (lowerBound p xs = 0 ∨ ∃ x, xs[lowerBound p xs - 1]? = some x ∧ p x = true) ∧
      ∀ x, xs[lowerBound p xs]? = some x → p x = false := by
  refine lowerBoundLoop_boundary xs.length (Nat.le_refl _) (by omega) (Or.inl rfl) ?_ rfl
  intro x hx
  exact absurd (List.getElem?_eq_some_iff.mp hx).1 (by omega)

theorem le_lowerBoundLoop {p : α → Bool} {xs : List α} (fuel first count : Nat) :
    first ≤ lowerBoundLoop p xs fuel first count := by
  induction fuel generalizing first count with
  | zero => exact Nat.le_refl first
  | succ fuel ih =>
      rw [lowerBoundLoop]
      split_ifs with hc
      · exact Nat.le_refl first
      · split
        · exact Nat.le_refl first
        · split_ifs
          · exact Nat.le_trans (by omega) (ih (first + count / 2 + 1) (count - count / 2 - 1))
          · exact ih first (count / 2)

/-- The first element is never tested as long as the second one passes. -/
theorem two_le_lowerBoundLoop {p : α → Bool} {xs : List α} {x : α} (hx : xs[1]? = some x) (hpx : p x = true)
    {fuel count : Nat} (hfuel : count ≤ fuel) (hcount : 2 ≤ count) (hlen : count ≤ xs.length) :
    2 ≤ lowerBoundLoop p xs fuel 0 count := by
  induction fuel generalizing count with
  | zero => exact absurd hcount (by omega)
  | succ fuel ih =>
      obtain ⟨y, hget⟩ : ∃ y, xs[0 + count / 2]? = some y := ⟨_, List.getElem?_eq_getElem (by omega)⟩
      rw [lowerBoundLoop, if_neg (by omega), hget]
      dsimp only
      split_ifs with hmid
      · exact Nat.le_trans (by omega) (le_lowerBoundLoop fuel (0 + count / 2 + 1) (count - count / 2 - 1))
      · -- the middle is behind the second element
        have hne : count / 2 ≠ 1 := by
          intro heq
          rw [heq, Nat.zero_add, hx] at hget
          exact hmid (Option.some.inj hget ▸ hpx)
        exact ih (by omega) (by omega) (by omega)

theorem two_le_lowerBound {p : α → Bool} {xs : List α} {x : α} (hx : xs[1]? = some x) (hpx : p x = true) :
    2 ≤ lowerBound p xs := by
  have hlen := (List.getElem?_eq_some_iff.mp hx).1
  exact two_le_lowerBoundLoop hx hpx (Nat.le_refl _) (by omega) (Nat.le_refl _)

/-- On a partitioned list exactly the elements before the bound pass. -/
theorem lt_lowerBound_iff {p : α → Bool} {xs : List α} (hp : Partitioned p xs) {i : Nat} {x : α}
    (hx : xs[i]? = some x) : i < lowerBound p xs ↔ p x = true :=
  (lowerBoundLoop_spec hp xs.length 0 xs.length (Nat.le_refl _) (by omega)
    (fun i x _ hi => absurd hi (by omega))
    (fun i x hx hi => absurd (List.getElem?_eq_some_iff.mp hx).1 (by omega)) i x hx).symm

/-- On a partitioned list the binary search finds the first element failing the test. -/
theorem getElem?_lowerBound {p : α → Bool} {xs : List α} (hp : Partitioned p xs) :
    xs[lowerBound p xs]? = xs.find? (fun x => !p x) := by
  have hspec : ∀ i x, xs[i]? = some x → (p x = true ↔ i < lowerBound p xs) :=
    fun i x hx => (lt_lowerBound_iff hp hx).symm
  cases hf : xs.find? (fun x => !p x) with
  | none =>
      rw [List.getElem?_eq_none_iff]
      by_contra hlt
      have hlt : lowerBound p xs < xs.length := by omega
      have hget := List.getElem?_eq_getElem hlt
      have hpx : p xs[lowerBound p xs] = true := by
        simpa using List.find?_eq_none.mp hf _ (List.getElem_mem hlt)
      exact absurd ((hspec _ _ hget).mp hpx) (Nat.lt_irrefl _)
  | some x =>
      obtain ⟨hx, i, hi, hxi, hbefore⟩ := List.find?_eq_some_iff_getElem.mp hf
      have hpx : p x = false := by simpa using hx
      have hget : xs[i]? = some x := by rw [List.getElem?_eq_getElem hi, hxi]
      have hle : lowerBound p xs ≤ i := by
        by_contra hlt
        have := (hspec i x hget).mpr (Nat.lt_of_not_le hlt)
        simp [hpx] at this
      rcases Nat.lt_or_eq_of_le hle with hlt | heq
      · have hget' := List.getElem?_eq_getElem (Nat.lt_trans hlt hi)
        have hpt : p xs[lowerBound p xs] = true := by simpa using hbefore _ hlt
        exact absurd ((hspec _ _ hget').mp hpt) (Nat.lt_irrefl _)
      · rw [heq, hget]

example : lowerBound (fun x : Nat => decide (x < 4)) [1, 3, 4, 4, 8] = 2 := by decide

end LowerBound
