import Mathlib.Data.List.Infix

/-!
# `Lib.NumberedLog` — logs whose entries carry their position

A log is `Numbered` when its entries carry the indices 1, 2, 3, … in order. Such a log can be copied entry by
entry, with gaps, repetitions and in any order: a search of the copy by index finds the entry that stands at
that index in the log, or nothing (`Numbered.find?_copy`).

-/

namespace NumberedLog

variable {α : Type*} {index : α → Nat} {log : List α}

/-! ## Numbering -/

/-- The entry at position `i` carries the index `i + 1`. -/
def Numbered (index : α → Nat) (log : List α) : Prop := ∀ i a, log[i]? = some a → index a = i + 1

theorem numbered_nil : Numbered index [] := fun _ _ h => absurd h (by simp)

/-- The index the next entry gets. -/
def nextIndex (index : α → Nat) (log : List α) : Nat :=
  match log.getLast? with
  | none => 1
  | some a => index a + 1

theorem Numbered.index_getLast? (h : Numbered index log) {a : α} (ha : log.getLast? = some a) :
    index a = log.length := by
  rw [List.getLast?_eq_getElem?] at ha
  have hpos : 0 < log.length := by
    have := (List.getElem?_eq_some_iff.mp ha).1
    omega
  have := h _ a ha
  omega

theorem Numbered.nextIndex_eq (h : Numbered index log) : nextIndex index log = log.length + 1 := by
  unfold nextIndex
  cases ha : log.getLast? with
  | none => rw [List.getLast?_eq_none_iff.mp ha]; rfl
  | some a =>
      show index a + 1 = _
      rw [h.index_getLast? ha]

theorem Numbered.concat (h : Numbered index log) {a : α} (ha : index a = nextIndex index log) :
    Numbered index (log ++ [a]) := by
  intro i b hb
  rcases Nat.lt_trichotomy i log.length with hi | rfl | hi
  · rw [List.getElem?_append_left hi] at hb
    exact h i b hb
  · rw [List.getElem?_concat_length] at hb
    rw [← Option.some.inj hb, ha, h.nextIndex_eq]
  · rw [List.getElem?_eq_none (by simp; omega)] at hb
    exact absurd hb (by simp)

/-- An entry stands where its index says. -/
theorem Numbered.getElem?_of_mem (h : Numbered index log) {a : α} (ha : a ∈ log) {i : Nat}
    (hi : index a = i + 1) : log[i]? = some a := by
  obtain ⟨j, hj⟩ := List.mem_iff_getElem?.mp ha
  obtain rfl : j = i := by
    have := h j a hj
    omega
  exact hj

theorem Numbered.index_pos (h : Numbered index log) {a : α} (ha : a ∈ log) : 0 < index a := by
  obtain ⟨j, hj⟩ := List.mem_iff_getElem?.mp ha
  have := h j a hj
  omega

theorem Numbered.index_le (h : Numbered index log) {a : α} (ha : a ∈ log) : index a ≤ log.length := by
  obtain ⟨j, hj⟩ := List.mem_iff_getElem?.mp ha
  have := h j a hj
  have := (List.getElem?_eq_some_iff.mp hj).1
  omega

/-- The entries before the last one have smaller indices. -/
theorem Numbered.ne_getLast? (h : Numbered index log) {a : α} (ha : a ∈ log.dropLast) :
    log.getLast? ≠ some a := by
  intro hlast
  obtain ⟨j, hj⟩ := List.mem_iff_getElem?.mp ha
  have hlt : j < log.length - 1 := by simpa using (List.getElem?_eq_some_iff.mp hj).1
  rw [List.getElem?_dropLast, if_pos hlt] at hj
  have := h j a hj
  have := h.index_getLast? hlast
  omega

/-- **Searching a copy.** Whatever part of a numbered log was copied, and in whatever order, the first entry
    of the copy with index `i + 1` is the entry of the log at position `i`. -/
theorem Numbered.find?_copy (h : Numbered index log) {copy : List α} (hcopy : ∀ a ∈ copy, a ∈ log) {i : Nat}
    {a : α} (ha : copy.find? (fun b => index b == i + 1) = some a) : log[i]? = some a := by
  have hi : index a = i + 1 := by simpa using List.find?_some ha
  exact h.getElem?_of_mem (hcopy a (List.mem_of_find?_eq_some ha)) hi

/-- An element is the last one or stands before it. -/
theorem mem_dropLast_or_getLast? {a : α} (h : a ∈ log) : a ∈ log.dropLast ∨ log.getLast? = some a := by
  rcases List.eq_nil_or_concat log with rfl | ⟨rest, b, rfl⟩
  · exact absurd h (by simp)
  · rw [List.concat_eq_append] at h ⊢
    rcases List.mem_append.mp h with h | h
    · exact Or.inl (by simpa using h)
    · exact Or.inr (by simp [List.mem_singleton.mp h])

/-- One more entry of a prefix. -/
theorem take_add_one_of_getElem? {i : Nat} {a : α} (h : log[i]? = some a) :
    log.take (i + 1) = log.take i ++ [a] := by
  rw [List.take_add_one, h, Option.toList_some]

/-- A prefix of a log is a prefix of every longer log. -/
theorem take_append_of_le {i : Nat} (hi : i ≤ log.length) (rest : List α) :
    (log ++ rest).take i = log.take i := List.take_append_of_le_length hi

end NumberedLog
