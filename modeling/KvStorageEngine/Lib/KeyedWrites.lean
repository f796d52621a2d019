import Mathlib.Data.List.Induction

/-!
# `Lib.KeyedWrites` — lists of writes to a map

A write gives a key a value or takes it away. A list of writes, one after the other, leaves at every key what
the last write on that key says (`applyWrites_apply`), whatever came before it and whatever happened to other
keys. `lastOn` is stated for arbitrary elements with a key, so that histories which tag their writes can use
it as well.
-/

namespace KeyedWrites

variable {α κ ν : Type*} [DecidableEq κ]

/-! ## The last element on a key -/

/-- The last element of `l` under the key `k`. -/
def lastOn (key : α → κ) (k : κ) (l : List α) : Option α := (l.filter fun a => key a = k).getLast?

section LastOn

variable {key : α → κ} {k : κ} {l : List α} {a : α}

@[simp] theorem lastOn_nil : lastOn key k ([] : List α) = none := rfl

theorem lastOn_concat : lastOn key k (l ++ [a]) = if key a = k then some a else lastOn key k l := by
  unfold lastOn
  rw [List.filter_append]
  by_cases h : key a = k
  · rw [if_pos h, List.filter_cons_of_pos (by simpa using h), List.filter_nil, List.getLast?_concat]
  · rw [if_neg h, List.filter_cons_of_neg (by simpa using h), List.filter_nil, List.append_nil]

theorem mem_of_lastOn (h : lastOn key k l = some a) : a ∈ l ∧ key a = k := by
  have := List.mem_of_getLast? h
  simpa using this

theorem lastOn_eq_none : lastOn key k l = none ↔ ∀ a ∈ l, key a ≠ k := by
  simp [lastOn]

theorem lastOn_map {β : Type*} {f : β → α} {l : List β} :
    lastOn key k (l.map f) = (lastOn (fun b => key (f b)) k l).map f := by
  unfold lastOn
  rw [List.filter_map, List.getLast?_map]
  rfl

/-- A last element that passes a filter is still the last one behind it. -/
theorem lastOn_filter {p : α → Bool} (h : lastOn key k l = some a) (ha : p a = true) :
    lastOn key k (l.filter p) = some a := by
  induction l using List.reverseRecOn with
  | nil => exact absurd h (by simp)
  | append_singleton l b ih =>
      rw [lastOn_concat] at h
      rw [List.filter_append]
      split_ifs at h with hb
      · obtain rfl := Option.some.inj h
        rw [List.filter_cons_of_pos ha, List.filter_nil, lastOn_concat, if_pos hb]
      · by_cases hp : p b = true
        · rw [List.filter_cons_of_pos hp, List.filter_nil, lastOn_concat, if_neg hb, ih h]
        · rw [List.filter_cons_of_neg hp, List.filter_nil, List.append_nil, ih h]

end LastOn

/-! ## Writes -/

/-- A write: a value for the key, or none. -/
structure Write (κ ν : Type*) where
  key : κ
  value : Option ν
  deriving DecidableEq

/-- What a write does to a map. -/
def Write.apply (w : Write κ ν) (m : κ → Option ν) : κ → Option ν := fun k => if k = w.key then w.value else m k

/-- What a list of writes does to a map. -/
def applyWrites (m : κ → Option ν) (ws : List (Write κ ν)) : κ → Option ν := ws.foldl (fun m w => w.apply m) m

section Replay

variable {m : κ → Option ν} {ws : List (Write κ ν)} {w : Write κ ν}

@[simp] theorem applyWrites_nil : applyWrites m [] = m := rfl

theorem applyWrites_concat : applyWrites m (ws ++ [w]) = w.apply (applyWrites m ws) := by
  rw [applyWrites, List.foldl_append]
  rfl

theorem Write.apply_of_ne {k : κ} (h : k ≠ w.key) : w.apply m k = m k := if_neg h

theorem Write.apply_key : w.apply m w.key = w.value := if_pos rfl

/-- **The last write on a key decides.** -/
theorem applyWrites_apply (k : κ) :
    applyWrites m ws k = match lastOn Write.key k ws with
      | some w => w.value
      | none => m k := by
  induction ws using List.reverseRecOn with
  | nil => rfl
  | append_singleton ws w ih =>
      rw [applyWrites_concat, lastOn_concat]
      by_cases h : w.key = k
      · rw [if_pos h, ← h]
        exact Write.apply_key
      · rw [if_neg h, ← ih]
        exact Write.apply_of_ne (Ne.symm h)

theorem applyWrites_of_lastOn {k : κ} (h : lastOn Write.key k ws = some w) : applyWrites m ws k = w.value := by
  rw [applyWrites_apply, h]

theorem applyWrites_of_lastOn_none {k : κ} (h : lastOn Write.key k ws = none) : applyWrites m ws k = m k := by
  rw [applyWrites_apply, h]

/-- Writes on other keys do not matter. -/
theorem applyWrites_append_of_ne {ws' : List (Write κ ν)} {k : κ} (h : ∀ w ∈ ws', w.key ≠ k) :
    applyWrites m (ws ++ ws') k = applyWrites m ws k := by
  induction ws' using List.reverseRecOn with
  | nil => rw [List.append_nil]
  | append_singleton ws' w ih =>
      have hw : w.key ≠ k := h w (List.mem_append_right _ (List.mem_singleton_self w))
      rw [← List.append_assoc, applyWrites_concat, Write.apply_of_ne hw.symm]
      exact ih fun w hw => h w (List.mem_append_left _ hw)

end Replay

end KeyedWrites
