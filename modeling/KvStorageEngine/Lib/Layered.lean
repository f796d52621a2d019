import Mathlib.Data.List.MinMax

/-!
# `Lib.Layered` — stores made of layers of different age

A log-structured store keeps several records of one key, in layers that are searched from the newest to
the oldest. What makes the first hit the right answer is *age order*: a record in an earlier layer is newer
than every record of the same key in a later one (`Aged`). This file is about that order alone: layers are
relations between keys and records over arbitrary types, and a record's age is its sequence number.

## Contents
- `Aged`, and `Aged.eq_of_seq_eq`: equal sequence numbers mean equal records, across all layers.
- `Picks seq S r`: the outcome of a search of `S` for its newest element, and how two searches combine.
- `Newest L k e`: `e` is the newest record of `k`; it is unique (`Newest.unique`), found in the first layer
  that holds the key (`newest_of_first`), and what `List.argmax` over all records returns
  (`newest_iff_argmax`).
- The two ways a store changes: records move to later layers without overtaking (`Aged.of_moves`), or a new
  record is written in front of everything (`Aged.of_write`).
-/

namespace Layered

/-- Which records each layer holds for each key, layer `0` being searched first. -/
abbrev Layers (κ ρ : Type*) := Nat → κ → ρ → Prop

variable {κ ρ : Type*} {seq : ρ → Nat} {L L' : Layers κ ρ} {k : κ} {e e' : ρ}

/-- Earlier layers are newer, and within one layer the sequence number determines the record. -/
structure Aged (seq : ρ → Nat) (L : Layers κ ρ) : Prop where
  newer : ∀ i j k e e', i < j → L i k e → L j k e' → seq e' < seq e
  unique : ∀ i k e e', L i k e → L i k e' → seq e = seq e' → e = e'

/-- `e` is a record of `k` no other record of `k` is newer than. -/
def Newest (seq : ρ → Nat) (L : Layers κ ρ) (k : κ) (e : ρ) : Prop :=
  (∃ i, L i k e) ∧ ∀ i e', L i k e' → seq e' ≤ seq e

/-- Across all layers, the sequence number determines the record of a key. -/
theorem Aged.eq_of_seq_eq (h : Aged seq L) {i j : Nat} (hi : L i k e) (hj : L j k e')
    (hs : seq e = seq e') : e = e' := by
  rcases lt_trichotomy i j with hij | rfl | hij
  · have := h.newer i j k e e' hij hi hj
    omega
  · exact h.unique i k e e' hi hj hs
  · have := h.newer j i k e' e hij hj hi
    omega

/-- The newest record of a key is unique. -/
theorem Newest.unique (h : Aged seq L) (he : Newest seq L k e) (he' : Newest seq L k e') : e = e' := by
  obtain ⟨⟨i, hi⟩, hmax⟩ := he
  obtain ⟨⟨j, hj⟩, hmax'⟩ := he'
  exact h.eq_of_seq_eq hi hj (Nat.le_antisymm (hmax' i e hi) (hmax j e' hj))

/-- The newest record of the first layer that holds the key is the newest of all. -/
theorem newest_of_first (h : Aged seq L) {i : Nat} (hbefore : ∀ j < i, ∀ e', ¬ L j k e')
    (he : L i k e) (hmax : ∀ e', L i k e' → seq e' ≤ seq e) : Newest seq L k e := by
  refine ⟨⟨i, he⟩, ?_⟩
  intro j e' hj
  rcases lt_trichotomy j i with hji | rfl | hji
  · exact absurd hj (hbefore j hji e')
  · exact hmax e' hj
  · exact (h.newer i j k e e' hji he hj).le

/-- The newest record is what a scan over all records of the key selects. -/
theorem newest_iff_argmax (h : Aged seq L) {records : List ρ}
    (hrec : ∀ e, e ∈ records ↔ ∃ i, L i k e) : Newest seq L k e ↔ records.argmax seq = some e := by
  have hsome : ∀ e, records.argmax seq = some e → Newest seq L k e := by
    intro e he
    have he : e ∈ records.argmax seq := he
    refine ⟨(hrec e).mp (List.argmax_mem he), ?_⟩
    intro i e' hi
    exact List.le_of_mem_argmax ((hrec e').mpr ⟨i, hi⟩) he
  constructor
  · intro hn
    cases hmax : records.argmax seq with
    | none =>
        have hnil : records = [] := List.argmax_eq_none.mp hmax
        have hmem := (hrec e).mpr hn.1
        rw [hnil] at hmem
        exact absurd hmem List.not_mem_nil
    | some e' => rw [Newest.unique h hn (hsome e' hmax)]
  · exact hsome e

/-! ## Searching -/

/-- `r` is a newest element of `S`, and `none` only when there is nothing to find. -/
def Picks (seq : ρ → Nat) (S : ρ → Prop) : Option ρ → Prop
  | none => ∀ e, ¬ S e
  | some e => S e ∧ ∀ e', S e' → seq e' ≤ seq e

theorem Picks.congr {S T : ρ → Prop} {r : Option ρ} (h : Picks seq S r) (hST : ∀ e, S e ↔ T e) :
    Picks seq T r := by
  have : S = T := funext fun e => propext (hST e)
  rwa [← this]

/-- A search that found something need not look at anything that is not newer. -/
theorem Picks.stop {S T : ρ → Prop} {r : Option ρ} (h : Picks seq S r) (hr : r.isSome)
    (hold : ∀ e e', S e → T e' → seq e' ≤ seq e) : Picks seq (fun e => S e ∨ T e) r := by
  cases r with
  | none => exact absurd hr (by simp)
  | some e =>
      refine ⟨Or.inl h.1, ?_⟩
      intro e' he'
      rcases he' with he' | he'
      · exact h.2 e' he'
      · exact hold e e' h.1 he'

/-- What a search of all layers picks is the newest record. -/
theorem picks_iff_newest (h : Aged seq L) {r : Option ρ} (hr : Picks seq (fun e => ∃ i, L i k e) r) :
    r = some e ↔ Newest seq L k e := by
  cases r with
  | none =>
      constructor
      · intro h
        exact absurd h (by simp)
      · intro hn
        exact absurd hn.1 (hr e)
  | some e₀ =>
      have hn : Newest seq L k e₀ := ⟨hr.1, fun i e' he' => hr.2 e' ⟨i, he'⟩⟩
      constructor
      · rintro he
        exact Option.some.inj he ▸ hn
      · intro he
        exact congrArg some (hn.unique h he)

/-! ## Changing the layers -/

/-- Records may move between layers, and disappear, as long as none overtakes another of its key. -/
theorem Aged.of_moves (h : Aged seq L) (hfrom : ∀ i k e, L' i k e → ∃ a, L a k e)
    (horder : ∀ i j k e e', i < j → L' i k e → L' j k e' → ∃ a b, a < b ∧ L a k e ∧ L b k e') :
    Aged seq L' := by
  refine ⟨?_, ?_⟩
  · intro i j k e e' hij hi hj
    obtain ⟨a, b, hab, ha, hb⟩ := horder i j k e e' hij hi hj
    exact h.newer a b k e e' hab ha hb
  · intro i k e e' hi hj hs
    obtain ⟨a, ha⟩ := hfrom i k e hi
    obtain ⟨b, hb⟩ := hfrom i k e' hj
    exact h.eq_of_seq_eq ha hb hs

/-- A new record of `k` in the first layer, newer than everything and replacing what the layer held of
    `k`. -/
theorem Aged.of_write (h : Aged seq L) (hnew : ∀ i e', L i k e' → seq e' < seq e)
    (hL' : ∀ i k' e', L' i k' e' → (i = 0 ∧ k' = k ∧ e' = e) ∨ (L i k' e' ∧ ¬ (i = 0 ∧ k' = k))) :
    Aged seq L' := by
  refine ⟨?_, ?_⟩
  · intro i j k₁ e₁ e₂ hij hi hj
    rcases hL' j k₁ e₂ hj with ⟨rfl, -, -⟩ | ⟨hj, -⟩
    · exact absurd hij (by omega)
    · rcases hL' i k₁ e₁ hi with ⟨-, rfl, rfl⟩ | ⟨hi, -⟩
      · exact hnew j e₂ hj
      · exact h.newer i j k₁ e₁ e₂ hij hi hj
  · intro i k₁ e₁ e₂ hi hj hs
    rcases hL' i k₁ e₁ hi with ⟨rfl, rfl, rfl⟩ | ⟨hi, hni⟩
    · rcases hL' 0 _ e₂ hj with ⟨-, -, rfl⟩ | ⟨-, hnj⟩
      · rfl
      · exact absurd ⟨rfl, rfl⟩ hnj
    · rcases hL' i k₁ e₂ hj with ⟨rfl, rfl, rfl⟩ | ⟨hj, -⟩
      · exact absurd ⟨rfl, rfl⟩ hni
      · exact h.unique i k₁ e₁ e₂ hi hj hs

end Layered
