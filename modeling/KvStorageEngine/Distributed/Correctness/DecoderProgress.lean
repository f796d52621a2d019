import Mathlib.Data.List.Perm.Subperm
import KvStorageEngine.Distributed.WireFormat

/-!
# `Distributed.Correctness.DecoderProgress` — how long a message can keep the decoder busy

The loop of `ReplicationMessage::deserialize` runs as often as the message says, and its position moves by lengths that
the message declares. Those are full 64-bit numbers, `substr` takes what there is of them, and the sum wraps: a length
near `2 ^ 64` leads back to its own digits. An entry of the right shape behind it is then read again and again.

Where no length leads back, the positions increase, and there are no more entries than bytes (`bounded_iff`).
-/

namespace KvStorageEngine.Distributed.Wire

open TextStream

/-! ## A. The positions of the loop

The positions at which the loop reads an entry are a function of the bytes, since an entry moves the position by the
length that it declares. -/

/-- `nextToken` and `stoull` at the start of an iteration: the position behind the length, and the length. -/
def lengthAt (data : Bytes) (pos : Nat) : Option (Nat × Nat) := do
  let (entryLenStr, next) ← nextToken data pos
  let entryLen ← stoull entryLenStr
  some (next, entryLen)

/-- The number of entries, and where the first one starts. -/
def entriesAt (data : Bytes) : Option (Nat × Nat) := do
  let (_, pos) ← nextToken data 0
  let (_, pos) ← nextToken data pos
  let (numEntriesStr, pos) ← nextToken data pos
  let numEntries ← stoull numEntriesStr
  some (numEntries, pos)

/-- `pos` at the start of each iteration. -/
def positionsFrom (data : Bytes) : Nat → Nat → List Nat
  | 0, _ => []
  | n + 1, pos => pos :: match lengthAt data pos with
    | some (next, entryLen) => positionsFrom data n (advance next entryLen)
    | none => []

def entryPositions (data : Bytes) : List Nat :=
  match entriesAt data with
  | some (numEntries, pos) => positionsFrom data numEntries pos
  | none => []

/-- The decoder throws, or it returns after at most as many iterations as there are bytes, with at most as many entries,
    and its position has increased from one entry to the next. -/
def Bounded (data : Bytes) : Prop :=
  ReplicationMessage.deserialize data = none ∨ ∃ m, ReplicationMessage.deserialize data = some m ∧
    (entryPositions data).length ≤ data.length ∧ m.entries.length ≤ data.length ∧
    (entryPositions data).Pairwise (· < ·)

/-- None of `n` lengths but the last leads back: it stays below `2 ^ 64` with the position behind it, or exceeds that by
    more than the position in front of it. -/
def LengthsForward (data : Bytes) : Nat → Nat → Prop
  | 0, _ => True
  | 1, _ => True
  | n + 2, pos => ∀ next entryLen, lengthAt data pos = some (next, entryLen) →
      (next + entryLen + 1 < 2 ^ 64 ∧ LengthsForward data (n + 1) (next + entryLen + 1)) ∨
      (2 ^ 64 + pos < next + entryLen + 1 ∧ LengthsForward data (n + 1) (next + entryLen + 1 - 2 ^ 64))

/-- No length of the message leads back. -/
def Forward (data : Bytes) : Prop := ∀ n pos, entriesAt data = some (n, pos) → LengthsForward data n pos

/-! ## B. One iteration

An iteration that accepts its entry has read a length behind the position, and goes on at that length, modulo `2 ^
64`. -/

theorem nextToken_bounds {data tok : Bytes} {pos next : Nat} (h : nextToken data pos = some (tok, next)) :
    pos < next ∧ next ≤ data.length := by
  obtain ⟨n, hfind, heq⟩ := Option.map_eq_some_iff.mp h
  obtain ⟨-, hnext⟩ := Prod.mk.inj heq
  obtain ⟨hlt, -⟩ := List.findIdx?_eq_some_iff_getElem.mp hfind
  rw [List.length_drop] at hlt
  omega

theorem stoull_lt {s : Bytes} {n : Nat} (h : stoull s = some n) : n < 2 ^ 64 := by
  unfold stoull at h
  obtain ⟨⟨negative, k⟩, -, h⟩ := Option.bind_eq_some_iff.mp h
  dsimp only at h
  split at h
  · rename_i hk
    rw [← Option.some.inj h]
    split
    · exact Nat.mod_lt _ (by decide)
    · exact hk
  · cases h

/-- A length is read from a token, so it lies behind the position and fits 64 bits. -/
theorem lengthAt_bounds {data : Bytes} {pos next entryLen : Nat} (h : lengthAt data pos = some (next, entryLen)) :
    pos < next ∧ next ≤ data.length ∧ entryLen < 2 ^ 64 := by
  obtain ⟨⟨tok, next'⟩, htoken, h⟩ := Option.bind_eq_some_iff.mp h
  obtain ⟨len, hlen, h⟩ := Option.bind_eq_some_iff.mp h
  obtain ⟨hnext, hlenEq⟩ := Prod.mk.inj (Option.some.inj h)
  subst hnext hlenEq
  obtain ⟨hlt, hle⟩ := nextToken_bounds htoken
  exact ⟨hlt, hle, stoull_lt hlen⟩

/-- One iteration that does not throw. -/
theorem iteration_of_accepted {data : Bytes} {n pos : Nat} {entries : List LogEntry}
    (h : deserializeEntries data (n + 1) pos = some entries) : ∃ next entryLen entry rest,
      lengthAt data pos = some (next, entryLen) ∧ entries = entry :: rest ∧
      deserializeEntries data n (advance next entryLen) = some rest := by
  obtain ⟨⟨tok, next⟩, htoken, h⟩ := Option.bind_eq_some_iff.mp h
  obtain ⟨entryLen, hlen, h⟩ := Option.bind_eq_some_iff.mp h
  obtain ⟨entryData, -, h⟩ := Option.bind_eq_some_iff.mp h
  obtain ⟨entry, -, h⟩ := Option.bind_eq_some_iff.mp h
  obtain ⟨rest, hrest, h⟩ := Option.bind_eq_some_iff.mp h
  refine ⟨next, entryLen, entry, rest, ?_, (Option.some.inj h).symm, hrest⟩
  unfold lengthAt
  simp only [htoken, hlen, Option.bind_eq_bind, Option.bind_some]

/-- The next position is ahead if the length does not lead back. -/
theorem lt_advance_iff {pos next entryLen : Nat} (hnext : pos < next) (hlen : next + entryLen + 1 < 2 ^ 64 + 2 ^ 64) :
    pos < advance next entryLen ↔ next + entryLen + 1 < 2 ^ 64 ∨ 2 ^ 64 + pos < next + entryLen + 1 := by
  unfold advance
  omega

/-! ## C. The whole loop

Increasing positions inside the text are no more than it has bytes; and where some length leads back, the positions do
not increase. -/

/-- A message that is accepted has been read at as many positions as it has entries. -/
theorem length_of_accepted {data : Bytes} {n pos : Nat} {entries : List LogEntry}
    (h : deserializeEntries data n pos = some entries) :
    entries.length = n ∧ (positionsFrom data n pos).length = n ∧ ∀ p ∈ positionsFrom data n pos, p < data.length := by
  induction n generalizing pos entries with
  | zero =>
      cases h
      exact ⟨rfl, rfl, by simp [positionsFrom]⟩
  | succ n ih =>
      obtain ⟨next, entryLen, entry, rest, hlength, rfl, hrest⟩ := iteration_of_accepted h
      obtain ⟨hentries, hpositions, hlt⟩ := ih hrest
      obtain ⟨hpos, hnext, -⟩ := lengthAt_bounds hlength
      rw [positionsFrom, hlength]
      refine ⟨by rw [List.length_cons, hentries], by rw [List.length_cons, hpositions], ?_⟩
      intro p hp
      rcases List.mem_cons.mp hp with rfl | hp
      · omega
      · exact hlt p hp

/-- The positions of an accepted message increase exactly if no length leads back. -/
theorem isChain_positionsFrom_iff {data : Bytes} (hdata : data.length < 2 ^ 64) {n pos : Nat} {entries : List LogEntry}
    (h : deserializeEntries data n pos = some entries) :
    (positionsFrom data n pos).IsChain (· < ·) ↔ LengthsForward data n pos := by
  induction n generalizing pos entries with
  | zero => exact iff_of_true List.IsChain.nil trivial
  | succ n ih =>
      obtain ⟨next, entryLen, entry, rest, hlength, rfl, hrest⟩ := iteration_of_accepted h
      obtain ⟨hpos, hnext, hlen⟩ := lengthAt_bounds hlength
      cases n with
      | zero =>
          rw [positionsFrom, hlength]
          exact iff_of_true (List.IsChain.singleton pos) trivial
      | succ n =>
          have hchain : (positionsFrom data (n + 1 + 1) pos).IsChain (· < ·) ↔
              pos < advance next entryLen ∧ LengthsForward data (n + 1) (advance next entryLen) := by
            rw [← ih hrest, positionsFrom, hlength]
            exact List.isChain_cons_cons
          have hforward : LengthsForward data (n + 1 + 1) pos ↔
              (next + entryLen + 1 < 2 ^ 64 ∧ LengthsForward data (n + 1) (next + entryLen + 1)) ∨
              (2 ^ 64 + pos < next + entryLen + 1 ∧ LengthsForward data (n + 1) (next + entryLen + 1 - 2 ^ 64)) := by
            rw [LengthsForward, hlength]
            constructor
            · intro hall
              exact hall next entryLen rfl
            · intro hcase next' entryLen' heq
              cases heq
              exact hcase
          rw [hchain, hforward, lt_advance_iff hpos (by omega)]
          have hadvance : (next + entryLen + 1 < 2 ^ 64 → advance next entryLen = next + entryLen + 1) ∧
              (2 ^ 64 + pos < next + entryLen + 1 → advance next entryLen = next + entryLen + 1 - 2 ^ 64) := by
            unfold advance
            omega
          constructor
          · rintro ⟨hlt | hlt, hrest'⟩
            · exact Or.inl ⟨hlt, hadvance.1 hlt ▸ hrest'⟩
            · exact Or.inr ⟨hlt, hadvance.2 hlt ▸ hrest'⟩
          · rintro (⟨hlt, hrest'⟩ | ⟨hlt, hrest'⟩)
            · exact ⟨Or.inl hlt, (hadvance.1 hlt).symm ▸ hrest'⟩
            · exact ⟨Or.inr hlt, (hadvance.2 hlt).symm ▸ hrest'⟩

/-- There are no more increasing positions than there are places for them. -/
theorem length_le_of_pairwise_lt {l : List Nat} {bound : Nat} (h : l.Pairwise (· < ·)) (hbound : ∀ p ∈ l, p < bound) :
    l.length ≤ bound := by
  have hnodup : l.Nodup := h.imp fun hlt => hlt.ne
  have hsub : l ⊆ List.range bound := by
    intro p hp
    exact List.mem_range.mpr (hbound p hp)
  have hle := (List.Nodup.subperm hnodup hsub).length_le
  rwa [List.length_range] at hle

/-- What is read before the loop. -/
theorem entries_of_accepted {data : Bytes} {m : ReplicationMessage} (h : ReplicationMessage.deserialize data = some m) :
    ∃ n pos, entriesAt data = some (n, pos) ∧ deserializeEntries data n pos = some m.entries := by
  unfold ReplicationMessage.deserialize at h
  obtain ⟨⟨termStr, p₁⟩, hterm, h⟩ := Option.bind_eq_some_iff.mp h
  obtain ⟨term, -, h⟩ := Option.bind_eq_some_iff.mp h
  obtain ⟨⟨commitStr, p₂⟩, hcommit, h⟩ := Option.bind_eq_some_iff.mp h
  obtain ⟨commit, -, h⟩ := Option.bind_eq_some_iff.mp h
  obtain ⟨⟨numStr, p₃⟩, hnum, h⟩ := Option.bind_eq_some_iff.mp h
  obtain ⟨n, hn, h⟩ := Option.bind_eq_some_iff.mp h
  obtain ⟨entries, hentries, h⟩ := Option.bind_eq_some_iff.mp h
  have hm : m.entries = entries := by rw [← Option.some.inj h]
  refine ⟨n, p₃, ?_, hm ▸ hentries⟩
  unfold entriesAt
  simp only [hterm, hcommit, hnum, hn, Option.bind_eq_bind, Option.bind_some]

/-- **The decoder is bounded exactly if it throws or no length leads back.** -/
theorem bounded_iff {data : Bytes} (hdata : data.length < 2 ^ 64) :
    Bounded data ↔ ReplicationMessage.deserialize data = none ∨ Forward data := by
  cases hm : ReplicationMessage.deserialize data with
  | none => exact iff_of_true (Or.inl hm) (Or.inl rfl)
  | some m =>
      obtain ⟨n, pos, hat, hentries⟩ := entries_of_accepted hm
      obtain ⟨hlen, hpositions, hlt⟩ := length_of_accepted hentries
      have hchain := isChain_positionsFrom_iff hdata hentries
      have hpos : entryPositions data = positionsFrom data n pos := by
        unfold entryPositions
        rw [hat]
      have hforward : Forward data ↔ LengthsForward data n pos := by
        unfold Forward
        rw [hat]
        constructor
        · intro hall
          exact hall n pos rfl
        · intro hn n' pos' heq
          cases heq
          exact hn
      rw [List.isChain_iff_pairwise, ← hforward] at hchain
      constructor
      · rintro (hnone | ⟨-, -, -, -, hincreasing⟩)
        · rw [hnone] at hm
          cases hm
        · exact Or.inr (hchain.mp (hpos ▸ hincreasing))
      · rintro (hnone | hforward')
        · cases hnone
        · have hincreasing := hchain.mpr hforward'
          have hle := length_le_of_pairwise_lt hincreasing hlt
          refine Or.inr ⟨m, hm, ?_, ?_, ?_⟩
          · rwa [hpos]
          · rwa [hlen, ← hpositions]
          · rwa [hpos]

/-- Two entries, the length of the second beyond the end. -/
theorem bounded_iff_two :
    let data := Bytes.ascii "1|0|2|13|1|1|1|1|a|1|b|18446744073709551615|1|2|2|1|a|0|"
    Bounded data ↔ ReplicationMessage.deserialize data = none ∨ Forward data :=
  bounded_iff (by decide)

/-- The length of the entry is `2 ^ 64 - 22` and leads back to itself: 41 bytes make 99 entries. -/
theorem jump_not_bounded :
    ¬ Bounded (Bytes.ascii "1|1|99|18446744073709551594|1|1|1|1|a|1|b") := by
  have hnum : (ReplicationMessage.deserialize
      (Bytes.ascii "1|1|99|18446744073709551594|1|1|1|1|a|1|b")).map (·.entries.length) = some 99 := by
    decide +kernel
  rintro (hnone | ⟨m, hm, -, hle, -⟩)
  · rw [hnone] at hnum
    cases hnum
  · rw [hm] at hnum
    have hlen : m.entries.length = 99 := Option.some.inj hnum
    rw [hlen] at hle
    exact absurd hle (by decide)

end KvStorageEngine.Distributed.Wire
