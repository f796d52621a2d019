import Mathlib.Algebra.GroupWithZero.Nat
import Mathlib.Data.List.Infix
import Mathlib.Data.List.Lex

/-!
# `Lib.Bytes` — byte strings

A C++ `std::string` is a list of bytes, compared byte by byte as unsigned numbers, which is the
lexicographic order on `List UInt8`. `ascii` writes a literal and `toDecimal` is `std::to_string` on an
unsigned number; `toDecimal` is injective (`toDecimal_inj`) and writes digits only.
-/

/-- A byte string. -/
abbrev Bytes := List UInt8

instance UInt8.instLinearOrder : LinearOrder UInt8 where
  le_refl := UInt8.le_refl
  le_trans _ _ _ := UInt8.le_trans
  le_antisymm _ _ := UInt8.le_antisymm
  le_total := UInt8.le_total
  lt_iff_le_not_ge a b := by simp only [UInt8.lt_iff_toNat_lt, UInt8.le_iff_toNat_le]; omega
  toDecidableLE := inferInstance

namespace Bytes

/-- The byte of an ASCII character. -/
def ofChar (c : Char) : UInt8 := UInt8.ofNat c.toNat

/-- The bytes of an ASCII literal. -/
def ascii (s : String) : Bytes := s.toList.map ofChar

/-- `std::to_string` of an unsigned number. -/
def toDecimal (n : Nat) : Bytes := (Nat.toDigits 10 n).map ofChar

/-- A buffer of `n` zero bytes. -/
def zeros (n : Nat) : Bytes := List.replicate n 0

@[simp] theorem length_zeros (n : Nat) : (zeros n).length = n := List.length_replicate

theorem ofChar_toNat {c : Char} (h : c.toNat < 256) : (ofChar c).toNat = c.toNat :=
  UInt8.toNat_ofNat_of_lt' h

theorem digit_bounds {c : Char} (h : c.isDigit = true) : 48 ≤ c.toNat ∧ c.toNat ≤ 57 := by
  simp only [Char.isDigit, ge_iff_le, Bool.and_eq_true, decide_eq_true_eq, UInt32.le_iff_toNat_le] at h
  exact h

theorem char_ofNat_ofChar {c : Char} (h : c.isDigit = true) :
    Char.ofNat (ofChar c).toNat = c := by
  rw [ofChar_toNat (by have := (digit_bounds h).2; omega), Char.ofNat_toNat]

/-- Reading the digits back gives the digit characters. -/
theorem map_ofNat_toDecimal (n : Nat) :
    (toDecimal n).map (fun b => Char.ofNat b.toNat) = Nat.toDigits 10 n := by
  rw [toDecimal, List.map_map]
  conv_rhs => rw [← List.map_id (Nat.toDigits 10 n)]
  apply List.map_congr_left
  intro c hc
  exact char_ofNat_ofChar (Nat.isDigit_of_mem_toDigits (by omega) (by omega) hc)

/-- Different numbers have different decimal forms. -/
theorem toDecimal_inj {m n : Nat} (h : toDecimal m = toDecimal n) : m = n := by
  have hd : Nat.toDigits 10 m = Nat.toDigits 10 n := by
    rw [← map_ofNat_toDecimal m, ← map_ofNat_toDecimal n, h]
  rw [← Nat.ofDigitChars_ten_toDigits (n := m), hd, Nat.ofDigitChars_ten_toDigits]

/-- A decimal form consists of digits. -/
theorem mem_toDecimal {n : Nat} {b : UInt8} (h : b ∈ toDecimal n) : 48 ≤ b.toNat ∧ b.toNat ≤ 57 := by
  obtain ⟨c, hc, rfl⟩ := List.mem_map.mp h
  have hd := digit_bounds (Nat.isDigit_of_mem_toDigits (by omega) (by omega) hc)
  rw [ofChar_toNat (by omega)]
  exact hd

/-! ## Occurrences around a separator -/

/-- A pattern without the byte `x` occurs on one side of every `x`. -/
theorem infix_append_cons {x : UInt8} {p A B : Bytes} (hx : x ∉ p) (h : p <:+: A ++ x :: B) :
    p <:+: A ∨ p <:+: B := by
  obtain ⟨s, t, hst⟩ := h
  rw [List.append_assoc] at hst
  rcases List.append_eq_append_iff.mp hst with ⟨u, hA, hrest⟩ | ⟨u, hs, hB⟩
  · rcases List.append_eq_append_iff.mp hrest with ⟨v, hu, _⟩ | ⟨v, hp, ht⟩
    · exact Or.inl ⟨s, v, by rw [hA, hu, List.append_assoc]⟩
    · -- the separator would lie inside the pattern unless it starts right after it
      cases v with
      | nil => exact Or.inl ⟨s, [], by rw [hA, hp]; simp⟩
      | cons y v =>
          obtain ⟨rfl, -⟩ := List.cons_eq_cons.mp ht
          exact absurd (hp ▸ by simp) hx
  · cases u with
    | nil =>
        cases p with
        | nil => exact Or.inl List.nil_infix
        | cons y p =>
            obtain ⟨rfl, -⟩ := List.cons_eq_cons.mp hB
            exact absurd List.mem_cons_self hx
    | cons y u =>
        obtain ⟨-, hB⟩ := List.cons_eq_cons.mp hB
        exact Or.inr ⟨u, t, by rw [hB]; simp⟩

example : toDecimal 120 = ascii "120" := by decide

end Bytes
