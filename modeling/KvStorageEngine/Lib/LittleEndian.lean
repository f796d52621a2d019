import KvStorageEngine.Lib.Bytes

/-!
# `Lib.LittleEndian` — numbers in memory

The bytes of an unsigned integer of a given width, least significant first, and the number that given bytes
stand for. `encode` drops what does not fit, as a conversion to a narrower type does. The two undo each other
(`decode_encode`, `encode_decode`), so reading the bytes of a variable back gives its value, and bytes that
are read into a variable are determined by it.
-/

namespace LittleEndian

/-- The `w` bytes of `n`. -/
def encode : Nat → Nat → Bytes
  | 0, _ => []
  | w + 1, n => UInt8.ofNat (n % 256) :: encode w (n / 256)

/-- The number some bytes stand for. -/
def decode : Bytes → Nat
  | [] => 0
  | b :: bytes => b.toNat + 256 * decode bytes

@[simp] theorem length_encode (w n : Nat) : (encode w n).length = w := by
  induction w generalizing n with
  | zero => rfl
  | succ w ih => rw [encode, List.length_cons, ih]

theorem decode_encode {w n : Nat} (h : n < 256 ^ w) : decode (encode w n) = n := by
  induction w generalizing n with
  | zero =>
      have hn : n = 0 := by simpa using h
      rw [hn]
      rfl
  | succ w ih =>
      have hdiv : n / 256 < 256 ^ w := by
        apply Nat.div_lt_of_lt_mul
        rwa [Nat.pow_succ, Nat.mul_comm] at h
      have hbyte : (UInt8.ofNat (n % 256)).toNat = n % 256 :=
        UInt8.toNat_ofNat_of_lt' (Nat.mod_lt n (by decide))
      rw [encode, decode, ih hdiv, hbyte]
      omega

theorem encode_decode (bytes : Bytes) : encode bytes.length (decode bytes) = bytes := by
  induction bytes with
  | nil => rfl
  | cons b bytes ih =>
      have hb : b.toNat < 256 := b.toNat_lt
      have hmod : (b.toNat + 256 * decode bytes) % 256 = b.toNat := by omega
      have hdiv : (b.toNat + 256 * decode bytes) / 256 = decode bytes := by omega
      rw [List.length_cons, decode, encode, hmod, hdiv, ih, UInt8.ofNat_toNat]

theorem decode_lt (bytes : Bytes) : decode bytes < 256 ^ bytes.length := by
  induction bytes with
  | nil => exact Nat.one_pos
  | cons b bytes ih =>
      have hb : b.toNat < 256 := b.toNat_lt
      rw [decode, List.length_cons, Nat.pow_succ]
      omega

/-- Numbers that fit are told apart by their bytes. -/
theorem encode_inj {w m n : Nat} (hm : m < 256 ^ w) (hn : n < 256 ^ w) (h : encode w m = encode w n) :
    m = n := by
  rw [← decode_encode hm, h, decode_encode hn]

/-! ## Most significant byte first -/

/-- The first difference decides, whatever follows. -/
theorem append_lt_append {a b : Bytes} (c d : Bytes) (hlen : a.length = b.length) (h : a < b) :
    a ++ c < b ++ d := by
  induction a generalizing b with
  | nil =>
      cases b with
      | nil => exact absurd h (lt_irrefl _)
      | cons y b => exact absurd hlen (by simp)
  | cons x a ih =>
      cases b with
      | nil => exact absurd hlen (by simp)
      | cons y b =>
          rw [List.cons_append, List.cons_append, List.cons_lt_cons_iff]
          rcases List.cons_lt_cons_iff.mp h with hlt | ⟨rfl, hlt⟩
          · exact Or.inl hlt
          · exact Or.inr ⟨rfl, ih (Nat.succ.inj hlen) hlt⟩

/-- Numbers written with the most significant byte first are in order. -/
theorem reverse_encode_lt {w m n : Nat} (hmn : m < n) (hn : n < 256 ^ w) :
    (encode w m).reverse < (encode w n).reverse := by
  induction w generalizing m n with
  | zero =>
      rw [Nat.pow_zero] at hn
      omega
  | succ w ih =>
      rw [encode, encode, List.reverse_cons, List.reverse_cons]
      rcases Nat.lt_or_eq_of_le (Nat.div_le_div_right (c := 256) hmn.le) with hlt | heq
      · have hdiv : n / 256 < 256 ^ w := by
          apply Nat.div_lt_of_lt_mul
          rwa [Nat.pow_succ, Nat.mul_comm] at hn
        exact append_lt_append _ _ (by simp) (ih hlt hdiv)
      · -- the two differ in the last byte only
        have hmod : m % 256 < n % 256 := by omega
        rw [heq]
        apply List.append_left_lt
        rw [List.cons_lt_cons_iff]
        left
        rw [UInt8.lt_iff_toNat_lt, UInt8.toNat_ofNat_of_lt' (Nat.mod_lt m (by decide)),
          UInt8.toNat_ofNat_of_lt' (Nat.mod_lt n (by decide))]
        exact hmod

example : encode 4 258 = [2, 1, 0, 0] := by decide

end LittleEndian
