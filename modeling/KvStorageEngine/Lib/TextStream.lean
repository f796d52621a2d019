import KvStorageEngine.Lib.Bytes

/-!
# `Lib.TextStream` — reading text back

What `std::getline` and formatted extraction do to a byte string. A line ends at a newline or with the
text; extraction skips white space and takes digits, or everything up to the next white space. A failed
extraction is `none`. Extracted numbers are read without a sign and without a range check; the conversions
`stoull` and `stoi` have both.

Written text comes back: `getLines_cons` for lines, `readNat_toDecimal` for numbers, and `readWord_append`
for words, that is for strings that are not empty and contain no white space (`IsWord`).
-/

namespace TextStream

/-- `std::isspace`. -/
def isSpace (b : UInt8) : Bool := b = 32 || (9 ≤ b && b ≤ 13)

def isDigit (b : UInt8) : Bool := 48 ≤ b && b ≤ 57

/-- The lines of a text. -/
def getLines : Bytes → List Bytes
  | [] => []
  | b :: rest =>
    if b = 10 then [] :: getLines rest
    else match getLines rest with
      | [] => [[b]]
      | line :: lines => (b :: line) :: lines

/-- The number a string of digits stands for. -/
def ofDecimal (digits : Bytes) : Nat := Nat.ofDigitChars 10 (digits.map fun b => Char.ofNat b.toNat) 0

/-- Extraction of an unsigned number. -/
def readNat (s : Bytes) : Option (Nat × Bytes) :=
  let s := s.dropWhile isSpace
  if s.takeWhile isDigit = [] then none
  else some (ofDecimal (s.takeWhile isDigit), s.dropWhile isDigit)

/-- Extraction of a string. -/
def readWord (s : Bytes) : Option (Bytes × Bytes) :=
  let s := s.dropWhile isSpace
  if s.takeWhile (!isSpace ·) = [] then none
  else some (s.takeWhile (!isSpace ·), s.dropWhile (!isSpace ·))

/-- A sign in front of a number: whether it is a minus. -/
def readSign : Bytes → Bool × Bytes
  | 45 :: s => (true, s)
  | 43 :: s => (false, s)
  | s => (false, s)

/-- The number at the front of a string, as sign and magnitude; what follows the digits is ignored. -/
def readMagnitude (s : Bytes) : Option (Bool × Nat) :=
  let (negative, s) := readSign (s.dropWhile isSpace)
  let digits := s.takeWhile isDigit
  if digits = [] then none else some (negative, ofDecimal digits)

/-- `std::stoull`; a number with a minus wraps around. -/
def stoull (s : Bytes) : Option Nat := do
  let (negative, n) ← readMagnitude s
  if n < 2 ^ 64 then some (if negative then (2 ^ 64 - n) % 2 ^ 64 else n) else none

/-- `std::stoi`. -/
def stoi (s : Bytes) : Option Int := do
  let (negative, n) ← readMagnitude s
  let i : Int := if negative then -(n : Int) else n
  if -2147483648 ≤ i ∧ i ≤ 2147483647 then some i else none

/-- A string that extraction takes as a whole. -/
def IsWord (s : Bytes) : Prop := s ≠ [] ∧ ∀ b ∈ s, isSpace b = false

instance (s : Bytes) : Decidable (IsWord s) := inferInstanceAs (Decidable (_ ∧ _))

/-! ## Lines -/

theorem getLines_cons {line : Bytes} (h : (10 : UInt8) ∉ line) (rest : Bytes) :
    getLines (line ++ 10 :: rest) = line :: getLines rest := by
  induction line with
  | nil => rw [List.nil_append, getLines, if_pos rfl]
  | cons b line ih =>
      obtain ⟨hb, hline⟩ := List.ne_and_not_mem_of_not_mem_cons h
      rw [List.cons_append, getLines, if_neg (Ne.symm hb), ih hline]

/-- A text without a newline is one line. -/
theorem getLines_of_notMem {line : Bytes} (hne : line ≠ []) (h : (10 : UInt8) ∉ line) : getLines line = [line] := by
  induction line with
  | nil => exact absurd rfl hne
  | cons b line ih =>
      obtain ⟨hb, hline⟩ := List.ne_and_not_mem_of_not_mem_cons h
      rw [getLines, if_neg (Ne.symm hb)]
      by_cases hnil : line = []
      · rw [hnil]
        rfl
      · rw [ih hnil hline]

/-! ## Numbers and words -/

theorem readNat_space (s : Bytes) : readNat (32 :: s) = readNat s := rfl

theorem readWord_space (s : Bytes) : readWord (32 :: s) = readWord s := rfl

theorem ofDecimal_toDecimal (n : Nat) : ofDecimal (Bytes.toDecimal n) = n := by
  rw [ofDecimal, Bytes.map_ofNat_toDecimal, Nat.ofDigitChars_ten_toDigits]

theorem isDigit_of_mem_toDecimal {n : Nat} {b : UInt8} (h : b ∈ Bytes.toDecimal n) : isDigit b = true := by
  obtain ⟨hlo, hhi⟩ := Bytes.mem_toDecimal h
  simp only [isDigit, Bool.and_eq_true, decide_eq_true_eq, UInt8.le_iff_toNat_le]
  exact ⟨hlo, hhi⟩

theorem notMem_toDecimal {b : UInt8} (hb : isDigit b = false) (n : Nat) : b ∉ Bytes.toDecimal n := by
  intro h
  rw [isDigit_of_mem_toDecimal h] at hb
  exact absurd hb (by simp)

theorem newline_notMem_toDecimal (n : Nat) : (10 : UInt8) ∉ Bytes.toDecimal n := notMem_toDecimal (by decide) n

theorem isSpace_eq_false_of_isDigit {b : UInt8} (h : isDigit b = true) : isSpace b = false := by
  simp only [isDigit, isSpace, Bool.and_eq_true, decide_eq_true_eq, UInt8.le_iff_toNat_le,
    Bool.or_eq_false_iff, Bool.and_eq_false_iff, decide_eq_false_iff_not] at h ⊢
  have h32 : (32 : UInt8).toNat = 32 := rfl
  have h48 : (48 : UInt8).toNat = 48 := rfl
  have h13 : (13 : UInt8).toNat = 13 := rfl
  refine ⟨fun hb => ?_, Or.inr ?_⟩
  · rw [hb] at h
    omega
  · omega

theorem toDecimal_ne_nil (n : Nat) : Bytes.toDecimal n ≠ [] := by
  simp [Bytes.toDecimal, Nat.toDigits_ne_nil]

theorem isWord_toDecimal (n : Nat) : IsWord (Bytes.toDecimal n) :=
  ⟨toDecimal_ne_nil n, fun _ hb => isSpace_eq_false_of_isDigit (isDigit_of_mem_toDecimal hb)⟩

/-- Nothing is skipped in front of a word. -/
theorem dropWhile_isSpace_append {s : Bytes} (h : IsWord s) (rest : Bytes) :
    (s ++ rest).dropWhile isSpace = s ++ rest := by
  obtain ⟨hne, hall⟩ := h
  cases s with
  | nil => exact absurd rfl hne
  | cons b s => simp [hall b List.mem_cons_self]

/-- What follows a token: nothing, or something that does not belong to it. -/
def Ends (p : UInt8 → Bool) (rest : Bytes) : Prop := ∀ b, rest.head? = some b → p b = false

theorem takeWhile_append_of_ends {p : UInt8 → Bool} {s rest : Bytes} (h : ∀ b ∈ s, p b = true)
    (hrest : Ends p rest) : (s ++ rest).takeWhile p = s ∧ (s ++ rest).dropWhile p = rest := by
  rw [List.takeWhile_append_of_pos h, List.dropWhile_append_of_pos h]
  cases rest with
  | nil => simp
  | cons b rest => simp [hrest b rfl]

theorem readNat_toDecimal (n : Nat) {rest : Bytes} (hrest : Ends isDigit rest) :
    readNat (Bytes.toDecimal n ++ rest) = some (n, rest) := by
  obtain ⟨htake, hdrop⟩ := takeWhile_append_of_ends (fun b => isDigit_of_mem_toDecimal (n := n)) hrest
  unfold readNat
  rw [dropWhile_isSpace_append (isWord_toDecimal n)]
  dsimp only
  rw [htake, hdrop, if_neg (toDecimal_ne_nil n), ofDecimal_toDecimal]

theorem readWord_append {s : Bytes} (h : IsWord s) {rest : Bytes} (hrest : Ends (!isSpace ·) rest) :
    readWord (s ++ rest) = some (s, rest) := by
  obtain ⟨htake, hdrop⟩ := takeWhile_append_of_ends (s := s) (fun b hb => by simp [h.2 b hb]) hrest
  unfold readWord
  rw [dropWhile_isSpace_append h]
  dsimp only
  rw [htake, hdrop, if_neg h.1]

/-! ## Cut text -/

/-- A cut of a text with a separator is in front of the separator or behind it. -/
theorem prefix_append_cons {α : Type} {r w rest : List α} {x : α} (h : r <+: w ++ x :: rest) :
    r <+: w ∨ ∃ r', r' <+: rest ∧ r = w ++ x :: r' := by
  rcases List.prefix_or_prefix_of_prefix h (List.prefix_append w (x :: rest)) with h' | ⟨t, rfl⟩
  · exact Or.inl h'
  · rw [List.prefix_append_right_inj] at h
    cases t with
    | nil => exact Or.inl (by simp)
    | cons y t =>
        obtain ⟨rfl, ht⟩ := List.cons_prefix_cons.mp h
        exact Or.inr ⟨t, ht, rfl⟩

/-- A number that is cut short is a number. -/
theorem exists_toDecimal_of_prefix {n : Nat} {r : Bytes} (hne : r ≠ []) (h : r <+: Bytes.toDecimal n) :
    ∃ k, r = Bytes.toDecimal k := by
  induction n using Nat.strongRecOn with
  | ind n ih =>
      by_cases hten : n < 10
      · -- one digit
        have hdigit : Bytes.toDecimal n = [Bytes.ofChar n.digitChar] := by
          rw [Bytes.toDecimal, Nat.toDigits_of_lt_base hten]
          rfl
        rw [hdigit] at h
        refine ⟨n, hdigit ▸ h.eq_of_length_le ?_⟩
        exact List.length_pos_of_ne_nil hne
      · have hlast : Bytes.toDecimal n = Bytes.toDecimal (n / 10) ++ [Bytes.ofChar (n % 10).digitChar] := by
          rw [Bytes.toDecimal, Nat.toDigits_of_base_le (by omega) (by omega), List.map_append]
          rfl
        rw [hlast] at h
        rcases List.prefix_concat_iff.mp h with h | h
        · exact ⟨n, h.trans hlast.symm⟩
        · exact ih (n / 10) (by omega) h

/-- A number read from a cut text: the text ends with it, or it is the whole number and the cut is behind it. -/
theorem readNat_of_prefix {n k : Nat} {r rest s : Bytes} (h : r <+: Bytes.toDecimal n ++ 32 :: rest)
    (hr : readNat r = some (k, s)) :
    s = [] ∨ (k = n ∧ ∃ r', r' <+: rest ∧ r = Bytes.toDecimal n ++ 32 :: r' ∧ s = 32 :: r') := by
  rcases prefix_append_cons h with h | ⟨r', hr', rfl⟩
  · by_cases hnil : r = []
    · rw [hnil] at hr
      exact absurd hr (by simp [readNat])
    · obtain ⟨k', rfl⟩ := exists_toDecimal_of_prefix hnil h
      have hread := readNat_toDecimal k' (show Ends isDigit [] by simp [Ends])
      rw [List.append_nil, hr] at hread
      exact Or.inl (Prod.mk.inj (Option.some.inj hread)).2
  · rw [readNat_toDecimal n (by rintro b ⟨⟩; rfl)] at hr
    obtain ⟨rfl, rfl⟩ := Prod.mk.inj (Option.some.inj hr)
    exact Or.inr ⟨rfl, r', hr', rfl, rfl⟩

/-- The same for a word. -/
theorem readWord_of_prefix {w word r rest s : Bytes} (hw : IsWord w) (h : r <+: w ++ 32 :: rest)
    (hr : readWord r = some (word, s)) :
    s = [] ∨ (word = w ∧ ∃ r', r' <+: rest ∧ r = w ++ 32 :: r' ∧ s = 32 :: r') := by
  rcases prefix_append_cons h with h | ⟨r', hr', rfl⟩
  · by_cases hnil : r = []
    · rw [hnil] at hr
      exact absurd hr (by simp [readWord])
    · have hread := readWord_append ⟨hnil, fun b hb => hw.2 b (h.subset hb)⟩
        (show Ends (!isSpace ·) [] by simp [Ends])
      rw [List.append_nil, hr] at hread
      exact Or.inl (Prod.mk.inj (Option.some.inj hread)).2
  · rw [readWord_append hw (by rintro b ⟨⟩; rfl)] at hr
    obtain ⟨rfl, rfl⟩ := Prod.mk.inj (Option.some.inj hr)
    exact Or.inr ⟨rfl, r', hr', rfl, rfl⟩

/-! ## Conversions -/

theorem readSign_of_digit {s : Bytes} (h : ∀ b ∈ s, isDigit b = true) : readSign s = (false, s) := by
  unfold readSign
  split
  · exact absurd (h 45 List.mem_cons_self) (by decide)
  · exact absurd (h 43 List.mem_cons_self) (by decide)
  · rfl

theorem readMagnitude_toDecimal (n : Nat) : readMagnitude (Bytes.toDecimal n) = some (false, n) := by
  have hdigits : ∀ b ∈ Bytes.toDecimal n, isDigit b = true := fun b => isDigit_of_mem_toDecimal
  have hdrop := dropWhile_isSpace_append (isWord_toDecimal n) []
  have htake := (takeWhile_append_of_ends hdigits (show Ends isDigit [] by simp [Ends])).1
  rw [List.append_nil] at hdrop htake
  unfold readMagnitude
  rw [hdrop, readSign_of_digit hdigits]
  dsimp only
  rw [htake, if_neg (toDecimal_ne_nil n), ofDecimal_toDecimal]

theorem stoull_toDecimal {n : Nat} (h : n < 2 ^ 64) : stoull (Bytes.toDecimal n) = some n := by
  unfold stoull
  rw [readMagnitude_toDecimal]
  exact if_pos h

theorem stoi_toDecimal {n : Nat} (h : n ≤ 2147483647) : stoi (Bytes.toDecimal n) = some (n : Int) := by
  have hrange : -2147483648 ≤ (n : Int) ∧ (n : Int) ≤ 2147483647 := by omega
  unfold stoi
  simp only [readMagnitude_toDecimal, Option.bind_eq_bind, Option.bind_some, Bool.false_eq_true, if_false,
    if_pos hrange]

example : stoull (Bytes.ascii " 12|") = some 12 := by decide

end TextStream
