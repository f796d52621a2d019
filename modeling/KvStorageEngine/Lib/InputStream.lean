import KvStorageEngine.Lib.Bytes

/-!
# `Lib.InputStream` — reading a binary file

A `std::ifstream` on a file that does not change: the position, and whether the stream is good. `read` fills a
buffer. When the file ends first, it overwrites only as much of the buffer as there is to read, and the
stream is no longer good; from then on `read` does nothing, `seekg` does not move and `tellg` has no
position.

Most proofs say only what is left to read, in a good stream: `At s bytes`. A `read` either takes its bytes off
the front (`At.read`) or takes all and fails (`At.read_short`).
-/

/-- A binary file opened for reading. -/
structure InputStream where
  contents : Bytes
  pos : Nat
  good : Bool
  deriving DecidableEq, Repr

namespace InputStream

/-- A freshly opened file. -/
def ofFile (contents : Bytes) : InputStream := ⟨contents, 0, true⟩

/-- What is left to read. -/
def rest (s : InputStream) : Bytes := s.contents.drop s.pos

/-- `read` into a buffer: the buffer afterwards, and the stream. -/
def read (s : InputStream) (buf : Bytes) : Bytes × InputStream :=
  if s.good then
    (s.rest.take buf.length ++ buf.drop s.rest.length,
      { s with pos := s.pos + min buf.length s.rest.length, good := buf.length ≤ s.rest.length })
  else (buf, s)

/-- `read` of `n` bytes into a variable without a value: it has none afterwards unless they were all there. -/
def readExactly (s : InputStream) (n : Nat) : Option (Bytes × InputStream) :=
  let (bytes, s) := s.read (Bytes.zeros n)
  if s.good then some (bytes, s) else none

/-- `seekg` to an absolute position. -/
def seekg (s : InputStream) (pos : Nat) : InputStream := if s.good then { s with pos } else s

/-- `tellg`, `none` for -1. -/
def tellg (s : InputStream) : Option Nat := if s.good then some s.pos else none

/-- A good stream knows where it is. -/
theorem tellg_all {s : InputStream} (h : s.good = true) (p : Nat → Bool) : s.tellg.all p = p s.pos := by
  unfold tellg
  rw [if_pos h]
  rfl

/-- The stream is good and has `bytes` left. -/
def At (s : InputStream) (bytes : Bytes) : Prop := s.good = true ∧ s.rest = bytes

theorem at_ofFile (contents : Bytes) : (ofFile contents).At contents := ⟨rfl, rfl⟩

variable {s : InputStream} {a b : Bytes}

/-- The stream `n` bytes further on. -/
def skip (s : InputStream) (n : Nat) : InputStream := { s with pos := s.pos + n }

@[simp] theorem skip_zero (s : InputStream) : s.skip 0 = s := rfl

theorem skip_skip (s : InputStream) (m n : Nat) : (s.skip m).skip n = s.skip (m + n) := by
  unfold skip
  rw [Nat.add_assoc]

theorem At.skip (h : s.At (a ++ b)) : (s.skip a.length).At b := by
  refine ⟨h.1, ?_⟩
  show s.contents.drop (s.pos + a.length) = b
  rw [← List.drop_drop]
  show s.rest.drop a.length = b
  rw [h.2, List.drop_left]

/-- Seeking behind a part of the file. -/
theorem at_seekg (hgood : s.good = true) (hcontents : s.contents = a ++ b) : (s.seekg a.length).At b := by
  unfold seekg
  rw [if_pos hgood]
  refine ⟨hgood, ?_⟩
  show s.contents.drop a.length = b
  rw [hcontents, List.drop_left]

/-- A read that finds enough takes it off the front. -/
theorem At.read (h : s.At (a ++ b)) {buf : Bytes} (hlen : buf.length = a.length) :
    s.read buf = (a, s.skip a.length) := by
  obtain ⟨hgood, hrest⟩ := h
  have hle : buf.length ≤ s.rest.length := by
    rw [hrest, List.length_append]
    omega
  unfold InputStream.read
  rw [if_pos hgood, List.drop_eq_nil_of_le hle, List.append_nil, Nat.min_eq_left hle, decide_eq_true hle,
    hrest, hlen, List.take_left, ← hgood]
  rfl

theorem At.readExactly {n : Nat} (h : s.At (a ++ b)) (hn : a.length = n) :
    s.readExactly n = some (a, s.skip n) := by
  unfold InputStream.readExactly
  rw [h.read ((Bytes.length_zeros n).trans hn.symm), hn]
  exact if_pos h.1

/-- A read that finds too little takes it all and fails. -/
theorem At.read_short (h : s.At a) {buf : Bytes} (hlen : a.length < buf.length) :
    ∃ s', s.read buf = (a ++ buf.drop a.length, s') ∧ s'.good = false := by
  obtain ⟨hgood, hrest⟩ := h
  refine ⟨{ s with pos := s.pos + min buf.length s.rest.length, good := buf.length ≤ s.rest.length },
    ?_, ?_⟩
  · unfold InputStream.read
    rw [if_pos hgood, hrest, List.take_of_length_le hlen.le]
  · show decide (buf.length ≤ s.rest.length) = false
    rw [hrest, decide_eq_false_iff_not]
    omega

/-- A failed stream leaves the buffer as it is. -/
theorem read_of_failed (h : s.good = false) (buf : Bytes) : s.read buf = (buf, s) := by
  unfold InputStream.read
  rw [if_neg (by rw [h]; decide)]

/-- A buffer keeps its length. -/
theorem length_read (s : InputStream) (buf : Bytes) : (s.read buf).1.length = buf.length := by
  unfold InputStream.read
  split_ifs
  · rw [List.length_append, List.length_take, List.length_drop]
    omega
  · rfl

/-! ## Reads one after the other -/

/-- What reading has come to, on a stream that had `whole` left: `out` was taken off the front, or there was less
    than `out` and the stream is good no more. -/
def Took (whole out : Bytes) (s : InputStream) : Prop :=
  (∃ left, whole = out ++ left ∧ s.At left) ∨ (whole.length < out.length ∧ s.good = false)

variable {whole out : Bytes}

theorem At.took (h : s.At whole) : Took whole [] s := Or.inl ⟨whole, rfl, h⟩

theorem Took.read (h : Took whole out s) (buf : Bytes) :
    Took whole (out ++ (s.read buf).1) (s.read buf).2 := by
  rcases h with ⟨left, hwhole, hat⟩ | ⟨hlt, hfailed⟩
  · by_cases hlen : buf.length ≤ left.length
    · have hsplit : s.At (left.take buf.length ++ left.drop buf.length) := by rwa [List.take_append_drop]
      have htake : buf.length = (left.take buf.length).length := by
        rw [List.length_take]
        omega
      rw [hsplit.read htake]
      refine Or.inl ⟨left.drop buf.length, ?_, hsplit.skip⟩
      rw [List.append_assoc, List.take_append_drop, hwhole]
    · obtain ⟨s', hread, hs'⟩ := hat.read_short (Nat.lt_of_not_le hlen)
      have hlength := length_read s buf
      refine Or.inr ⟨?_, ?_⟩
      · rw [hwhole, List.length_append, List.length_append]
        omega
      · rw [hread]
        exact hs'
  · rw [read_of_failed hfailed]
    refine Or.inr ⟨?_, hfailed⟩
    rw [List.length_append]
    omega

/-- A stream that is still good has everything that was read behind it. -/
theorem Took.at (h : Took whole out s) (hgood : s.good = true) : ∃ left, whole = out ++ left ∧ s.At left := by
  rcases h with h | ⟨-, hfailed⟩
  · exact h
  · rw [hfailed] at hgood
    exact absurd hgood (by decide)

end InputStream
