import KvStorageEngine.Engine.LogCodec
import KvStorageEngine.Engine.Correctness.FlushBarrier

/-!
# `Engine.Correctness.LogReplay` — the log read back

What `replay` hands on, for files of whole records, for such files cut anywhere, and for files that were cut
and then appended to.

Reading a round is determined by the bytes there and by the variables left from the round before. Either all
bytes of the record that is read were taken off the front of the file, or the file was shorter than that
record and the loop ends (`readRecord_spec`). So an accepted record other than the last is one whose bytes
stand in the file (`replayLoop_eq_iff`), and the last can be one whose missing bytes are those the buffers
held anyway.

## Layout
- A. One round
- B. The loop
- C. Whole files and cut files (`replay_take`)
- D. A file that is appended to after a torn record (`replay_torn_iff`)
- E. The log of a data directory
-/

namespace KvStorageEngine

open LittleEndian InputStream

/-! ## A. One round

A round reads the checksum and then six fields, the last two as long as the two before them say. `readRecord_whole` is
the round over a whole record, `readRecord_spec` the round over anything: the stream is still good exactly if there
were enough bytes. -/

/-- Lengths that a header can hold. -/
def WalRecord.Fits (r : WalRecord) : Prop := r.key.length < 2 ^ 32 ∧ r.value.length < 2 ^ 32

instance (r : WalRecord) : Decidable r.Fits := inferInstanceAs (Decidable (_ ∧ _))

namespace ReplayVars

/-- Every variable has the width of its type. -/
structure Sized (v : ReplayVars) : Prop where
  checksum : v.checksum.length = 4
  seqNumber : v.seqNumber.length = 8
  opByte : v.opByte.length = 1
  keyLen : v.keyLen.length = 4
  valueLen : v.valueLen.length = 4

/-- The variables after a record, with the checksum that stood in front of it. -/
def holding (checksum : Bytes) (r : WalRecord) : ReplayVars where
  checksum := checksum
  seqNumber := encode 8 r.seqNumber.toNat
  opByte := [r.op]
  keyLen := encode 4 r.key.length
  valueLen := encode 4 r.value.length

theorem sized_holding {checksum : Bytes} (h : checksum.length = 4) (r : WalRecord) :
    (holding checksum r).Sized :=
  ⟨h, length_encode _ _, rfl, length_encode _ _, length_encode _ _⟩

end ReplayVars

theorem WalRecord.body_eq {r : WalRecord} (h : r.Fits) : r.body = encode 8 r.seqNumber.toNat ++ ([r.op] ++
    (encode 4 r.key.length ++ (encode 4 r.value.length ++ (r.key ++ r.value)))) := by
  unfold body keyLen valueLen
  rw [Nat.mod_eq_of_lt h.1, Nat.mod_eq_of_lt h.2, List.take_length, List.take_length]
  simp only [List.append_assoc]

namespace WriteAheadLog

variable {v : ReplayVars} {s : InputStream} {r : WalRecord} {rest w : Bytes}

theorem sized_replayVars : replayVars.Sized := ⟨rfl, rfl, rfl, rfl, rfl⟩

/-- A record that is there is read. -/
theorem readRecord_whole (hv : v.Sized) (hr : r.Fits) (h : s.At (r.body ++ rest)) :
    readRecord v s = (r, ReplayVars.holding v.checksum r, s.skip r.body.length) := by
  have hkey : decode (encode 4 r.key.length) = r.key.length := decode_encode hr.1
  have hvalue : decode (encode 4 r.value.length) = r.value.length := decode_encode hr.2
  have hseq : UInt64.ofNat (decode (encode 8 r.seqNumber.toNat)) = r.seqNumber := by
    rw [decode_encode r.seqNumber.toNat_lt, UInt64.ofNat_toNat]
  have hop : UInt8.ofNat (decode [r.op]) = r.op := by
    rw [decode, decode, Nat.mul_zero, Nat.add_zero, UInt8.ofNat_toNat]
  rw [WalRecord.body_eq hr] at h ⊢
  simp only [List.append_assoc] at h
  have h1 := h.read (hv.seqNumber.trans (length_encode 8 _).symm)
  have h2 := h.skip.read (hv.opByte.trans (List.length_singleton (a := r.op)).symm)
  have h3 := h.skip.skip.read (hv.keyLen.trans (length_encode 4 _).symm)
  have h4 := h.skip.skip.skip.read (hv.valueLen.trans (length_encode 4 _).symm)
  have h5 := h.skip.skip.skip.skip.read (Bytes.length_zeros r.key.length)
  have h6 := h.skip.skip.skip.skip.skip.read (Bytes.length_zeros r.value.length)
  unfold readRecord
  simp only [h1, h2, h3, hkey, h4, hvalue, h5, h6, hseq, hop]
  simp only [InputStream.skip_skip, List.length_append, ReplayVars.holding, Nat.add_assoc]

/-- A field as its variable keeps it. -/
theorem encode_decode_width {n : Nat} {bytes : Bytes} (h : bytes.length = n) :
    encode n (decode bytes) = bytes := by
  rw [← h, encode_decode]

/-- **One round, whatever the bytes are.** The variables hold the fields of the record that was read, and the
    record was taken off the front, or there was less than that. -/
theorem readRecord_spec (hv : v.Sized) (h : s.At w) : (readRecord v s).1.Fits ∧
    (readRecord v s).2.1 = ReplayVars.holding v.checksum (readRecord v s).1 ∧
      Took w (readRecord v s).1.body (readRecord v s).2.2 := by
  obtain ⟨seqNumber, s₁, h₁⟩ : ∃ x t, s.read v.seqNumber = (x, t) := ⟨_, _, rfl⟩
  obtain ⟨opByte, s₂, h₂⟩ : ∃ x t, s₁.read v.opByte = (x, t) := ⟨_, _, rfl⟩
  obtain ⟨keyLen, s₃, h₃⟩ : ∃ x t, s₂.read v.keyLen = (x, t) := ⟨_, _, rfl⟩
  obtain ⟨valueLen, s₄, h₄⟩ : ∃ x t, s₃.read v.valueLen = (x, t) := ⟨_, _, rfl⟩
  obtain ⟨key, s₅, h₅⟩ : ∃ x t, s₄.read (Bytes.zeros (decode keyLen)) = (x, t) := ⟨_, _, rfl⟩
  obtain ⟨value, s₆, h₆⟩ : ∃ x t, s₅.read (Bytes.zeros (decode valueLen)) = (x, t) := ⟨_, _, rfl⟩
  have hread : readRecord v s = (⟨UInt8.ofNat (decode opByte), key, value, UInt64.ofNat (decode seqNumber)⟩,
      { v with seqNumber, opByte, keyLen, valueLen }, s₆) := by
    unfold readRecord
    simp only [h₁, h₂, h₃, h₄, h₅, h₆]
  have hlen : ∀ {t t' : InputStream} {buf x : Bytes} {n : Nat}, t.read buf = (x, t') → buf.length = n →
      x.length = n := by
    intro t t' buf x n hread hn
    rw [← hn, ← length_read t buf, hread]
  have l₁ := hlen h₁ hv.seqNumber
  have l₂ := hlen h₂ hv.opByte
  have l₃ := hlen h₃ hv.keyLen
  have l₄ := hlen h₄ hv.valueLen
  have l₅ := hlen h₅ (Bytes.length_zeros _)
  have l₆ := hlen h₆ (Bytes.length_zeros _)
  have hfits : (⟨UInt8.ofNat (decode opByte), key, value, UInt64.ofNat (decode seqNumber)⟩ : WalRecord).Fits := by
    have hk := decode_lt keyLen
    have hvl := decode_lt valueLen
    rw [l₃] at hk
    rw [l₄] at hvl
    exact ⟨l₅ ▸ hk, l₆ ▸ hvl⟩
  have e₁ : encode 8 (UInt64.ofNat (decode seqNumber)).toNat = seqNumber := by
    have hlt := decode_lt seqNumber
    rw [l₁] at hlt
    rw [UInt64.toNat_ofNat_of_lt' hlt, encode_decode_width l₁]
  have e₂ : [UInt8.ofNat (decode opByte)] = opByte := by
    obtain ⟨b, rfl⟩ := List.length_eq_one_iff.mp l₂
    rw [decode, decode, Nat.mul_zero, Nat.add_zero, UInt8.ofNat_toNat]
  have e₃ : encode 4 key.length = keyLen := by rw [l₅, encode_decode_width l₃]
  have e₄ : encode 4 value.length = valueLen := by rw [l₆, encode_decode_width l₄]
  have htook := (((((h.took.read v.seqNumber).read v.opByte).read v.keyLen).read v.valueLen).read
    (Bytes.zeros (decode keyLen))).read (Bytes.zeros (decode valueLen))
  simp only [h₁, h₂, h₃, h₄, h₅, h₆, List.nil_append, List.append_assoc] at htook
  rw [hread]
  refine ⟨hfits, ?_, ?_⟩
  · simp only [ReplayVars.holding, e₁, e₂, e₃, e₄]
  · rw [WalRecord.body_eq hfits]
    simp only [e₁, e₂, e₃, e₄]
    exact htook

/-! ## B. The loop

The variables of the loop are declared outside of it, so a read that fails leaves what the round before read
(`varsAfter`). `Intact` says that a round passes its check. -/

section Loop

variable [Zlib]

/-- The variables after whole records. -/
def varsAfter (v : ReplayVars) (rs : List WalRecord) : ReplayVars :=
  rs.foldl (fun _ r => ReplayVars.holding (encode 4 r.calculateChecksum.toNat) r) v

theorem sized_varsAfter (hv : v.Sized) (rs : List WalRecord) : (varsAfter v rs).Sized := by
  induction rs generalizing v with
  | nil => exact hv
  | cons r rs ih => exact ih (ReplayVars.sized_holding (length_encode _ _) r)

/-- The reads of a round, that of the checksum included. -/
def readRound (v : ReplayVars) (s : InputStream) : WalRecord × ReplayVars × InputStream :=
  readRecord { v with checksum := (s.read v.checksum).1 } (s.read v.checksum).2

/-- The round accepts what it reads: there are four more bytes, and the checksum in them is that of the record
    which is read after them. -/
def Intact (v : ReplayVars) (s : InputStream) : Prop :=
  (s.read v.checksum).2.good = true ∧
    (readRound v s).1.calculateChecksum.toNat = decode (s.read v.checksum).1

instance (v : ReplayVars) (s : InputStream) : Decidable (Intact v s) := inferInstanceAs (Decidable (_ ∧ _))

/-- One turn of the loop. -/
theorem replayLoop_succ (fuel : Nat) (v : ReplayVars) (s : InputStream) : replayLoop (fuel + 1) v s =
    if Intact v s then (readRound v s).1 :: replayLoop fuel (readRound v s).2.1 (readRound v s).2.2
    else [] := by
  rw [replayLoop]
  by_cases hgood : (s.read v.checksum).2.good = true
  · by_cases hsum : (readRound v s).1.calculateChecksum.toNat = decode (s.read v.checksum).1
    · rw [if_pos (show Intact v s from ⟨hgood, hsum⟩)]
      show (if (s.read v.checksum).2.good = true then _ else _) = _
      rw [if_pos hgood]
      exact if_pos hsum
    · rw [if_neg (show ¬ Intact v s from fun h => hsum h.2)]
      show (if (s.read v.checksum).2.good = true then _ else _) = _
      rw [if_pos hgood]
      exact if_neg hsum
  · rw [if_neg (show ¬ Intact v s from fun h => hgood h.1)]
    exact if_neg hgood

/-- The loop hands nothing on exactly if its first round does not pass. -/
theorem replayLoop_eq_nil_iff (fuel : Nat) : replayLoop (fuel + 1) v s = [] ↔ ¬ Intact v s := by
  rw [replayLoop_succ]
  split_ifs with hintact <;> simp [hintact]

/-- Behind a failed read nothing more is handed on. -/
theorem replayLoop_of_failed (h : s.good = false) (fuel : Nat) (v : ReplayVars) :
    replayLoop fuel v s = [] := by
  cases fuel with
  | zero => rfl
  | succ fuel =>
      rw [replayLoop_eq_nil_iff]
      intro hintact
      have hgood := hintact.1
      rw [read_of_failed h, h] at hgood
      exact absurd hgood (by decide)

theorem encodeLog_cons (r : WalRecord) (rs : List WalRecord) :
    encodeLog (r :: rs) = r.bytes ++ encodeLog rs := List.flatMap_cons

theorem encodeLog_append (rs ss : List WalRecord) :
    encodeLog (rs ++ ss) = encodeLog rs ++ encodeLog ss := List.flatMap_append

theorem length_le_encodeLog (rs : List WalRecord) : rs.length ≤ (encodeLog rs).length := by
  induction rs with
  | nil => exact Nat.zero_le _
  | cons r rs ih =>
      have hr := r.length_bytes_pos
      rw [encodeLog_cons, List.length_append, List.length_cons]
      omega

theorem decode_checksum (r : WalRecord) :
    decode (encode 4 r.calculateChecksum.toNat) = r.calculateChecksum.toNat :=
  decode_encode r.calculateChecksum.toNat_lt

/-- A record that is there is accepted. -/
theorem replayLoop_whole (hv : v.Sized) (hr : r.Fits) (h : s.At (r.bytes ++ rest)) (fuel : Nat) :
    replayLoop (fuel + 1) v s = r :: replayLoop fuel (varsAfter v [r]) (s.skip r.bytes.length) := by
  unfold WalRecord.bytes at h
  rw [List.append_assoc] at h
  have hsum := h.read (hv.checksum.trans (length_encode 4 _).symm)
  have hsized : ({ v with checksum := encode 4 r.calculateChecksum.toNat } : ReplayVars).Sized :=
    ⟨length_encode _ _, hv.seqNumber, hv.opByte, hv.keyLen, hv.valueLen⟩
  have hround : readRound v s = (r, varsAfter v [r], s.skip r.bytes.length) := by
    unfold readRound
    rw [hsum, readRecord_whole hsized hr h.skip, InputStream.skip_skip, WalRecord.bytes, List.length_append]
    rfl
  have hintact : Intact v s := by
    refine ⟨?_, ?_⟩
    · rw [hsum]
      exact h.1
    · rw [hround, hsum]
      exact (decode_checksum r).symm
  rw [replayLoop_succ, if_pos hintact, hround]

/-- Whole records are accepted one after the other. -/
theorem replayLoop_append (hv : v.Sized) {rs : List WalRecord} (hrs : ∀ r ∈ rs, r.Fits)
    (h : s.At (encodeLog rs ++ rest)) (fuel : Nat) : replayLoop (rs.length + fuel) v s =
      rs ++ replayLoop fuel (varsAfter v rs) (s.skip (encodeLog rs).length) := by
  induction rs generalizing v s with
  | nil => rw [List.length_nil, Nat.zero_add]; rfl
  | cons r rs ih =>
      obtain ⟨hr, hrs⟩ := List.forall_mem_cons.mp hrs
      rw [encodeLog_cons, List.append_assoc] at h
      rw [List.length_cons, Nat.add_right_comm, replayLoop_whole hv hr h,
        ih (sized_varsAfter hv [r]) hrs h.skip, InputStream.skip_skip, encodeLog_cons, List.length_append]
      rfl

/-- **What an accepted record was read from**: its own bytes, or fewer, and then the stream has failed. -/
theorem Intact.cases (hintact : Intact v s) (hv : v.Sized) (h : s.At w) :
    (readRound v s).1.Fits ∧
      ((∃ left, w = (readRound v s).1.bytes ++ left) ∨
        (w.length < (readRound v s).1.bytes.length ∧ (readRound v s).2.2.good = false)) := by
  obtain ⟨hgood, hsum⟩ := hintact
  have hlen : (s.read v.checksum).1.length = 4 := by rw [length_read, hv.checksum]
  obtain ⟨left, hw, hat⟩ := (h.took.read v.checksum).at hgood
  rw [List.nil_append] at hw
  have hsized : ({ v with checksum := (s.read v.checksum).1 } : ReplayVars).Sized :=
    ⟨hlen, hv.seqNumber, hv.opByte, hv.keyLen, hv.valueLen⟩
  obtain ⟨hfits, -, htook⟩ := readRecord_spec hsized hat
  have hbytes : (readRound v s).1.bytes = (s.read v.checksum).1 ++ (readRound v s).1.body := by
    rw [WalRecord.bytes, hsum, encode_decode_width hlen]
  refine ⟨hfits, ?_⟩
  rcases htook with ⟨left', hleft, -⟩ | ⟨hlt, hfailed⟩
  · left
    refine ⟨left', ?_⟩
    rw [hbytes, List.append_assoc, hw, hleft]
    rfl
  · right
    refine ⟨?_, hfailed⟩
    rw [hbytes, hw, List.length_append, List.length_append]
    exact Nat.add_lt_add_left hlt _

/-- **When the loop yields a given list** that has no more bytes than are there: the list's encoding stands in
    front, and what comes after it is not accepted. -/
theorem replayLoop_eq_iff (hv : v.Sized) {rs : List WalRecord} (hrs : ∀ r ∈ rs, r.Fits) (h : s.At w)
    (hlen : (encodeLog rs).length ≤ w.length) (fuel : Nat) :
    replayLoop (rs.length + (fuel + 1)) v s = rs ↔
      encodeLog rs <+: w ∧ ¬ Intact (varsAfter v rs) (s.skip (encodeLog rs).length) := by
  induction rs generalizing v s w with
  | nil =>
      rw [List.length_nil, Nat.zero_add, replayLoop_eq_nil_iff]
      exact ⟨fun hnot => ⟨List.nil_prefix, hnot⟩, fun hnot => hnot.2⟩
  | cons r rs ih =>
      obtain ⟨hr, hrs⟩ := List.forall_mem_cons.mp hrs
      have hfuel : (r :: rs).length + (fuel + 1) = (rs.length + (fuel + 1)) + 1 := by
        rw [List.length_cons]
        omega
      rw [encodeLog_cons, List.length_append] at hlen
      rw [encodeLog_cons, hfuel]
      -- once the record stands in front, both sides speak of what comes after it
      have hstep : ∀ left, w = r.bytes ++ left →
          (replayLoop (rs.length + (fuel + 1) + 1) v s = r :: rs ↔ r.bytes ++ encodeLog rs <+: w ∧
            ¬ Intact (varsAfter v (r :: rs)) (s.skip (r.bytes ++ encodeLog rs).length)) := by
        intro left hleft
        rw [hleft] at h hlen
        rw [List.length_append] at hlen
        rw [replayLoop_whole hv hr h, hleft, List.prefix_append_right_inj, List.length_append,
          ← InputStream.skip_skip, List.cons_eq_cons,
          ih (sized_varsAfter hv [r]) hrs h.skip (by omega)]
        exact ⟨fun hall => hall.2, fun hall => ⟨rfl, hall⟩⟩
      constructor
      · intro hloop
        have hstart := hloop
        rw [replayLoop_succ] at hstart
        split_ifs at hstart with hintact
        obtain ⟨hread, -⟩ := List.cons_eq_cons.mp hstart
        obtain ⟨-, ⟨left, hleft⟩ | ⟨hlt, -⟩⟩ := hintact.cases hv h
        · exact (hstep left (hread ▸ hleft)).mp hloop
        · rw [hread] at hlt
          omega
      · intro hall
        obtain ⟨tail, htail⟩ := hall.1
        exact (hstep (encodeLog rs ++ tail) (by rw [← htail, List.append_assoc])).mpr hall

end Loop

/-! ## C. Whole files and cut files

Where the file is cut inside a record, the missing bytes of that record are those left in the variables. The checksum
of the mixture is compared with that of the record, and only a collision lets it pass. -/

section Files

variable [Zlib] {rs : List WalRecord}

/-- Whole records at the front of a file are applied, and the loop goes on behind them. -/
theorem replay_append (hrs : ∀ r ∈ rs, r.Fits) (w : Bytes) : replay (encodeLog rs ++ w) =
    rs ++ replayLoop ((encodeLog rs).length - rs.length + w.length + 1) (varsAfter replayVars rs)
      ((ofFile (encodeLog rs ++ w)).skip (encodeLog rs).length) := by
  have hle := length_le_encodeLog rs
  have hfuel : (encodeLog rs ++ w).length + 1
      = rs.length + ((encodeLog rs).length - rs.length + w.length + 1) := by
    rw [List.length_append]
    omega
  unfold replay
  rw [hfuel]
  exact replayLoop_append sized_replayVars hrs (at_ofFile _) _

/-- The record that is read after the checksum of `r`. -/
def readBehind (v : ReplayVars) (s : InputStream) (r : WalRecord) : WalRecord :=
  (readRecord { v with checksum := encode 4 r.calculateChecksum.toNat } (s.skip 4)).1

/-- The record that `replay` reads in place of `r`, the one after `pre`, when the file is cut inside it: what is
    there of it, and for the rest what the buffers held. -/
def tornRecord (rs pre : List WalRecord) (r : WalRecord) (cut : Nat) : WalRecord :=
  readBehind (varsAfter replayVars pre) ((ofFile ((encodeLog rs).take cut)).skip (encodeLog pre).length) r

/-- The one comparison `replay` makes with a checksum that is not of the record read: that of the record which
    is cut. The two have different checksums unless they are the same. -/
def NoCollision (rs : List WalRecord) (cut : Nat) : Prop :=
  ∀ pre r post, rs = pre ++ r :: post → (encodeLog pre).length + 4 ≤ cut →
    cut < (encodeLog (pre ++ [r])).length →
      (tornRecord rs pre r cut).calculateChecksum = r.calculateChecksum → tornRecord rs pre r cut = r

/-- The record in which a file is cut. -/
theorem exists_cut {cut : Nat} (h : cut < (encodeLog rs).length) : ∃ pre r post, rs = pre ++ r :: post ∧
    (encodeLog pre).length ≤ cut ∧ cut < (encodeLog (pre ++ [r])).length := by
  induction rs generalizing cut with
  | nil => exact absurd h (Nat.not_lt_zero _)
  | cons r rs ih =>
      by_cases hr : cut < r.bytes.length
      · refine ⟨[], r, rs, rfl, Nat.zero_le _, ?_⟩
        rw [List.nil_append, encodeLog_cons, List.length_append]
        omega
      · rw [encodeLog_cons, List.length_append] at h
        obtain ⟨pre, r', post, hrs, hle, hlt⟩ := @ih (cut - r.bytes.length) (by omega)
        refine ⟨r :: pre, r', post, by rw [hrs, List.cons_append], ?_, ?_⟩
        · rw [encodeLog_cons, List.length_append]
          omega
        · rw [List.cons_append, encodeLog_cons, List.length_append]
          omega

/-- When the checksum is all there. -/
theorem take_bytes (r : WalRecord) {c : Nat} (hc : 4 ≤ c) :
    r.bytes.take c = encode 4 r.calculateChecksum.toNat ++ r.body.take (c - 4) := by
  have hlen : (encode 4 r.calculateChecksum.toNat).length ≤ c := by rwa [length_encode]
  rw [WalRecord.bytes, List.take_append, List.take_of_length_le hlen, length_encode]

/-- A record of which less than all is there yields itself or nothing. -/
theorem replayLoop_torn {v : ReplayVars} (hv : v.Sized) {s : InputStream} {r : WalRecord} {c : Nat}
    (hc : c < r.bytes.length) (h : s.At (r.bytes.take c))
    (hcrc : 4 ≤ c → (readBehind v s r).calculateChecksum = r.calculateChecksum → readBehind v s r = r)
    (fuel : Nat) :
    replayLoop (fuel + 1) v s = [] ∨ replayLoop (fuel + 1) v s = [r] := by
  rw [replayLoop_succ]
  split_ifs with hintact
  · right
    obtain ⟨hgood, hsum⟩ := hintact
    have hc4 : 4 ≤ c := by
      obtain ⟨left, hleft, -⟩ := (h.took.read v.checksum).at hgood
      have hlen := congrArg List.length hleft
      rw [List.nil_append, List.length_append, length_read, hv.checksum, List.length_take] at hlen
      omega
    rw [take_bytes r hc4] at h
    have hread := h.read (hv.checksum.trans (length_encode 4 _).symm)
    rw [length_encode] at hread
    have hround : readRound v s
        = readRecord { v with checksum := encode 4 r.calculateChecksum.toNat } (s.skip 4) := by
      unfold readRound
      rw [hread]
    have hbehind : (readRound v s).1 = readBehind v s r := congrArg Prod.fst hround
    have hat := h.skip
    rw [length_encode] at hat
    have hsized : ({ v with checksum := encode 4 r.calculateChecksum.toNat } : ReplayVars).Sized :=
      ⟨length_encode _ _, hv.seqNumber, hv.opByte, hv.keyLen, hv.valueLen⟩
    have hr : (readRound v s).1 = r := by
      rw [hbehind]
      apply hcrc hc4
      rw [hread, decode_checksum, hbehind] at hsum
      exact UInt32.toNat_inj.mp hsum
    obtain ⟨-, -, htook⟩ := readRecord_spec hsized hat
    rw [← hround, hr] at htook
    have hfailed : (readRound v s).2.2.good = false := by
      rcases htook with ⟨left, hleft, -⟩ | ⟨-, hfailed⟩
      · have hlen := congrArg List.length hleft
        rw [List.length_append, List.length_take] at hlen
        rw [WalRecord.bytes, List.length_append, length_encode] at hc
        omega
      · exact hfailed
    rw [hr, replayLoop_of_failed hfailed]
  · exact Or.inl rfl

/-- Behind the last whole record nothing is accepted. -/
theorem replay_encodeLog (hrs : ∀ r ∈ rs, r.Fits) : replay (encodeLog rs) = rs := by
  have happend := replay_append hrs []
  rw [List.append_nil] at happend
  rw [happend, (replayLoop_eq_nil_iff _).mpr, List.append_nil]
  intro hintact
  have hat : ((ofFile (encodeLog rs)).skip (encodeLog rs).length).At [] :=
    At.skip (by rw [List.append_nil]; exact at_ofFile _)
  obtain ⟨left, hleft, -⟩ := (hat.took.read _).at hintact.1
  have hlen := congrArg List.length hleft
  rw [List.nil_append, List.length_append, length_read,
    (sized_varsAfter sized_replayVars rs).checksum, List.length_nil] at hlen
  omega

/-- Cut inside a record, a file yields the records before it, and it may yield the record too. -/
theorem replay_cut {pre post : List WalRecord} {r : WalRecord} (hpre : ∀ x ∈ pre, x.Fits) {cut : Nat}
    (hcrc : NoCollision (pre ++ r :: post) cut) (hle : (encodeLog pre).length ≤ cut)
    (hlt : cut < (encodeLog (pre ++ [r])).length) :
    replay ((encodeLog (pre ++ r :: post)).take cut) = pre ∨
      replay ((encodeLog (pre ++ r :: post)).take cut) = pre ++ [r] := by
  have hc : cut - (encodeLog pre).length < r.bytes.length := by
    rw [encodeLog_append, List.length_append, encodeLog_cons, List.length_append] at hlt
    change cut < _ + (_ + 0) at hlt
    omega
  have htake : (encodeLog (pre ++ r :: post)).take cut
      = encodeLog pre ++ r.bytes.take (cut - (encodeLog pre).length) := by
    rw [encodeLog_append, encodeLog_cons, List.take_append, List.take_of_length_le hle,
      List.take_append_of_le_length hc.le]
  have hat : ((ofFile ((encodeLog (pre ++ r :: post)).take cut)).skip (encodeLog pre).length).At
      (r.bytes.take (cut - (encodeLog pre).length)) := by
    rw [htake]
    exact (at_ofFile _).skip
  have hreplay := replay_append hpre (r.bytes.take (cut - (encodeLog pre).length))
  rw [← htake] at hreplay
  rw [hreplay]
  rcases replayLoop_torn (sized_varsAfter sized_replayVars pre) hc hat
    (fun hc4 => hcrc pre r post rfl (by omega) hlt)
    ((encodeLog pre).length - pre.length + (r.bytes.take (cut - (encodeLog pre).length)).length)
    with hnil | hone
  · left
    rw [hnil, List.append_nil]
  · right
    rw [hone]

/-- **The codec of the log.** A file of whole records is replayed as it was written. Cut anywhere, it is replayed
    as a prefix with every record that is wholly there. -/
theorem replay_take (hrs : ∀ r ∈ rs, r.Fits) (cut : Nat) (hcrc : NoCollision rs cut) :
    replay (encodeLog rs) = rs ∧ ∃ n ≤ rs.length, replay ((encodeLog rs).take cut) = rs.take n ∧
      ∀ m ≤ rs.length, (encodeLog (rs.take m)).length ≤ cut → m ≤ n := by
  refine ⟨replay_encodeLog hrs, ?_⟩
  by_cases hcut : cut < (encodeLog rs).length
  · obtain ⟨pre, r, post, rfl, hle, hlt⟩ := exists_cut hcut
    have hlen : (pre ++ r :: post).length = pre.length + (post.length + 1) := by
      rw [List.length_append, List.length_cons]
    have hmax : ∀ m, (encodeLog ((pre ++ r :: post).take m)).length ≤ cut → m ≤ pre.length := by
      intro m hfit
      by_contra hgt
      -- then the record that is cut is among the first `m`
      have hsub : pre ++ [r] <+: (pre ++ r :: post).take m := by
        rw [List.take_append, List.take_of_length_le (by omega),
          show m - pre.length = (m - pre.length - 1) + 1 by omega, List.take_succ_cons]
        exact ⟨_, by rw [List.append_assoc]; rfl⟩
      obtain ⟨tail, htail⟩ := hsub
      rw [← htail, encodeLog_append, List.length_append] at hfit
      omega
    have hpre : ∀ x ∈ pre, x.Fits := fun x hx => hrs x (List.mem_append_left _ hx)
    rcases replay_cut hpre hcrc hle hlt with hreplay | hreplay
    · refine ⟨pre.length, by omega, ?_, fun m _ => hmax m⟩
      rw [hreplay, List.take_left]
    · refine ⟨pre.length + 1, by omega, ?_, fun m _ hfit => (hmax m hfit).trans (Nat.le_succ _)⟩
      rw [hreplay, List.take_append, List.take_of_length_le (by omega),
        show pre.length + 1 - pre.length = 1 by omega]
      rfl
  · refine ⟨rs.length, Nat.le_refl _, ?_, fun m hm _ => hm⟩
    rw [List.take_of_length_le (by omega), List.take_length, replay_encodeLog hrs]

end Files

/-- A put and a delete, as the tests of the log append them. -/
def twoRecords : List WalRecord := [⟨opPut, Bytes.ascii "a", Bytes.ascii "1", 1⟩,
  ⟨opDelete, Bytes.ascii "a", [], 2⟩]

/-- The file of these two records without its last byte. -/
theorem replay_take_twoRecords : letI := Zlib.bitwise
    replay (encodeLog twoRecords) = twoRecords ∧
      ∃ n ≤ twoRecords.length, replay ((encodeLog twoRecords).take 44) = twoRecords.take n ∧
        ∀ m ≤ twoRecords.length, (encodeLog (twoRecords.take m)).length ≤ 44 → m ≤ n := by
  let := Zlib.bitwise
  apply replay_take
  · decide
  · intro pre r post hsplit hle hlt hsum
    rcases pre with _ | ⟨a, _ | ⟨b, pre⟩⟩
    · -- the first record is whole
      obtain ⟨rfl, -⟩ := List.cons_eq_cons.mp hsplit
      exact absurd hlt (by decide +kernel)
    · -- the second one is read with a zero for its key
      obtain ⟨rfl, hrest⟩ := List.cons_eq_cons.mp hsplit
      obtain ⟨rfl, -⟩ := List.cons_eq_cons.mp hrest
      exact absurd hsum (by decide +kernel)
    · have hlen := congrArg List.length hsplit
      simp [twoRecords] at hlen

/-! ## D. A file that is appended to after a torn record

`WriteAheadLog` opens its file with `O_APPEND` and does not look at its end. So a record appended later stands behind
a torn one, and is read as the rest of it. -/

section Reopened

open Run

variable [Zlib] {rs ss : List WalRecord} {torn : Bytes}

/-- What has to be so for a torn tail to do no harm: the file reads the same from the start of the tail as from
    its end, and the bytes that are then left over do not pass for a record. -/
def HarmlessTail (rs : List WalRecord) (torn : Bytes) (ss : List WalRecord) : Prop :=
  encodeLog ss <+: torn ++ encodeLog ss ∧
    ¬ Intact (varsAfter replayVars (rs ++ ss))
      ((ofFile (encodeLog rs ++ torn ++ encodeLog ss)).skip (encodeLog (rs ++ ss)).length)

instance (rs : List WalRecord) (torn : Bytes) (ss : List WalRecord) : Decidable (HarmlessTail rs torn ss) :=
  inferInstanceAs (Decidable (_ ∧ _))

/-- A replay with bytes between the records. -/
theorem replay_between_iff (hrs : ∀ r ∈ rs, r.Fits) (hss : ∀ r ∈ ss, r.Fits) :
    replay (encodeLog rs ++ torn ++ encodeLog ss) = rs ++ ss ↔ HarmlessTail rs torn ss := by
  have hlen : (encodeLog ss).length ≤ (torn ++ encodeLog ss).length := by
    rw [List.length_append]
    omega
  have hle := length_le_encodeLog ss
  obtain ⟨fuel, hfuel⟩ : ∃ fuel, (encodeLog rs).length - rs.length + (torn ++ encodeLog ss).length + 1
      = ss.length + (fuel + 1) :=
    ⟨(encodeLog rs).length - rs.length + (torn ++ encodeLog ss).length - ss.length, by omega⟩
  have hvars : varsAfter (varsAfter replayVars rs) ss = varsAfter replayVars (rs ++ ss) := by
    unfold varsAfter
    rw [List.foldl_append]
  unfold HarmlessTail
  rw [List.append_assoc, replay_append hrs, List.append_cancel_left_eq, hfuel,
    replayLoop_eq_iff (sized_varsAfter sized_replayVars rs) hss (at_ofFile _).skip hlen,
    InputStream.skip_skip, hvars, encodeLog_append, List.length_append]

omit [Zlib] in
/-- Once everything appended is written, it is what the file has gained. -/
theorem file_of_written {ι : Type} [DecidableEq ι] {file₀ : Bytes} {ops : List (WalOp UInt8 ι)}
    {s : WriteAheadLog UInt8 ι} (h : exec step (new ι file₀) ops = some s)
    (hwritten : Written file₀ s s.appended.length) : s.file = file₀ ++ s.appended.flatten := by
  have hinv : BytesInv file₀ s :=
    exec_invariant (bytesInv_new file₀) (fun _ _ _ hinv hs => hinv.step hs) h
  unfold Written at hwritten
  rw [List.take_length] at hwritten
  have hbytes := hinv.bytes
  rw [List.append_assoc] at hbytes
  exact (hwritten.eq_of_length_le (by rw [← hbytes, List.length_append]; omega)).symm

/-- **After a torn tail.** A log is opened on a file that ends in `torn`, and `ss` is appended and flushed. A
    replay then applies the records from before and `ss` exactly when the tail is harmless. -/
theorem replay_torn_iff {ι : Type} [DecidableEq ι] (hrs : ∀ r ∈ rs, r.Fits) (hss : ∀ r ∈ ss, r.Fits)
    {ops : List (WalOp UInt8 ι)} {s : WriteAheadLog UInt8 ι}
    (h : exec step (new ι (encodeLog rs ++ torn)) ops = some s)
    (happended : s.appended = ss.map WalRecord.bytes)
    (hflushed : Written (encodeLog rs ++ torn) s s.appended.length) :
    replay s.file = rs ++ ss ↔ HarmlessTail rs torn ss := by
  rw [file_of_written h hflushed, happended]
  exact replay_between_iff hrs hss

/-- Without a tail there is no harm. -/
theorem harmlessTail_nil (hrs : ∀ r ∈ rs, r.Fits) (hss : ∀ r ∈ ss, r.Fits) : HarmlessTail rs [] ss := by
  rw [← replay_between_iff hrs hss, List.append_nil, ← encodeLog_append]
  apply replay_encodeLog
  intro r hr
  exact (List.mem_append.mp hr).elim (hrs r) (hss r)

/-- **A torn record hides what is appended after it**: with its checksum in the file, and a first appended record
    of another checksum, not everything is applied. -/
theorem not_harmlessTail_of_checksum {r a : WalRecord} {cut : Nat} (hcut : 4 ≤ cut)
    (hne : r.calculateChecksum ≠ a.calculateChecksum) : ¬ HarmlessTail rs (r.bytes.take cut) (a :: ss) := by
  rintro ⟨⟨tail, hprefix⟩, -⟩
  apply hne
  rw [take_bytes r hcut, encodeLog_cons, WalRecord.bytes] at hprefix
  simp only [List.append_assoc] at hprefix
  have hsum := List.append_inj_left hprefix (by rw [length_encode, length_encode])
  exact UInt32.toNat_inj.mp (encode_inj a.calculateChecksum.toNat_lt r.calculateChecksum.toNat_lt hsum).symm

end Reopened

/-- The put of `twoRecords` without its last byte. -/
def tornPut [Zlib] : Bytes := (encodeLog (twoRecords.take 1)).take 22

/-- A record is appended and flushed. -/
def appendAndFlush [Zlib] (r : WalRecord) : List (WalOp UInt8 Unit) :=
  [.append r.bytes, .flushRequest (), .flushLoad (), .syncSwap, .syncWrite, .syncStore, .flushReturn ()]

/-- After it, a put and a flush. -/
def putAfterTorn [Zlib] : List (WalOp UInt8 Unit) :=
  appendAndFlush ⟨opPut, Bytes.ascii "b", Bytes.ascii "2", 2⟩

/-- The put is in the file and is not applied. -/
theorem not_replayed_putAfterTorn : letI := Zlib.bitwise
    ∃ s, Run.exec step (new Unit tornPut) putAfterTorn = some s ∧
      s.appended = [WalRecord.bytes ⟨opPut, Bytes.ascii "b", Bytes.ascii "2", 2⟩] ∧
      Written tornPut s s.appended.length ∧ replay tornPut = [] ∧ replay s.file = [] := by
  let := Zlib.bitwise
  have hrun : (Run.exec step (new Unit tornPut) putAfterTorn).map (fun s => decide
      (s.appended = [WalRecord.bytes ⟨opPut, Bytes.ascii "b", Bytes.ascii "2", 2⟩] ∧
        (tornPut ++ (s.appended.take s.appended.length).flatten <+: s.file) ∧
        replay tornPut = [] ∧ replay s.file = [])) = some true := by decide +kernel
  obtain ⟨s, hs, hlost⟩ := Option.map_eq_some_iff.mp hrun
  rw [decide_eq_true_eq] at hlost
  exact ⟨s, hs, hlost⟩

/-- A delete whose encoding ends with the byte that it begins with. -/
def wrappingDelete : WalRecord := ⟨opDelete, [0, 98], [], 8⟩

/-- Torn before its last byte, it is completed by the record appended behind it: when that is the same delete again,
    the replay applies it once and drops what is left over. -/
theorem replayed_tornDelete : letI := Zlib.bitwise
    ∃ s, Run.exec step (new Unit (encodeLog twoRecords ++ wrappingDelete.bytes.take 22)) (appendAndFlush wrappingDelete)
        = some s ∧
      replay s.file = twoRecords ++ [wrappingDelete] := by
  let := Zlib.bitwise
  have hrun : (Run.exec step (new Unit (encodeLog twoRecords ++ wrappingDelete.bytes.take 22))
      (appendAndFlush wrappingDelete)).map (fun s => decide (s.appended = [wrappingDelete].map WalRecord.bytes ∧
        (encodeLog twoRecords ++ wrappingDelete.bytes.take 22 ++ (s.appended.take s.appended.length).flatten
          <+: s.file))) = some true := by decide +kernel
  obtain ⟨s, hs, hrun⟩ := Option.map_eq_some_iff.mp hrun
  rw [decide_eq_true_eq] at hrun
  obtain ⟨happended, hflushed⟩ := hrun
  exact ⟨s, hs, (replay_torn_iff (by decide) (by decide) hs happended hflushed).mpr (by decide +kernel)⟩

/-! ## E. The log of a data directory

The engine model keeps the log as a list of records; here that list is the file's bytes, and `recover` over the bytes
does what the model's recovery does over the list. -/

/-- A record of the log does to a memtable what its request did. -/
theorem applyRecord_toWal (m : MemTable) {r : LogRecord} (h : r.seqNumber < 2 ^ 64) :
    m.applyRecord r.toWal = m.apply r.request r.seqNumber := by
  have hseq : (UInt64.ofNat r.seqNumber).toNat = r.seqNumber := UInt64.toNat_ofNat_of_lt' h
  unfold LogRecord.toWal MemTable.applyRecord MemTable.apply
  cases r.request with
  | put key value =>
      show m.put key value (UInt64.ofNat r.seqNumber).toNat = m.put key value r.seqNumber
      rw [hseq]
  | delete key =>
      show m.del key (UInt64.ofNat r.seqNumber).toNat = m.del key r.seqNumber
      rw [hseq]

/-- **A log as a list of records** is what recovery makes of the file with their bytes. -/
theorem foldl_applyRecord_replay [Zlib] (log : List LogRecord) (hfits : ∀ r ∈ log, r.toWal.Fits)
    (hseq : ∀ r ∈ log, r.seqNumber < 2 ^ 64) (m : MemTable) :
    (replay (encodeLog (log.map LogRecord.toWal))).foldl MemTable.applyRecord m
      = KvStorageEngine.replay log m := by
  rw [replay_encodeLog (by simpa using hfits)]
  unfold KvStorageEngine.replay
  induction log generalizing m with
  | nil => rfl
  | cons r log ih =>
      obtain ⟨-, hfits⟩ := List.forall_mem_cons.mp hfits
      obtain ⟨hr, hseq⟩ := List.forall_mem_cons.mp hseq
      rw [List.map_cons, List.foldl_cons, List.foldl_cons, applyRecord_toWal m hr]
      exact ih hfits hseq _

theorem foldl_max_toWal (log : List LogRecord) (hseq : ∀ r ∈ log, r.seqNumber < 2 ^ 64) (n : Nat) :
    (log.map LogRecord.toWal).foldl (fun n r => max n r.seqNumber.toNat) n
      = log.foldl (fun n r => max n r.seqNumber) n := by
  induction log generalizing n with
  | nil => rfl
  | cons r log ih =>
      obtain ⟨hr, hseq⟩ := List.forall_mem_cons.mp hseq
      have hwal : r.toWal.seqNumber.toNat = r.seqNumber := by
        have hof : r.toWal.seqNumber = UInt64.ofNat r.seqNumber := by
          unfold LogRecord.toWal
          cases r.request <;> rfl
        rw [hof, UInt64.toNat_ofNat_of_lt' hr]
      rw [List.map_cons, List.foldl_cons, List.foldl_cons, hwal, ih hseq]

section Recover

variable [Zlib] [Platform] {log : List LogRecord}

/-- The same for the whole of `recover`, -/
theorem recoverFile_encodeLog (hfits : ∀ r ∈ log, r.toWal.Fits) (hseq : ∀ r ∈ log, r.seqNumber < 2 ^ 64)
    (s : StorageEngine) : s.recoverFile (encodeLog (log.map LogRecord.toWal)) = s.recover log := by
  unfold StorageEngine.recoverFile StorageEngine.recover
  cases log with
  | nil => rfl
  | cons r log =>
      have hne : (encodeLog ((r :: log).map LogRecord.toWal)).isEmpty = false := by
        have hle := length_le_encodeLog ((r :: log).map LogRecord.toWal)
        rw [List.isEmpty_eq_false_iff]
        intro hnil
        rw [hnil] at hle
        simp at hle
      have hmemtable := foldl_applyRecord_replay (r :: log) hfits hseq s.memtable
      have hreplay : replay (encodeLog ((r :: log).map LogRecord.toWal)) = _ := replay_encodeLog (by simpa using hfits)
      rw [if_neg (by rw [hne]; simp), if_neg (by simp)]
      dsimp only
      rw [hmemtable, hreplay, foldl_max_toWal _ hseq]

/-- and so for the constructor. -/
theorem constructFile_encodeLog (d : DataDir) (hfits : ∀ r ∈ d.log, r.toWal.Fits)
    (hseq : ∀ r ∈ d.log, r.seqNumber < 2 ^ 64) (dataDir : Bytes) (cacheSize : Nat) :
    d.constructFile (encodeLog (d.log.map LogRecord.toWal)) dataDir cacheSize = d.construct dataDir cacheSize := by
  unfold DataDir.constructFile DataDir.construct
  cases d.metadata with
  | none => exact congrArg some (recoverFile_encodeLog hfits hseq _)
  | some text =>
      dsimp only
      cases loadCounters text with
      | none => rfl
      | some counters =>
          obtain ⟨flushCounter, seqNumber⟩ := counters
          cases hlevels : loadLevelMetadata flushCounter d.levels with
          | none => simp [hlevels]
          | some version =>
              simp only [hlevels, Option.bind_eq_bind, Option.bind_some, Option.map_some]
              exact congrArg some (recoverFile_encodeLog hfits hseq _)

end Recover

end WriteAheadLog

end KvStorageEngine
