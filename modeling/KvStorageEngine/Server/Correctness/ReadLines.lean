import KvStorageEngine.Server.Correctness.TextCommands

/-!
# `Server.Correctness.ReadLines` — the lines of a connection

`readLine` takes its lines off the front of a buffer that `recv` fills, so how the stream is cut makes no difference to
the lines. It can make a difference to whether they come at all. The limit is on the buffer, and a `recv` that brings
the end of a line can bring bytes of the next ones too, which count.

`framed_iff` says exactly which streams come through: those whose every chunk fits into the buffer together with what is
there of an unfinished line (`FitsFrom`), as far as there is a line still to come. `fits_of_short` is a limit on the
lines that is enough for all ways of cutting.
-/

namespace KvStorageEngine.Server

open Cutting LineFraming ConnectionHandler

namespace LineReader

/-- The complete lines of a stream. -/
def linesOf (stream : Bytes) : List Bytes := (split isNewline stream).1

/-- What is behind the last complete line. -/
def unfinished (stream : Bytes) : Bytes := (split isNewline stream).2

/-- The calls of `readLine` return the lines of the stream, without a carriage return at the end, and fail from then on.
    -/
def Framed (r : LineReader) : Prop :=
  ∀ n, r.nthLine n = (linesOf (r.readBuffer ++ r.pending.flatten))[n]?.map popReturn

/-- A chunk that comes while there is a line end to come fits into the buffer with the unfinished line. -/
def FitsFrom (readBuffer : Bytes) (chunks : List Bytes) : Prop :=
  ∀ pre chunk post, chunks = pre ++ chunk :: post → (10 : UInt8) ∈ (chunk :: post).flatten →
    (unfinished (readBuffer ++ pre.flatten)).length + chunk.length ≤ maxBufferSize

/-! ## A. The buffer

What is in front of the last newline are lines, and what is behind it is the beginning of one. -/

theorem not_mem_iff {l : Bytes} : (10 : UInt8) ∉ l ↔ ∀ b ∈ l, isNewline b = false :=
  ⟨not_isNewline, fun h hmem => absurd (h 10 hmem) (by decide)⟩

theorem linesOf_line {line : Bytes} (h : (10 : UInt8) ∉ line) (l : Bytes) :
    linesOf (line ++ 10 :: l) = line :: linesOf l := by
  unfold linesOf
  rw [split_line (not_mem_iff.mp h) rfl]

theorem unfinished_line {line : Bytes} (h : (10 : UInt8) ∉ line) (l : Bytes) :
    unfinished (line ++ 10 :: l) = unfinished l := by
  unfold unfinished
  rw [split_line (not_mem_iff.mp h) rfl]

theorem linesOf_of_not_mem {l : Bytes} (h : (10 : UInt8) ∉ l) : linesOf l = [] := by
  unfold linesOf
  rw [split_of_not (not_mem_iff.mp h)]

theorem unfinished_of_not_mem {l : Bytes} (h : (10 : UInt8) ∉ l) : unfinished l = l := by
  unfold unfinished
  rw [split_of_not (not_mem_iff.mp h)]

/-! ## B. One call

A call takes a line that is there, or reads a chunk and tries again, or gives up because the buffer is too long or the
stream has ended. -/

variable {readBuffer line : Bytes} {pending : List Bytes}

/-- **A line in the buffer** is returned without a look at what is to come. -/
theorem readLine_line (hline : (10 : UInt8) ∉ line) {rest : Bytes}
    (hlen : (line ++ 10 :: rest).length ≤ maxBufferSize) :
    readLine ⟨line ++ 10 :: rest, pending⟩ = (some (popReturn line), ⟨rest, pending⟩) := by
  have htake : takeLine (line ++ 10 :: rest) pending = some (popReturn line, ⟨rest, pending⟩) := by
    unfold takeLine
    rw [cut_append hline]
    rfl
  unfold readLine
  rw [if_neg (Nat.not_lt.mpr hlen)]
  cases pending with
  | nil => simp only [readLoop, htake]
  | cons chunk pending => simp only [readLoop, htake]

theorem takeLine_of_not_mem (h : (10 : UInt8) ∉ readBuffer) (pending : List Bytes) :
    takeLine readBuffer pending = none := by
  unfold takeLine
  rw [cut_eq_none_iff.mpr h]
  rfl

/-- Without one, the next chunk comes into the buffer, -/
theorem readLine_chunk (h : (10 : UInt8) ∉ readBuffer) {chunk : Bytes} (hne : chunk ≠ [])
    (hlen : (readBuffer ++ chunk).length ≤ maxBufferSize) :
    readLine ⟨readBuffer, chunk :: pending⟩ = readLine ⟨readBuffer ++ chunk, pending⟩ := by
  have hshort : readBuffer.length ≤ maxBufferSize := by
    rw [List.length_append] at hlen
    omega
  unfold readLine
  rw [if_neg (Nat.not_lt.mpr hshort), if_neg (Nat.not_lt.mpr hlen)]
  dsimp only
  rw [readLoop, takeLine_of_not_mem h]
  dsimp only
  rw [if_neg hne, if_neg (Nat.not_lt.mpr hlen)]

/-- if there is room for it. -/
theorem readLine_overflow (h : (10 : UInt8) ∉ readBuffer) {chunk : Bytes} (hne : chunk ≠ [])
    (hshort : readBuffer.length ≤ maxBufferSize) (hlen : maxBufferSize < (readBuffer ++ chunk).length) :
    readLine ⟨readBuffer, chunk :: pending⟩ = (none, ⟨readBuffer ++ chunk, pending⟩) := by
  unfold readLine
  rw [if_neg (Nat.not_lt.mpr hshort)]
  dsimp only
  rw [readLoop, takeLine_of_not_mem h]
  dsimp only
  rw [if_neg hne, if_pos hlen]

/-- A buffer that has become too long stays so. -/
theorem nthLine_of_long (h : maxBufferSize < readBuffer.length) (n : Nat) : nthLine n ⟨readBuffer, pending⟩ = none := by
  have hcall : readLine ⟨readBuffer, pending⟩ = (none, ⟨readBuffer, pending⟩) := if_pos h
  induction n with
  | zero => rw [nthLine, hcall]
  | succ n ih => rw [nthLine, hcall, ih]

/-- When the client has hung up, there is no line. -/
theorem nthLine_of_end (h : (10 : UInt8) ∉ readBuffer) (hshort : readBuffer.length ≤ maxBufferSize) (n : Nat) :
    nthLine n ⟨readBuffer, []⟩ = none := by
  have hcall : readLine ⟨readBuffer, []⟩ = (none, ⟨readBuffer, []⟩) := by
    unfold readLine
    rw [if_neg (Nat.not_lt.mpr hshort)]
    dsimp only
    rw [readLoop, takeLine_of_not_mem h]
  induction n with
  | zero => rw [nthLine, hcall]
  | succ n ih => rw [nthLine, hcall, ih]

/-! ## C. The whole stream -/

/-- The first line out of the way, the rest of the stream is as well framed as all of it, -/
theorem framed_line (hline : (10 : UInt8) ∉ line) {rest : Bytes} (hlen : (line ++ 10 :: rest).length ≤ maxBufferSize) :
    Framed ⟨line ++ 10 :: rest, pending⟩ ↔ Framed ⟨rest, pending⟩ := by
  have hcall : readLine ⟨line ++ 10 :: rest, pending⟩ = _ := readLine_line hline hlen
  have hlines : linesOf (line ++ 10 :: rest ++ pending.flatten) = line :: linesOf (rest ++ pending.flatten) := by
    rw [List.append_assoc, List.cons_append, linesOf_line hline]
  unfold Framed
  dsimp only
  rw [hlines]
  constructor
  · intro h n
    have hn := h (n + 1)
    rw [nthLine, hcall, List.getElem?_cons_succ] at hn
    exact hn
  · intro h n
    cases n with
    | zero => rw [nthLine, hcall, List.getElem?_cons_zero, Option.map_some]
    | succ n => rw [nthLine, hcall, List.getElem?_cons_succ, h n]

/-- and fits as well. -/
theorem fitsFrom_line (hline : (10 : UInt8) ∉ line) (rest : Bytes) (chunks : List Bytes) :
    FitsFrom (line ++ 10 :: rest) chunks ↔ FitsFrom rest chunks := by
  unfold FitsFrom
  simp only [List.append_assoc, List.cons_append, unfinished_line hline]

/-- A chunk that fits moves from the stream into the buffer. -/
theorem framed_chunk (h : (10 : UInt8) ∉ readBuffer) {chunk : Bytes} (hne : chunk ≠ [])
    (hlen : (readBuffer ++ chunk).length ≤ maxBufferSize) :
    Framed ⟨readBuffer, chunk :: pending⟩ ↔ Framed ⟨readBuffer ++ chunk, pending⟩ := by
  have hcall : readLine ⟨readBuffer, chunk :: pending⟩ = _ := readLine_chunk h hne hlen
  have hnth : ∀ n, nthLine n ⟨readBuffer, chunk :: pending⟩ = nthLine n ⟨readBuffer ++ chunk, pending⟩ := by
    intro n
    cases n with
    | zero => rw [nthLine, nthLine, hcall]
    | succ n => rw [nthLine, nthLine, hcall]
  unfold Framed
  simp only [hnth, List.flatten_cons, List.append_assoc]

/-- And the condition goes on behind it. -/
theorem fitsFrom_chunk (h : (10 : UInt8) ∉ readBuffer) {chunk : Bytes}
    (hlen : (readBuffer ++ chunk).length ≤ maxBufferSize) :
    FitsFrom readBuffer (chunk :: pending) ↔ FitsFrom (readBuffer ++ chunk) pending := by
  constructor
  · rintro hfits pre c post rfl hmem
    have hlater := hfits (chunk :: pre) c post rfl hmem
    rw [List.flatten_cons, ← List.append_assoc] at hlater
    exact hlater
  · intro hfits pre c post hsplit hmem
    cases pre with
    | nil =>
        obtain ⟨rfl, rfl⟩ := List.cons.inj hsplit
        rw [List.flatten_nil, List.append_nil, unfinished_of_not_mem h, ← List.length_append]
        exact hlen
    | cons c' pre =>
        obtain ⟨rfl, rfl⟩ := List.cons.inj hsplit
        rw [List.flatten_cons, ← List.append_assoc]
        exact hfits pre c post rfl hmem

/-- A chunk for which there is no room does no harm only if there are no more lines. -/
theorem framed_overflow_iff (h : (10 : UInt8) ∉ readBuffer) {chunk : Bytes} (hne : chunk ≠ [])
    (hshort : readBuffer.length ≤ maxBufferSize) (hlen : maxBufferSize < (readBuffer ++ chunk).length) :
    Framed ⟨readBuffer, chunk :: pending⟩ ↔ FitsFrom readBuffer (chunk :: pending) := by
  have hcall : readLine ⟨readBuffer, chunk :: pending⟩ = _ := readLine_overflow h hne hshort hlen
  have hnone : ∀ n, nthLine n ⟨readBuffer, chunk :: pending⟩ = none := by
    intro n
    cases n with
    | zero => rw [nthLine, hcall]
    | succ n =>
        rw [nthLine, hcall]
        exact nthLine_of_long hlen n
  by_cases hmem : (10 : UInt8) ∈ (chunk :: pending).flatten
  · -- a line is lost
    refine iff_of_false ?_ ?_
    · intro hframed
      obtain ⟨front, tail, hsplit, hfront⟩ := List.eq_append_cons_of_mem hmem
      have hfirst : (10 : UInt8) ∉ readBuffer ++ front := by simp [h, hfront]
      have hzero := hframed 0
      dsimp only at hzero
      rw [hnone, hsplit, ← List.append_assoc, linesOf_line hfirst] at hzero
      exact absurd hzero (by simp)
    · intro hfits
      have hroom := hfits [] chunk pending rfl hmem
      rw [List.flatten_nil, List.append_nil, unfinished_of_not_mem h, ← List.length_append] at hroom
      omega
  · refine iff_of_true ?_ ?_
    · intro n
      rw [hnone]
      have hstream : (10 : UInt8) ∉ readBuffer ++ (chunk :: pending).flatten := by
        rw [List.mem_append, not_or]
        exact ⟨h, hmem⟩
      dsimp only
      rw [linesOf_of_not_mem hstream]
      rfl
    · rintro pre c post hsplit hpost
      apply absurd _ hmem
      rw [hsplit, List.flatten_append]
      exact List.mem_append_right _ hpost

/-- **Which streams come through.** -/
theorem framed_iff {chunks : List Bytes} (hne : ∀ chunk ∈ chunks, chunk ≠ []) :
    ∀ readBuffer : Bytes, readBuffer.length ≤ maxBufferSize →
      (Framed ⟨readBuffer, chunks⟩ ↔ FitsFrom readBuffer chunks) := by
  induction chunks with
  | nil =>
      intro readBuffer
      induction readBuffer using @line_induction _ isNewline with
      | rest l hl =>
          intro hlen
          have hl := not_mem_iff.mpr hl
          refine iff_of_true ?_ ?_
          · intro n
            dsimp only
            rw [nthLine_of_end hl hlen, List.flatten_nil, List.append_nil, linesOf_of_not_mem hl]
            rfl
          · intro pre c post hsplit
            exact absurd hsplit.symm (by simp)
      | line line e l hline he ih =>
          intro hlen
          have hline := not_mem_iff.mpr hline
          obtain rfl : e = 10 := of_decide_eq_true he
          rw [framed_line hline hlen, fitsFrom_line hline]
          apply ih
          rw [List.length_append, List.length_cons] at hlen
          omega
  | cons chunk chunks ih =>
      obtain ⟨hchunk, hne⟩ := List.forall_mem_cons.mp hne
      intro readBuffer
      induction readBuffer using @line_induction _ isNewline with
      | rest l hl =>
          intro hshort
          have hl := not_mem_iff.mpr hl
          by_cases hlen : maxBufferSize < (l ++ chunk).length
          · exact framed_overflow_iff hl hchunk hshort hlen
          · have hlen := Nat.not_lt.mp hlen
            rw [framed_chunk hl hchunk hlen, fitsFrom_chunk hl hlen]
            exact ih hne _ hlen
      | line line e l hline he ih' =>
          intro hlen
          have hline := not_mem_iff.mpr hline
          obtain rfl : e = 10 := of_decide_eq_true he
          rw [framed_line hline hlen, fitsFrom_line hline]
          apply ih'
          rw [List.length_append, List.length_cons] at hlen
          omega

/-- **Lines that are short enough** come through however the stream is cut. -/
theorem fits_of_short {chunks : List Bytes} (hrecv : ∀ chunk ∈ chunks, chunk.length ≤ recvSize)
    (hshort : ∀ line ∈ linesOf chunks.flatten, line.length + recvSize ≤ maxBufferSize) : FitsFrom [] chunks := by
  rintro pre chunk post rfl hmem
  rw [List.nil_append]
  obtain ⟨front, tail, hsplit, hfront⟩ := List.eq_append_cons_of_mem hmem
  have hfirst : (10 : UInt8) ∉ unfinished pre.flatten ++ front := by
    rw [List.mem_append, not_or]
    exact ⟨not_mem_iff.mpr (not_sep_of_mem_rest _), hfront⟩
  have hlines : linesOf (pre ++ chunk :: post).flatten =
      linesOf pre.flatten ++ linesOf (unfinished pre.flatten ++ (chunk :: post).flatten) := by
    rw [List.flatten_append]
    exact congrArg Prod.fst (split_append _ _)
  have hline : unfinished pre.flatten ++ front ∈ linesOf (pre ++ chunk :: post).flatten := by
    rw [hlines, hsplit, ← List.append_assoc, linesOf_line hfirst]
    exact List.mem_append_right _ List.mem_cons_self
  have hlength := hshort _ hline
  have hchunk := hrecv chunk (List.mem_append_right _ List.mem_cons_self)
  rw [List.length_append] at hlength
  omega

/-- **Line framing.** The calls of `readLine` return the lines of the stream exactly if every chunk that comes in front
    of a line end fits into the buffer with the unfinished line. For lines that leave room for one more `recv` it does.
    -/
theorem framed_iff_fits {chunks : List Bytes} (hne : ∀ chunk ∈ chunks, chunk ≠ []) :
    (Framed ⟨[], chunks⟩ ↔ FitsFrom [] chunks) ∧
      ((∀ chunk ∈ chunks, chunk.length ≤ recvSize) →
        (∀ line ∈ linesOf chunks.flatten, line.length + recvSize ≤ maxBufferSize) → Framed ⟨[], chunks⟩) := by
  have hiff := framed_iff hne [] (Nat.zero_le _)
  exact ⟨hiff, fun hrecv hshort => hiff.mpr (fits_of_short hrecv hshort)⟩

/-- Two commands, cut in the middle of the second. -/
theorem framed_twoChunks : Framed ⟨[], [Bytes.ascii "PUT a b\r\nGE", Bytes.ascii "T a\n"]⟩ :=
  (framed_iff_fits (by decide)).2 (by decide) (by decide)

/-- A long line that comes in `n` chunks of `m` bytes and one behind them, in which the next line begins. -/
def longLine (n m k : Nat) : List Bytes :=
  ([97] :: List.replicate n (List.replicate m 97)) ++ [List.replicate k 97 ++ [10, 98], [10]]

theorem not_mem_replicate (n : Nat) : (10 : UInt8) ∉ List.replicate n (97 : UInt8) :=
  fun hmem => absurd (List.mem_replicate.mp hmem).2 (by decide)

theorem flatten_longLine (n m : Nat) :
    ([97] :: List.replicate n (List.replicate m 97)).flatten = List.replicate (1 + n * m) (97 : UInt8) := by
  rw [List.flatten_cons, List.flatten_replicate_replicate, ← List.replicate_one, List.replicate_append_replicate]

theorem linesOf_longLine (n m k : Nat) :
    linesOf (longLine n m k).flatten = [List.replicate (1 + n * m + k) 97, [98]] := by
  have hstream : (longLine n m k).flatten = List.replicate (1 + n * m + k) 97 ++ 10 :: [98, 10] := by
    rw [longLine, List.flatten_append, flatten_longLine]
    simp only [List.flatten_cons, List.flatten_nil, List.append_nil, List.append_assoc]
    rw [← List.append_assoc, List.replicate_append_replicate]
    rfl
  have hlast : linesOf [98, 10] = [[98]] := by decide
  rw [hstream, linesOf_line (not_mem_replicate _), hlast]

theorem not_fits_longLine {n m k : Nat} (h : maxBufferSize < 1 + n * m + (k + 2)) : ¬ FitsFrom [] (longLine n m k) := by
  intro hfits
  have hmem : (10 : UInt8) ∈ [List.replicate k 97 ++ [10, 98], [10]].flatten :=
    List.mem_flatten_of_mem List.mem_cons_self (List.mem_append_right _ List.mem_cons_self)
  have hroom := hfits _ _ _ rfl hmem
  rw [List.nil_append, flatten_longLine, unfinished_of_not_mem (not_mem_replicate _), List.length_replicate,
    List.length_append, List.length_replicate] at hroom
  exact absurd hroom (Nat.not_le.mpr h)

theorem chunks_longLine {n m k : Nat} (hm : m ≠ 0) : ∀ chunk ∈ longLine n m k,
    chunk ≠ [] ∧ chunk.length ≤ max m (k + 2) := by
  intro chunk hchunk
  simp only [longLine, List.cons_append, List.mem_cons, List.mem_append, List.mem_replicate, List.not_mem_nil,
    or_false] at hchunk
  rcases hchunk with rfl | ⟨-, rfl⟩ | rfl | rfl
  · simp
  · simp [hm]
  · simp
  · simp

/-- **Short enough for the limit, and yet not read**: a line of 1 MiB with the first byte of the next one in its last
    chunk. -/
theorem not_framed_longLine : (∀ chunk ∈ longLine 255 4096 4094, chunk ≠ [] ∧ chunk.length ≤ recvSize) ∧
    (∀ line ∈ linesOf (longLine 255 4096 4094).flatten, line.length + 1 ≤ maxBufferSize) ∧
      ¬ Framed ⟨[], longLine 255 4096 4094⟩ := by
  have hchunks : ∀ chunk ∈ longLine 255 4096 4094, chunk ≠ [] ∧ chunk.length ≤ recvSize := chunks_longLine (by decide)
  refine ⟨hchunks, ?_, ?_⟩
  · rw [linesOf_longLine]
    intro line hline
    rcases List.mem_pair.mp hline with rfl | rfl
    · rw [List.length_replicate]
      decide
    · decide
  · rw [framed_iff (fun chunk hchunk => (hchunks chunk hchunk).1) [] (Nat.zero_le _)]
    exact not_fits_longLine (by decide)

end LineReader

end KvStorageEngine.Server
