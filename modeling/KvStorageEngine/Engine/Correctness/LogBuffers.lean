import KvStorageEngine.Engine.Correctness.LogReplay
import KvStorageEngine.Engine.Correctness.LostWrites

/-!
# `Engine.Correctness.LogBuffers` — records on their way into the log

`append` puts a whole record into the write buffer under the lock, `doSync` exchanges the two buffers under the same
lock and writes the one it got. So the file, the sync buffer and the write buffer, in this order, are three stretches of
the records appended, and each ends where a record does (`BytesInv`, `RecordsInv`). Neither buffer has to have room for
that: they grow as needed, however much is appended while a write is under way.

For the file this means that whenever the process stops, what a replay applies is a beginning of what was appended
(`replay_of_exec`).
-/

namespace KvStorageEngine

open Run

namespace WriteAheadLog

variable {β ι : Type}

/-- The entries that are appended in a run. -/
def appendsIn (ops : List (WalOp β ι)) : List (List β) :=
  ops.filterMap fun op => match op with
    | .append entry => some entry
    | _ => none

theorem appendsIn_cons (op : WalOp β ι) (ops : List (WalOp β ι)) :
    appendsIn (op :: ops) = appendsIn [op] ++ appendsIn ops := by
  unfold appendsIn
  rw [← List.filterMap_append, List.singleton_append]

variable [DecidableEq ι] {file₀ : List β}

theorem appended_of_step {s s' : WriteAheadLog β ι} {op : WalOp β ι} (h : s.step op = some s') :
    s'.appended = s.appended ++ appendsIn [op] := by
  have heff := step_effect h
  cases op with
  | append entry =>
      obtain rfl : s' = _ := heff
      rfl
  | flushRequest i =>
      obtain rfl : s' = _ := heff
      exact (List.append_nil _).symm
  | flushLoad i =>
      obtain ⟨before, -, rfl⟩ := heff
      exact (List.append_nil _).symm
  | flushReturn i =>
      obtain ⟨before, myGen, -, -, rfl⟩ := heff
      exact (List.append_nil _).symm
  | syncSwap =>
      obtain ⟨-, ⟨-, rfl⟩ | ⟨-, rfl⟩⟩ := heff <;> exact (List.append_nil _).symm
  | syncWrite | syncStore =>
      obtain ⟨-, rfl⟩ := heff
      exact (List.append_nil _).symm

/-- What is appended in a run comes in the order of its appends. -/
theorem appended_of_exec {s s' : WriteAheadLog β ι} {ops : List (WalOp β ι)} (h : exec step s ops = some s') :
    s'.appended = s.appended ++ appendsIn ops := by
  induction ops generalizing s with
  | nil =>
      obtain rfl := Option.some.inj h
      exact (List.append_nil _).symm
  | cons op ops ih =>
      rw [exec_cons] at h
      obtain ⟨t, ht, h⟩ := Option.bind_eq_some_iff.mp h
      rw [ih h, appended_of_step ht, appendsIn_cons op ops, List.append_assoc]

/-- The bytes and the records of a run, together. -/
theorem inv_of_exec {ops : List (WalOp β (Option ι))} {s : WriteAheadLog β (Option ι)}
    (h : exec step (new (Option ι) file₀) ops = some s) : BytesInv file₀ s ∧ AckedLog.RecordsInv file₀ s := by
  refine exec_invariant (I := fun s => BytesInv file₀ s ∧ AckedLog.RecordsInv file₀ s)
    ⟨bytesInv_new file₀, AckedLog.recordsInv_new file₀⟩ ?_ h
  rintro s op s' ⟨hbytes, hrecords⟩ hs
  exact ⟨hbytes.step hs, hrecords.step hbytes hs⟩

/-! ## Records as bytes

The runs above are about any lists of bytes. Here they are the records of the log, so that the ends of the appended
lists are the ends of records, and the file can be replayed. -/

section Records

variable [Zlib] {file₀ : Bytes} {records : List WalRecord} {ops : List (WalOp UInt8 (Option ι))}
  {s : WriteAheadLog UInt8 (Option ι)}

/-- A run that appends records has appended their bytes. -/
theorem appended_of_records (hops : appendsIn ops = records.map WalRecord.bytes)
    (h : exec step (new (Option ι) file₀) ops = some s) : s.appended = records.map WalRecord.bytes :=
  (appended_of_exec h).trans hops

omit [DecidableEq ι] in
theorem flatten_take_bytes (records : List WalRecord) (n : Nat) :
    ((records.map WalRecord.bytes).take n).flatten = encodeLog (records.take n) := by
  rw [← List.map_take]
  rfl

/-- The file has the first of the records. -/
theorem file_of_exec (hops : appendsIn ops = records.map WalRecord.bytes)
    (h : exec step (new (Option ι) file₀) ops = some s) :
    ∃ n ≤ records.length, s.file = file₀ ++ encodeLog (records.take n) := by
  obtain ⟨n, hn, hfile⟩ := (inv_of_exec h).2.file
  rw [appended_of_records hops h] at hn hfile
  rw [List.length_map] at hn
  rw [flatten_take_bytes] at hfile
  exact ⟨n, hn, hfile⟩

/-- **Whenever the process stops**, a replay applies the records that were there and a beginning of the appended ones.
    -/
theorem replay_of_exec {rs : List WalRecord} (hrs : ∀ r ∈ rs, r.Fits) (hfits : ∀ r ∈ records, r.Fits)
    (hops : appendsIn ops = records.map WalRecord.bytes)
    (h : exec step (new (Option ι) (encodeLog rs)) ops = some s) :
    ∃ n ≤ records.length, replay s.file = rs ++ records.take n := by
  obtain ⟨n, hn, hfile⟩ := file_of_exec hops h
  refine ⟨n, hn, ?_⟩
  rw [hfile, ← encodeLog_append]
  apply replay_encodeLog
  intro r hr
  exact (List.mem_append.mp hr).elim (hrs r) fun hr => hfits r (List.mem_of_mem_take hr)

/-- **Buffering keeps order and record boundaries.** In every run of appends, syncs and flushes, with every write
    complete, the file and the two buffers hold the records in the order in which they were appended, the size that
    `append` counts is the length of the write buffer, and the file ends where a record does. -/
theorem buffers_of_exec (hops : appendsIn ops = records.map WalRecord.bytes)
    (h : exec step (new (Option ι) file₀) ops = some s) :
    s.file ++ s.syncBuffer ++ s.writeBuffer = file₀ ++ encodeLog records ∧
      s.writeBufferSize = s.writeBuffer.length ∧
        ∃ n ≤ records.length, s.file = file₀ ++ encodeLog (records.take n) := by
  obtain ⟨hbytes, -⟩ := inv_of_exec h
  refine ⟨?_, hbytes.size, file_of_exec hops h⟩
  rw [hbytes.bytes, appended_of_records hops h]
  rfl

end Records

/-- A put is in the sync buffer, and the next one goes into the write buffer. -/
def appendWhileSyncing [Zlib] : List (WalOp UInt8 (Option Unit)) :=
  [.append (WalRecord.bytes ⟨opPut, Bytes.ascii "a", Bytes.ascii "1", 1⟩), .syncSwap,
    .append (WalRecord.bytes ⟨opDelete, Bytes.ascii "a", [], 2⟩)]

/-- Here the file is still empty. -/
theorem buffers_appendWhileSyncing : letI := Zlib.bitwise
    ∃ s, exec step (new (Option Unit) []) appendWhileSyncing = some s ∧ s.file = [] ∧
      s.file ++ s.syncBuffer ++ s.writeBuffer = [] ++ encodeLog [⟨opPut, Bytes.ascii "a", Bytes.ascii "1", 1⟩,
        ⟨opDelete, Bytes.ascii "a", [], 2⟩] ∧ s.writeBufferSize = s.writeBuffer.length := by
  let := Zlib.bitwise
  obtain ⟨s, hs⟩ : ∃ s, exec step (new (Option Unit) []) appendWhileSyncing = some s :=
    Option.isSome_iff_exists.mp (by decide +kernel)
  have hops : appendsIn appendWhileSyncing = [⟨opPut, Bytes.ascii "a", Bytes.ascii "1", 1⟩,
      ⟨opDelete, Bytes.ascii "a", [], 2⟩].map WalRecord.bytes := rfl
  obtain ⟨hbytes, hsize, -⟩ := buffers_of_exec hops hs
  have hfile : (exec step (new (Option Unit) []) appendWhileSyncing).map (·.file) = some [] := by decide +kernel
  rw [hs] at hfile
  exact ⟨s, hs, Option.some.inj hfile, hbytes, hsize⟩

end WriteAheadLog

end KvStorageEngine
