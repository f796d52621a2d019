import KvStorageEngine.Lib.LineFraming
import KvStorageEngine.Lib.TextStream

/-!
# `Distributed.WireFormat` — messages on the wire

`distributed/replication/log_entry.cpp` and `Follower::handleConnection`. A message is one line of text: counters and
lengths in decimal, every field followed by a bar, and keys, values and whole entries behind their lengths, so that they
may contain bars themselves. The follower takes complete lines off its buffer, however the stream comes in.

The types are those of `replication_types.h` with their widths; an operation is the byte of its enumerator, since
`deserialize` makes one out of any number. An exception is `none`.
-/

namespace KvStorageEngine.Distributed.Wire

open TextStream

structure LogEntry where
  term : UInt64
  index : UInt64
  op : UInt8
  key : Bytes
  value : Bytes
  deriving DecidableEq, Repr

structure ReplicationMessage where
  term : UInt64
  leaderCommit : UInt64
  entries : List LogEntry
  deriving DecidableEq, Repr

/-! ## Writing -/

/-- `LogEntry::serialize`. -/
def LogEntry.serialize (e : LogEntry) : Bytes :=
  Bytes.toDecimal e.term.toNat ++ Bytes.ascii "|" ++ (Bytes.toDecimal e.index.toNat ++ Bytes.ascii "|" ++
    (Bytes.toDecimal e.op.toNat ++ Bytes.ascii "|" ++ (Bytes.toDecimal e.key.length ++ Bytes.ascii "|" ++
      (e.key ++ Bytes.ascii "|" ++ (Bytes.toDecimal e.value.length ++ Bytes.ascii "|" ++ e.value)))))

/-- An entry behind its length. -/
def entryText (e : LogEntry) : Bytes :=
  Bytes.toDecimal e.serialize.length ++ Bytes.ascii "|" ++ e.serialize

/-- `ReplicationMessage::serialize`. -/
def ReplicationMessage.serialize (m : ReplicationMessage) : Bytes :=
  Bytes.toDecimal m.term.toNat ++ Bytes.ascii "|" ++ (Bytes.toDecimal m.leaderCommit.toNat ++ Bytes.ascii "|" ++
    (Bytes.toDecimal m.entries.length ++ m.entries.flatMap fun e => Bytes.ascii "|" ++ entryText e))

/-! ## Reading -/

/-- `nextToken`: what stands before the next bar, and the position behind the bar. -/
def nextToken (data : Bytes) (pos : Nat) : Option (Bytes × Nat) :=
  ((data.drop pos).findIdx? (· = 124)).map fun n => ((data.drop pos).take n, pos + n + 1)

/-- `std::string::substr`. -/
def substr (data : Bytes) (pos len : Nat) : Option Bytes :=
  if pos ≤ data.length then some ((data.drop pos).take len) else none

/-- A `size_t` moved on past `len` bytes and a delimiter. -/
def advance (pos len : Nat) : Nat := (pos + (len + 1)) % 2 ^ 64

/-- `LogEntry::deserialize`. -/
def LogEntry.deserialize (data : Bytes) : Option LogEntry := do
  let (termStr, pos) ← nextToken data 0
  let (indexStr, pos) ← nextToken data pos
  let (opStr, pos) ← nextToken data pos
  let term ← stoull termStr
  let index ← stoull indexStr
  let op ← stoi opStr
  let (keyLenStr, pos) ← nextToken data pos
  let keyLen ← stoull keyLenStr
  let key ← substr data pos keyLen
  let pos := advance pos keyLen
  let (valueLenStr, pos) ← nextToken data pos
  let valueLen ← stoull valueLenStr
  let value ← substr data pos valueLen
  -- the cast to the enumeration keeps the low byte
  some ⟨UInt64.ofNat term, UInt64.ofNat index, UInt8.ofNat (op % 256).toNat, key, value⟩

/-- The loop of `ReplicationMessage::deserialize`. -/
def deserializeEntries (data : Bytes) : Nat → Nat → Option (List LogEntry)
  | 0, _ => some []
  | numEntries + 1, pos => do
    let (entryLenStr, pos) ← nextToken data pos
    let entryLen ← stoull entryLenStr
    let entryData ← substr data pos entryLen
    let entry ← LogEntry.deserialize entryData
    let entries ← deserializeEntries data numEntries (advance pos entryLen)
    some (entry :: entries)

/-- `ReplicationMessage::deserialize`. -/
def ReplicationMessage.deserialize (data : Bytes) : Option ReplicationMessage := do
  let (termStr, pos) ← nextToken data 0
  let term ← stoull termStr
  let (leaderCommitStr, pos) ← nextToken data pos
  let leaderCommit ← stoull leaderCommitStr
  let (numEntriesStr, pos) ← nextToken data pos
  let numEntries ← stoull numEntriesStr
  let entries ← deserializeEntries data numEntries pos
  some ⟨UInt64.ofNat term, UInt64.ofNat leaderCommit, entries⟩

/-! ## The follower's side of a connection -/

/-- What `handleConnection` does besides reading. -/
inductive FollowerEvent where
  | handleReplication (msg : ReplicationMessage)
  | sendAck
  deriving DecidableEq, Repr

/-- One line: empty ones are skipped, and a line that does not parse is only reported. -/
def handleLine (line : Bytes) : List FollowerEvent :=
  if line.isEmpty then []
  else match ReplicationMessage.deserialize line with
    | some msg => [.handleReplication msg, .sendAck]
    | none => []

/-- The byte that ends a line. -/
def isNewline (b : UInt8) : Bool := b = 10

/-- The buffer of a connection, and what has been done with the lines so far. -/
structure FollowerConnection where
  buffer : Bytes
  events : List FollowerEvent
  deriving DecidableEq, Repr

/-- One round of the loop, for what `recv` has put into `read_buf`. -/
def FollowerConnection.receive (c : FollowerConnection) (chunk : Bytes) : FollowerConnection :=
  let (lines, rest) := LineFraming.split isNewline (c.buffer ++ chunk)
  ⟨rest, c.events ++ lines.flatMap handleLine⟩

/-- `Follower::handleConnection` on the pieces that `recv` returns. -/
def handleConnection (chunks : List Bytes) : FollowerConnection :=
  chunks.foldl FollowerConnection.receive ⟨[], []⟩

example : LogEntry.deserialize (LogEntry.serialize ⟨1, 2, 1, Bytes.ascii "a|", Bytes.ascii "||"⟩)
    = some ⟨1, 2, 1, Bytes.ascii "a|", Bytes.ascii "||"⟩ := by decide

end KvStorageEngine.Distributed.Wire
