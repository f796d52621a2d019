import KvStorageEngine.Distributed.WireFormat
import KvStorageEngine.Lib.Run

/-!
# `Distributed.Connection` — one replication connection, step by step

`LogShipper::sendToPeer` on the leader, `Follower::handleConnection` on the follower, and the two byte streams between
them. The leader's calls come one after the other, since `shipEntries` holds a mutex; each is cut at its two system
calls. How much a `send` takes, when a `recv` times out and how many bytes it gets are the environment's choice.

Every byte of the forward stream carries the number of the message it was sent for. The programs do not see it; the
statements use it to say where a line came from.
-/

namespace KvStorageEngine.Distributed.Wire

/-- A byte on its way to the follower, with the number of its message. -/
abbrev Stream := List (Nat × UInt8)

/-- The bytes of the `i`-th message. -/
def tag (i : Nat) (data : Bytes) : Stream := data.map fun b => (i, b)

/-- The bytes themselves. -/
def bytes (s : Stream) : Bytes := s.map Prod.snd

/-- The byte that `Follower::handleConnection` looks for. -/
def endsLine (b : Nat × UInt8) : Bool := isNewline b.2

/-- The leader, between two calls of `sendToPeer` or inside of one. -/
inductive ShipperPc where
  | idle
  | awaiting (i : Nat)
  deriving DecidableEq, Repr

/-- The follower, at one of its two system calls. -/
inductive FollowerPc where
  | reading
  | acking
  deriving DecidableEq, Repr

/-- One connection. -/
structure Connection where
  /-- `peer.connected`. -/
  connected : Bool
  shipper : ShipperPc
  follower : FollowerPc
  /-- Sent and not yet received. -/
  wire : Stream
  /-- The follower's `buffer`. -/
  buffer : Stream
  /-- Sent back and not yet read. -/
  acks : Bytes
  /-- History: the messages that `sendToPeer` was called with. -/
  sent : List ReplicationMessage
  /-- History: the bytes that the follower received. -/
  received : Stream
  /-- History: the lines that were handled, and the messages they were taken for. -/
  handled : List (Stream × ReplicationMessage)
  /-- History: what `sendToPeer` returned for which message. -/
  returns : List (Nat × Bool)
  deriving DecidableEq, Repr

/-- What happens next. -/
inductive ConnectionOp where
  /-- A call of `sendToPeer`; `send` takes `k` bytes, or fails (`k = 0`). -/
  | send (msg : ReplicationMessage) (k : Nat)
  /-- The leader's `recv` gets `n` bytes; `junk` is what was behind them in `ack_buf`. -/
  | recvAck (n : Nat) (junk : Bytes)
  /-- The leader's `recv` times out, or fails. -/
  | recvTimeout
  /-- The follower's `recv` gets `n` bytes. -/
  | deliver (n : Nat)
  /-- The follower takes a line off its buffer. -/
  | handleLine
  /-- The follower's `send` of an ack takes `k` bytes. -/
  | sendAck (k : Nat)
  deriving DecidableEq, Repr

namespace Connection

/-- Right after `connect`. -/
def init : Connection := ⟨true, .idle, .reading, [], [], [], [], [], [], []⟩

/-- `data` in `shipEntries`. -/
def data (msg : ReplicationMessage) : Bytes := msg.serialize ++ Bytes.ascii "\n"

/-- `strncmp(ack_buf, "+OK", 3) == 0`. -/
def isAck (ackBuf : Bytes) : Bool := ackBuf.take 3 = Bytes.ascii "+OK"

/-- The bytes that the next `send` puts on the wire, if it takes `k`. -/
def written (s : Connection) (msg : ReplicationMessage) (k : Nat) : Stream :=
  if s.connected = true then tag s.sent.length ((data msg).take k) else []

/-- `sendToPeer` up to its `recv`, or to its end. -/
def send (s : Connection) (msg : ReplicationMessage) (k : Nat) : Connection :=
  let sent := s.sent ++ [msg]
  if s.connected = false then { s with sent, returns := s.returns ++ [(s.sent.length, false)] }
  else if k = 0 then { s with sent, connected := false, returns := s.returns ++ [(s.sent.length, false)] }
  else { s with sent, wire := s.wire ++ s.written msg k, shipper := .awaiting s.sent.length }

/-- The rest of `sendToPeer`. -/
def finish (s : Connection) (i : Nat) (ok : Bool) : Connection :=
  { s with shipper := .idle, returns := s.returns ++ [(i, ok)] }

/-- One step, `none` where it cannot happen. -/
def step (s : Connection) : ConnectionOp → Option Connection
  | .send msg k =>
    -- the size of a string is a `size_t`
    if s.shipper = .idle ∧ k ≤ (data msg).length ∧ (data msg).length < 2 ^ 64 then some (s.send msg k) else none
  | .recvAck n junk =>
    match s.shipper with
    | .awaiting i =>
      if 0 < n ∧ n ≤ 16 ∧ n ≤ s.acks.length then
        some ({ s with acks := s.acks.drop n }.finish i (isAck (s.acks.take n ++ junk)))
      else none
    | .idle => none
  | .recvTimeout =>
    match s.shipper with
    | .awaiting i => some (s.finish i false)
    | .idle => none
  | .deliver n =>
    if s.follower = .reading ∧ LineFraming.takeLine endsLine s.buffer = none ∧ 0 < n ∧ n ≤ 4096 ∧
        n ≤ s.wire.length then
      some { s with
        wire := s.wire.drop n, buffer := s.buffer ++ s.wire.take n, received := s.received ++ s.wire.take n }
    else none
  | .handleLine =>
    match s.follower, LineFraming.takeLine endsLine s.buffer with
    | .reading, some (line, rest) =>
      if line.isEmpty then some { s with buffer := rest }
      else match ReplicationMessage.deserialize (bytes line) with
        | some msg => some { s with buffer := rest, handled := s.handled ++ [(line, msg)], follower := .acking }
        | none => some { s with buffer := rest }
    | _, _ => none
  | .sendAck k =>
    if s.follower = .acking ∧ k ≤ 4 then
      some { s with acks := s.acks ++ (Bytes.ascii "+OK\n").take k, follower := .reading }
    else none

/-! ## What a step does -/

/-- The follower handles this line: it is not empty, and it parses. -/
def Handles (line : Stream) : Prop :=
  line ≠ [] ∧ (ReplicationMessage.deserialize (bytes line)).isSome

instance (line : Stream) : Decidable (Handles line) := inferInstanceAs (Decidable (_ ∧ _))

/-- The effects of the steps, one constructor for each thing that can happen. -/
inductive Effect (s : Connection) : ConnectionOp → Connection → Prop where
  | notSent {msg : ReplicationMessage} {k : Nat} {connected : Bool} (hidle : s.shipper = .idle)
      (hwritten : s.connected = true → k = 0) (hlen : (data msg).length < 2 ^ 64) :
      Effect s (.send msg k)
        { s with sent := s.sent ++ [msg], connected, returns := s.returns ++ [(s.sent.length, false)] }
  | sent {msg : ReplicationMessage} {k : Nat} (hidle : s.shipper = .idle) (hconn : s.connected = true) (hk : 0 < k)
      (hle : k ≤ (data msg).length) (hlen : (data msg).length < 2 ^ 64) :
      Effect s (.send msg k)
        { s with
          sent := s.sent ++ [msg], shipper := .awaiting s.sent.length
          wire := s.wire ++ tag s.sent.length ((data msg).take k) }
  | recvAck {i n : Nat} {junk : Bytes} (hpc : s.shipper = .awaiting i) (hn : 0 < n) (hle : n ≤ s.acks.length) :
      Effect s (.recvAck n junk)
        ({ s with acks := s.acks.drop n }.finish i (isAck (s.acks.take n ++ junk)))
  | recvTimeout {i : Nat} (hpc : s.shipper = .awaiting i) : Effect s .recvTimeout (s.finish i false)
  | deliver {n : Nat} (hpc : s.follower = .reading) (hbuffer : LineFraming.takeLine endsLine s.buffer = none) :
      Effect s (.deliver n)
        { s with
          wire := s.wire.drop n, buffer := s.buffer ++ s.wire.take n, received := s.received ++ s.wire.take n }
  | skip {line rest : Stream} (hpc : s.follower = .reading)
      (htake : LineFraming.takeLine endsLine s.buffer = some (line, rest)) (hskip : ¬ Handles line) :
      Effect s .handleLine { s with buffer := rest }
  | handle {line rest : Stream} {msg : ReplicationMessage} (hpc : s.follower = .reading)
      (htake : LineFraming.takeLine endsLine s.buffer = some (line, rest)) (hne : line ≠ [])
      (hmsg : ReplicationMessage.deserialize (bytes line) = some msg) :
      Effect s .handleLine { s with buffer := rest, handled := s.handled ++ [(line, msg)], follower := .acking }
  | sendAck {k : Nat} (hpc : s.follower = .acking) :
      Effect s (.sendAck k)
        { s with acks := s.acks ++ (Bytes.ascii "+OK\n").take k, follower := .reading }

/-- Every step has one of these effects. -/
theorem Effect.of_step {s s' : Connection} {op : ConnectionOp} (h : s.step op = some s') : Effect s op s' := by
  cases op with
  | send msg k =>
      unfold step at h; dsimp only at h; split_ifs at h with hif
      obtain ⟨hidle, hle, hlen⟩ := hif
      obtain rfl := Option.some.inj h
      unfold send
      dsimp only
      split_ifs with hconn hk
      · exact .notSent hidle (by simp [hconn]) hlen
      · exact .notSent hidle (fun _ => hk) hlen
      · have hconn : s.connected = true := by simpa using hconn
        unfold written
        rw [if_pos hconn]
        exact .sent hidle hconn (Nat.pos_of_ne_zero hk) hle hlen
  | recvAck n junk =>
      unfold step at h; dsimp only at h; split at h <;> try contradiction
      next i hpc =>
        split_ifs at h with hif
        exact Option.some.inj h ▸ .recvAck hpc hif.1 hif.2.2
  | recvTimeout =>
      unfold step at h; dsimp only at h; split at h <;> try contradiction
      next i hpc => exact Option.some.inj h ▸ .recvTimeout hpc
  | deliver n =>
      unfold step at h; dsimp only at h; split_ifs at h with hif
      exact Option.some.inj h ▸ .deliver hif.1 hif.2.1
  | handleLine =>
      unfold step at h; dsimp only at h; split at h <;> try contradiction
      next line rest hpc htake =>
        split at h
        next hempty => exact Option.some.inj h ▸ .skip hpc htake fun hh => hh.1 (by simpa using hempty)
        next hne =>
          split at h
          next msg hmsg => exact Option.some.inj h ▸ .handle hpc htake (by simpa using hne) hmsg
          next hnone => exact Option.some.inj h ▸ .skip hpc htake fun hh => absurd hh.2 (by simp [hnone])
  | sendAck k =>
      unfold step at h; dsimp only at h; split_ifs at h with hif
      exact Option.some.inj h ▸ .sendAck hif.1

end Connection

end KvStorageEngine.Distributed.Wire
