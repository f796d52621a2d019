import KvStorageEngine.Engine.StorageEngine
import KvStorageEngine.Lib.Run

/-!
# `Engine.Handover` — the hand-over of a memtable, step by step

A record travels from the active memtable to the immutable one and on to a table. `checkFlush` copies the
memtable, clears it and publishes the copy; `flushThreadLoop` installs the version with the new table and
then resets the immutable memtable (`engine/src/engine.cpp`). The memtable has a lock of its own, but no lock
is held across two of these steps, and the writer thread takes none of `checkFlush`'s. So they are separate
steps here, between which the writer may move; done in a row they are `StorageEngine.rotate` and
`StorageEngine.flushInstall`.
-/

namespace KvStorageEngine

variable [Platform]

/-- Where a `checkFlush` is; it holds its copy until it publishes it. -/
inductive RotationPc where
  | idle
  | copied (newImmutable : MemTable)
  | cleared (newImmutable : MemTable)

/-- Where the flush thread is in a round: before or after the installation of the version. -/
inductive FlushPc where
  | idle
  | installed
  deriving DecidableEq, Repr

/-- The engine, a rotation and the flush thread. -/
structure Handover where
  engine : StorageEngine
  rotation : RotationPc
  flush : FlushPc

/-- A step of the writer, of the rotation or of the flush thread. -/
inductive HandoverOp where
  | put (key value : Bytes)
  | del (key : Bytes)
  | rotateCopy
  | rotateClear
  | rotatePublish
  | flushInstall
  | flushReset
  deriving DecidableEq, Repr

namespace Handover

/-- No rotation and no flush under way. -/
def start (s : StorageEngine) : Handover := ⟨s, .idle, .idle⟩

/-- One step, `none` where the thread is not at that point or would wait. -/
def step (s : Handover) : HandoverOp → Option Handover
  | .put key value => some { s with engine := s.engine.put key value }
  | .del key => some { s with engine := s.engine.writeTombstone key }
  | .rotateCopy =>
    match s.rotation, s.engine.immutableMemtable with
    -- waits on `flush_cv_` while there is an immutable memtable
    | .idle, none => some { s with rotation := .copied (MemTable.copyOf s.engine.memtable.snapshot) }
    | _, _ => none
  | .rotateClear =>
    match s.rotation with
    | .copied imm => some { s with
        engine := { s.engine with memtable := s.engine.memtable.clear }
        rotation := .cleared imm }
    | _ => none
  | .rotatePublish =>
    match s.rotation with
    | .cleared imm => some { s with
        engine := { s.engine with immutableMemtable := some imm }
        rotation := .idle }
    | _ => none
  | .flushInstall =>
    match s.flush, s.engine.immutableMemtable with
    | .idle, some imm => some { s with engine := s.engine.flushTable imm, flush := .installed }
    | _, _ => none
  | .flushReset =>
    match s.flush with
    | .installed => some { s with engine := s.engine.resetImmutable, flush := .idle }
    | .idle => none

/-- The effects of the steps, one constructor for each. -/
inductive Effect (s : Handover) : HandoverOp → Handover → Prop where
  | put (key value : Bytes) : Effect s (.put key value) { s with engine := s.engine.put key value }
  | del (key : Bytes) : Effect s (.del key) { s with engine := s.engine.writeTombstone key }
  | rotateCopy (hrot : s.rotation = .idle) (himm : s.engine.immutableMemtable = none) :
      Effect s .rotateCopy { s with rotation := .copied (MemTable.copyOf s.engine.memtable.snapshot) }
  | rotateClear {imm : MemTable} (hrot : s.rotation = .copied imm) : Effect s .rotateClear { s with
      engine := { s.engine with memtable := s.engine.memtable.clear }
      rotation := .cleared imm }
  | rotatePublish {imm : MemTable} (hrot : s.rotation = .cleared imm) : Effect s .rotatePublish { s with
      engine := { s.engine with immutableMemtable := some imm }
      rotation := .idle }
  | flushInstall {imm : MemTable} (hflush : s.flush = .idle) (himm : s.engine.immutableMemtable = some imm) :
      Effect s .flushInstall { s with engine := s.engine.flushTable imm, flush := .installed }
  | flushReset (hflush : s.flush = .installed) :
      Effect s .flushReset { s with engine := s.engine.resetImmutable, flush := .idle }

/-- Every step has one of these effects. -/
theorem Effect.of_step {s s' : Handover} {op : HandoverOp} (h : s.step op = some s') : Effect s op s' := by
  cases op with
  | put key value => exact Option.some.inj h ▸ .put key value
  | del key => exact Option.some.inj h ▸ .del key
  | rotateCopy =>
      unfold step at h; dsimp only at h; split at h <;> try contradiction
      next hrot himm => exact Option.some.inj h ▸ .rotateCopy hrot himm
  | rotateClear =>
      unfold step at h; dsimp only at h; split at h <;> try contradiction
      next imm hrot => exact Option.some.inj h ▸ .rotateClear hrot
  | rotatePublish =>
      unfold step at h; dsimp only at h; split at h <;> try contradiction
      next imm hrot => exact Option.some.inj h ▸ .rotatePublish hrot
  | flushInstall =>
      unfold step at h; dsimp only at h; split at h <;> try contradiction
      next imm hflush himm => exact Option.some.inj h ▸ .flushInstall hflush himm
  | flushReset =>
      unfold step at h; dsimp only at h; split at h <;> try contradiction
      next hflush => exact Option.some.inj h ▸ .flushReset hflush

end Handover

/-- The key a step writes. -/
def HandoverOp.key? : HandoverOp → Option Bytes
  | .put key _ | .del key => some key
  | .rotateCopy | .rotateClear | .rotatePublish | .flushInstall | .flushReset => none

namespace Handover

/-- The three steps of the rotation in a row. -/
theorem exec_rotation (s : StorageEngine) :
    Run.exec step (start s) [.rotateCopy, .rotateClear, .rotatePublish] = s.rotate.map start := by
  unfold StorageEngine.rotate
  cases h : s.immutableMemtable <;> simp [Run.exec_cons, step, start, h]

/-- The two steps of the flush thread in a row. -/
theorem exec_flush (s : StorageEngine) :
    Run.exec step (start s) [.flushInstall, .flushReset] = s.flushInstall.map start := by
  unfold StorageEngine.flushInstall
  cases h : s.immutableMemtable <;> simp [Run.exec_cons, step, start, h]

end Handover

/-! ## A reader in between -/

/-- Where a `get` without cache is; `candidate` is what it has found so far. -/
inductive ReaderPc where
  | start
  | gotActive (candidate : Option Entry)
  | gotImmutable (candidate : Option Entry)
  | done (out : Option Entry)
  deriving DecidableEq, Repr

/-- The hand-over and one reader. -/
structure Reading where
  handover : Handover
  reader : ReaderPc

/-- A step of the hand-over, or one of the three steps of the reader. -/
inductive ReadingOp where
  | move (op : HandoverOp)
  | readActive
  | readImmutable
  | readVersion
  deriving DecidableEq, Repr

namespace Reading

/-- A `get` about to start. -/
def start (s : StorageEngine) : Reading := ⟨Handover.start s, .start⟩

/-- One step of the system with a reader of `key`. -/
def step (key : Bytes) (s : Reading) : ReadingOp → Option Reading
  | .move op => (s.handover.step op).map fun h => { s with handover := h }
  | .readActive =>
    match s.reader with
    | .start => some { s with reader := .gotActive (s.handover.engine.memtable.get key) }
    | _ => none
  | .readImmutable =>
    match s.reader with
    | .gotActive candidate => some { s with
        reader := .gotImmutable
          (considerRecord candidate (s.handover.engine.immutableMemtable.bind (·.get key))) }
    | _ => none
  | .readVersion =>
    match s.reader with
    | .gotImmutable candidate => some { s with
        reader := .done (answer (searchVersion s.handover.engine.version key candidate)) }
    | _ => none

end Reading

end KvStorageEngine
