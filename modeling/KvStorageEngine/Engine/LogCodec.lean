import KvStorageEngine.Engine.DataDir
import KvStorageEngine.Engine.WriteAheadLog
import KvStorageEngine.Lib.LittleEndian
import KvStorageEngine.Lib.InputStream

/-!
# `Engine.LogCodec` — the log as bytes

`WriteAheadLog::calculateChecksum`, `append` and `replay` (`engine/src/wal.cpp`), byte by byte. A record is a
checksum, four header fields and the two strings, little-endian and without padding. `replay` reads them into
variables that live outside its loop, so that a field the file is too short for keeps the bytes of the record
before; keys and values are read over zeros.

`crc32` is zlib's. The checksum is computed piece by piece, which is the `crc32` of the pieces put together.
Strings are taken to fit into memory, whatever the length in a header says.
-/

namespace KvStorageEngine

open LittleEndian

/-- The part of zlib that the log uses. -/
class Zlib where
  crc32 : Bytes → UInt32

/-- The checksum after one more bit. -/
def crcBit (c : UInt32) : UInt32 := if c &&& 1 = 1 then (c >>> 1) ^^^ 0xEDB88320 else c >>> 1

/-- The checksum after one more byte. -/
def crcByte (c : UInt32) (b : UInt8) : UInt32 := crcBit^[8] (c ^^^ b.toUInt32)

/-- CRC-32, bit by bit. -/
@[reducible] def Zlib.bitwise : Zlib where
  crc32 bytes := bytes.foldl crcByte 0xFFFFFFFF ^^^ 0xFFFFFFFF

/-- A record of the log file; `op` is the byte of its `Operation`. -/
structure WalRecord where
  op : UInt8
  key : Bytes
  value : Bytes
  seqNumber : UInt64
  deriving DecidableEq, Repr

/-- `Operation::PUT`. -/
def opPut : UInt8 := 1

/-- `Operation::DELETE`. -/
def opDelete : UInt8 := 2

/-- The record that the writer thread appends for a request. -/
def LogRecord.toWal (r : LogRecord) : WalRecord :=
  match r.request with
  | .put key value => ⟨opPut, key, value, UInt64.ofNat r.seqNumber⟩
  | .delete key => ⟨opDelete, key, [], UInt64.ofNat r.seqNumber⟩

/-- What `recover` does with a record. -/
def MemTable.applyRecord (m : MemTable) (r : WalRecord) : MemTable :=
  if r.op = opPut then m.put r.key r.value r.seqNumber.toNat
  else if r.op = opDelete then m.del r.key r.seqNumber.toNat
  else m

namespace WalRecord

/-- `key.size()` as a `uint32_t`. -/
def keyLen (r : WalRecord) : Nat := r.key.length % 2 ^ 32

/-- `value.size()` as a `uint32_t`. -/
def valueLen (r : WalRecord) : Nat := r.value.length % 2 ^ 32

/-- The fields of a record, without the checksum. -/
def body (r : WalRecord) : Bytes :=
  encode 8 r.seqNumber.toNat ++ [r.op] ++ encode 4 r.keyLen ++ encode 4 r.valueLen ++
    r.key.take r.keyLen ++ r.value.take r.valueLen

variable [Zlib]

/-- `WriteAheadLog::calculateChecksum`. -/
def calculateChecksum (r : WalRecord) : UInt32 := Zlib.crc32 r.body

/-- The bytes that `WriteAheadLog::append` adds. -/
def bytes (r : WalRecord) : Bytes := encode 4 r.calculateChecksum.toNat ++ r.body

theorem length_bytes_pos (r : WalRecord) : 0 < r.bytes.length := by
  unfold bytes
  rw [List.length_append, length_encode]
  omega

end WalRecord

/-- The variables of `replay`, as the bytes they consist of. -/
structure ReplayVars where
  checksum : Bytes
  seqNumber : Bytes
  opByte : Bytes
  keyLen : Bytes
  valueLen : Bytes
  deriving DecidableEq, Repr

namespace WriteAheadLog

/-- The variables before the loop. -/
def replayVars : ReplayVars := ⟨Bytes.zeros 4, Bytes.zeros 8, Bytes.zeros 1, Bytes.zeros 4, Bytes.zeros 4⟩

/-- One round of `replay` after the checksum: the record that is read, the variables and the stream. -/
def readRecord (v : ReplayVars) (s : InputStream) : WalRecord × ReplayVars × InputStream :=
  let (seqNumber, s) := s.read v.seqNumber
  let (opByte, s) := s.read v.opByte
  let (keyLen, s) := s.read v.keyLen
  let (valueLen, s) := s.read v.valueLen
  -- what the stream does not have stays zero
  let (key, s) := s.read (Bytes.zeros (decode keyLen))
  let (value, s) := s.read (Bytes.zeros (decode valueLen))
  (⟨UInt8.ofNat (decode opByte), key, value, UInt64.ofNat (decode seqNumber)⟩,
    { v with seqNumber, opByte, keyLen, valueLen }, s)

variable [Zlib]

/-- The loop of `replay`: the records handed to `apply`, in order. -/
def replayLoop : Nat → ReplayVars → InputStream → List WalRecord
  | 0, _, _ => []
  | fuel + 1, v, s =>
    let (checksum, s) := s.read v.checksum
    if s.good then
      let (r, v, s) := readRecord { v with checksum } s
      -- a wrong checksum ends the replay
      if r.calculateChecksum.toNat = decode v.checksum then r :: replayLoop fuel v s else []
    else []

/-- `WriteAheadLog::replay` on a file with the given contents. -/
def replay (file : Bytes) : List WalRecord :=
  replayLoop (file.length + 1) replayVars (InputStream.ofFile file)

end WriteAheadLog

section Recover

variable [Zlib] [Platform]

/-- `StorageEngine::recover`, on the bytes of `log.bin`. -/
def StorageEngine.recoverFile (s : StorageEngine) (logFile : Bytes) : StorageEngine :=
  if logFile.isEmpty then s
  else
    let records := WriteAheadLog.replay logFile
    { s with
      memtable := records.foldl MemTable.applyRecord s.memtable
      seqNumber := records.foldl (fun n r => max n r.seqNumber.toNat) s.seqNumber + 1 }

/-- The constructor on a data directory with these bytes in `log.bin`. -/
def DataDir.constructFile (d : DataDir) (logFile : Bytes) (dataDir : Bytes) (cacheSize : Nat) : Option StorageEngine :=
  ({ d with log := [] }.construct dataDir cacheSize).map fun s : StorageEngine => s.recoverFile logFile

end Recover

/-- A file of whole records. -/
def encodeLog [Zlib] (rs : List WalRecord) : Bytes := rs.flatMap WalRecord.bytes

example : Zlib.bitwise.crc32 (Bytes.ascii "123456789") = 0xCBF43926 := by decide +kernel

end KvStorageEngine
