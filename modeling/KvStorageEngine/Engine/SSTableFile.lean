import KvStorageEngine.Engine.SSTable
import KvStorageEngine.Engine.BloomCodec
import KvStorageEngine.Lib.InputStream
import KvStorageEngine.Lib.LowerBound

/-!
# `Engine.SSTableFile` — tables as files

`SSTable::flush`, `loadMetadata`, `get`, `getData` and `SSTable::Iterator` (`engine/src/sstable.cpp`), byte by byte: the
records in key order, then the range, the sparse index with every 16th key, the filter and the offset at which all this
begins. A table in memory is what the object keeps besides its path: range, offset, index, filter, and the stream it
opens at its first lookup and keeps.

Lengths and counts go into the file as `uint32_t`. Positions in a file are taken as they are, since a file does
not reach 2^64 bytes. A string that cannot be read in full leaves the stream failed and the length after it
without a value, so it is read all or nothing here. `none` is the result of a function that uses a variable it
could not read, or throws.
-/

namespace KvStorageEngine

open LittleEndian

/-- `read` of an unsigned integer of `w` bytes. -/
def readUInt (s : InputStream) (w : Nat) : Option (Nat × InputStream) :=
  (s.readExactly w).map fun p => (decode p.1, p.2)

/-- A length as a `uint32_t`. -/
def length32 (s : Bytes) : Nat := s.length % 2 ^ 32

namespace EntryType

/-- The byte of an `EntryType`. -/
def toByte : EntryType → UInt8
  | .put => 0
  | .delete => 1

/-- What is read as an `EntryType`. The code asks for `PUT` only, and no other bytes than these two are
    written. -/
def ofByte (b : UInt8) : EntryType := if b = 0 then .put else .delete

@[simp] theorem ofByte_toByte (t : EntryType) : ofByte t.toByte = t := by cases t <;> rfl

end EntryType

/-- An entry of the sparse index. -/
structure IndexEntry where
  key : Bytes
  offset : Nat
  deriving DecidableEq, Repr

/-- A record in the file. -/
def recordBytes (record : Bytes × Entry) : Bytes :=
  encode 8 record.2.seq ++ [record.2.type.toByte] ++ encode 4 (length32 record.1) ++
    encode 4 (length32 record.2.value) ++ record.1.take (length32 record.1) ++
      record.2.value.take (length32 record.2.value)

/-- An index entry in the file. -/
def IndexEntry.bytes (entry : IndexEntry) : Bytes :=
  encode 4 (length32 entry.key) ++ entry.key.take (length32 entry.key) ++ encode 8 entry.offset

/-- What follows the records. -/
def metadataBytes (minKey maxKey : Bytes) (index : List IndexEntry) (bloomData : Bytes)
    (metadataOffset : Nat) : Bytes :=
  encode 4 (length32 minKey) ++ encode 4 (length32 maxKey) ++ minKey.take (length32 minKey) ++
    maxKey.take (length32 maxKey) ++ encode 4 (index.length % 2 ^ 32) ++ index.flatMap IndexEntry.bytes ++
      encode 4 (length32 bloomData) ++ bloomData.take (length32 bloomData) ++ encode 8 metadataOffset

/-- A table in memory. -/
structure FileTable where
  minKey : Bytes
  maxKey : Bytes
  metadataOffset : Nat
  index : List IndexEntry
  bloomFilter : Option BloomFilter
  cachedFile : Option InputStream

namespace FileTable

/-- The entries of the index, one after the other. -/
def loadIndex : Nat → InputStream → Option (List IndexEntry × InputStream)
  | 0, s => some ([], s)
  | n + 1, s => do
    let (keyLen, s) ← readUInt s 4
    let (key, s) ← s.readExactly keyLen
    let (offset, s) ← readUInt s 8
    let (index, s) ← loadIndex n s
    some (⟨key, offset⟩ :: index, s)

/-- `SSTable::loadMetadata` of a file that is there. -/
def loadMetadata (file : Bytes) : Option FileTable :=
  if file.length < 8 then none
  else do
    let s := (InputStream.ofFile file).seekg (file.length - 8)
    let (metadataOffset, s) ← readUInt s 8
    let s := s.seekg metadataOffset
    let (minKeyLen, s) ← readUInt s 4
    let (maxKeyLen, s) ← readUInt s 4
    let (minKey, s) ← s.readExactly minKeyLen
    let (maxKey, s) ← s.readExactly maxKeyLen
    let (indexSize, s) ← readUInt s 4
    let (index, s) ← loadIndex indexSize s
    let (bloomSize, s) ← readUInt s 4
    let (bloomData, _) := s.read (Bytes.zeros bloomSize)
    let bloomFilter ← BloomFilter.deserialize bloomData
    some ⟨minKey, maxKey, metadataOffset, index, some bloomFilter, none⟩

/-- `SSTable(path)`, where there is a file or there is none. -/
def construct : Option Bytes → Option FileTable
  | none => some ⟨[], [], 0, [], none, none⟩
  | some file => loadMetadata file

/-- `INDEX_INTERVAL`. -/
def indexInterval : Nat := 16

variable [Platform]

/-- What the loop of `flush` works on. -/
structure FlushState where
  bloomFilter : BloomFilter
  index : List IndexEntry
  entryCount : Nat
  file : Bytes

/-- One round of the loop of `flush`. -/
def flushEntry (st : FlushState) (record : Bytes × Entry) : FlushState where
  bloomFilter := st.bloomFilter.add record.1
  index := if st.entryCount % indexInterval = 0 then st.index ++ [⟨record.1, st.file.length⟩] else st.index
  entryCount := st.entryCount + 1
  file := st.file ++ recordBytes record

/-- `SSTable::flush`: the table and its file, which replaces the one that was there. -/
def flush (old : Option Bytes) (snapshot : SortedMap Bytes Entry) : Option (FileTable × Bytes) := do
  let table ← construct old
  let st := snapshot.entries.foldl flushEntry ⟨BloomFilter.new snapshot.size, table.index, 0, []⟩
  let minKey ← snapshot.firstKey?
  let maxKey ← snapshot.lastKey?
  some ({ table with
      minKey := minKey
      maxKey := maxKey
      metadataOffset := st.file.length
      index := st.index
      bloomFilter := some st.bloomFilter },
    st.file ++ metadataBytes minKey maxKey st.index st.bloomFilter.serialize st.file.length)

/-- `std::upper_bound`, the position of the first index entry with a key beyond `key`. -/
def upperBound (key : Bytes) (index : List IndexEntry) : Nat :=
  LowerBound.lowerBound (fun entry => !(key < entry.key)) index

/-- The part of the file to scan for a key: `search_start` and `search_end`. -/
def searchRange (t : FileTable) (key : Bytes) : Nat × Nat :=
  if t.index.isEmpty then (0, t.metadataOffset)
  else
    let bound := upperBound key t.index
    let it := if bound = 0 then 0 else bound - 1
    (if bound = 0 then 0 else (t.index[it]?.map IndexEntry.offset).getD 0,
      (t.index[it + 1]?.map IndexEntry.offset).getD t.metadataOffset)

/-- The loop of `get`. -/
def scanLoop (key : Bytes) (searchEnd : Nat) : Nat → InputStream → Option (Option Entry × InputStream)
  | 0, s => some (none, s)
  | fuel + 1, s =>
    -- `tellg` of a failed stream is -1, and -1 is below every end
    if s.tellg.all (· < searchEnd) then
      let (seq, s) := s.read (Bytes.zeros 8)
      if s.good then do
        let (type, s) ← s.readExactly 1
        let (keyLen, s) ← readUInt s 4
        let (valueLen, s) ← readUInt s 4
        let (k, s) := s.read (Bytes.zeros keyLen)
        let type := EntryType.ofByte (UInt8.ofNat (decode type))
        -- the value of a tombstone is not read
        let (v, s) := if type = .put then s.read (Bytes.zeros valueLen) else (Bytes.zeros valueLen, s)
        if k = key then some (some ⟨v, decode seq, type⟩, s)
        else if key < k then some (none, s)
        else scanLoop key searchEnd fuel s
      else some (none, s)
    else some (none, s)

/-- `SSTable::get` on the file: the answer, and the table with its stream. -/
def get (t : FileTable) (file : Bytes) (key : Bytes) : Option (Option Entry × FileTable) :=
  if key < t.minKey ∨ t.maxKey < key then some (none, t)
  else if t.bloomFilter.any fun f => !f.contains key then some (none, t)
  else do
    let s := (t.cachedFile.getD (InputStream.ofFile file)).seekg (t.searchRange key).1
    let (entry, s) ← scanLoop key (t.searchRange key).2 (file.length + 1) s
    some (entry, { t with cachedFile := some s })

/-- Lookups one after the other. -/
def getAll (file : Bytes) : FileTable → List Bytes → Option (List (Option Entry))
  | _, [] => some []
  | t, key :: keys => do
    let (entry, t) ← t.get file key
    let entries ← t.getAll file keys
    some (entry :: entries)

/-- The loop of `getData`. -/
def dataLoop (metadataOffset : Nat) : Nat → InputStream → SortedMap Bytes Entry →
    Option (SortedMap Bytes Entry × InputStream)
  | 0, s, data => some (data, s)
  | fuel + 1, s, data =>
    if s.tellg.all (· < metadataOffset) then
      let (seq, s) := s.read (Bytes.zeros 8)
      if s.good then do
        let (type, s) ← s.readExactly 1
        let (keyLen, s) ← readUInt s 4
        let (valueLen, s) ← readUInt s 4
        let (k, s) := s.read (Bytes.zeros keyLen)
        let type := EntryType.ofByte (UInt8.ofNat (decode type))
        let (v, s) := if type = .put then s.read (Bytes.zeros valueLen) else (Bytes.zeros valueLen, s)
        dataLoop metadataOffset fuel s (data.insert k ⟨v, decode seq, type⟩)
      else some (data, s)
    else some (data, s)

/-- `SSTable::getData` on the file: the map, and the table with its stream. -/
def getData (t : FileTable) (file : Bytes) : Option (SortedMap Bytes Entry × FileTable) := do
  let s := (t.cachedFile.getD (InputStream.ofFile file)).seekg 0
  let (data, s) ← dataLoop t.metadataOffset (file.length + 1) s SortedMap.empty
  some (data, { t with cachedFile := some s })

end FileTable

/-! ## Reading a table from front to back

`SSTable::Iterator` has a stream of its own on the table's file, and the entry it has read last. It is valid until the
stream has come to the metadata. Compactions read their inputs through it. -/

/-- `SSTable::Iterator`. -/
structure TableIterator where
  file : InputStream
  dataEnd : Nat
  valid : Bool
  current : SSTableEntry

namespace TableIterator

/-- `readNext`. Only a failure to read the first field ends the iteration. -/
def readNext (it : TableIterator) : Option TableIterator :=
  -- `tellg` of a failed stream is -1, and -1 is below every end
  if it.file.tellg.all (· < it.dataEnd) then
    let (seq, s) := it.file.read (Bytes.zeros 8)
    if s.good then do
      let (type, s) ← s.readExactly 1
      let (keyLen, s) ← readUInt s 4
      let (valueLen, s) ← readUInt s 4
      let (key, s) := s.read (Bytes.zeros keyLen)
      let type := EntryType.ofByte (UInt8.ofNat (decode type))
      -- the value of a tombstone is not read
      let (value, s) := if type = .put then s.read (Bytes.zeros valueLen) else (Bytes.zeros valueLen, s)
      some { it with file := s, valid := true, current := ⟨key, value, decode seq, type⟩ }
    else some { it with file := s, valid := false }
  else some { it with valid := false }

/-- `Iterator(table)`, for a table whose file has its metadata at `metadataOffset`. -/
def construct (file : Bytes) (metadataOffset : Nat) : Option TableIterator :=
  readNext ⟨(InputStream.ofFile file).seekg 0, metadataOffset, false, ⟨[], [], 0, .put⟩⟩

/-- What `valid`, `entry` and `next` say, in turn: the entries that are left. -/
def Yields : TableIterator → List SSTableEntry → Prop
  | it, [] => it.valid = false
  | it, e :: entries => it.valid = true ∧ it.current = e ∧ ∃ it', it.readNext = some it' ∧ Yields it' entries

/-- `next`, `n` times. -/
def nexts : Nat → TableIterator → Option TableIterator
  | 0, it => some it
  | n + 1, it => it.readNext.bind (nexts n)

/-- What `valid` says, and `entry` if there is one. -/
def Shows (it : TableIterator) : Option SSTableEntry → Prop
  | some e => it.valid = true ∧ it.current = e
  | none => it.valid = false

end TableIterator

end KvStorageEngine
