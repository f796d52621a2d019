import KvStorageEngine.Lib.Run
import KvStorageEngine.Lib.SortedMap
import KvStorageEngine.Lib.TextStream
import KvStorageEngine.Server.ConnectionHandler

/-!
# `Server.ConfigParser` — the configuration file

`ConfigParser::load` (`server/src/config_parser.cpp`), with the `ServerConfig` it fills (`server/include/tcp_server.h`).

The file is read line by line. A line with a colon has a key and a value; what is done with them depends on how far the
line is indented, on whether it starts with a dash, and on the section that the lines before it have opened. In the
section `peers` the two fields of a peer come on lines of their own, so one of them is kept until the other is there.
-/

namespace KvStorageEngine.Server

/-- `ServerConfig`, without the two fields that neither the file nor the arguments set. -/
structure ServerConfig where
  host : Bytes := Bytes.ascii "127.0.0.1"
  port : Nat := 9000
  numThreads : Int := 4
  dataDir : Bytes := Bytes.ascii "data"
  cacheSize : Nat := 1000
  nodeId : Nat := 0
  role : Bytes := []
  replicationPort : Nat := 0
  peers : List (Bytes × Nat) := []
  deriving DecidableEq

namespace ConfigParser

open Cutting TextStream

/-- `ConfigParser::trim`, which trims the same characters as the protocol does. -/
def trim (s : Bytes) : Bytes := strip ProtocolParser.isTrimmed s

/-- `static_cast` of an `int` to an unsigned type of `w` bits. -/
def toUnsigned (w : Nat) (i : Int) : Nat := (i % ((2 ^ w : Nat) : Int)).toNat

/-! ## Lines -/

/-- What `load` makes of a line that has a colon and is not a comment. -/
structure ConfigLine where
  indent : Nat
  startsWithDash : Bool
  key : Bytes
  value : Bytes
  deriving DecidableEq

/-- The two sides of the first colon. -/
def splitField (s : Bytes) : Bytes × Bytes :=
  match cut 58 s with
  | some (key, value) => (trim key, trim value)
  -- the position behind `npos` is the first one again
  | none => (trim s, trim s)

/-- "Remove quotes". -/
def unquote (value : Bytes) : Bytes :=
  if 2 ≤ value.length ∧ value.head? = some 34 ∧ value.getLast? = some 34 then (value.drop 1).take (value.length - 2)
  else value

def isIndent (b : UInt8) : Bool := b = 32 || b = 9

/-- A line that is skipped gives nothing. -/
def ConfigLine.ofLine (line : Bytes) : Option ConfigLine :=
  let trimmed := trim line
  if trimmed = [] ∨ trimmed.head? = some 35 then none
  else if (58 : UInt8) ∉ trimmed then none
  else
    let startsWithDash := decide (trimmed.head? = some 45)
    let (key, value) := splitField (if startsWithDash then trim (trimmed.drop 1) else trimmed)
    some ⟨(line.takeWhile isIndent).length, startsWithDash, key, unquote value⟩

/-- The line opens a section. -/
def ConfigLine.OpensSection (l : ConfigLine) : Prop := ¬ l.startsWithDash ∧ l.value = [] ∧ l.indent = 0

instance (l : ConfigLine) : Decidable l.OpensSection := inferInstanceAs (Decidable (_ ∧ _))

/-! ## The state between two lines -/

structure State where
  values : SortedMap Bytes Bytes
  peers : List (Bytes × Nat)
  currentSection : Bytes
  inPeersSection : Bool
  inListItem : Bool
  peerHost : Bytes
  peerPort : Nat

namespace State

def init : State := ⟨SortedMap.empty, [], [], false, false, [], 0⟩

/-- The pending peer has a host and a port. -/
def Complete (s : State) : Prop := s.peerHost ≠ [] ∧ s.peerPort ≠ 0

instance (s : State) : Decidable s.Complete := inferInstanceAs (Decidable (_ ∧ _))

/-- `peers.push_back({peerHost, peerPort})`. -/
def pushPeer (s : State) : State := { s with peers := s.peers ++ [(s.peerHost, s.peerPort)] }

def clearPeer (s : State) : State := { s with peerHost := [], peerPort := 0 }

def openSection (s : State) (key : Bytes) : State :=
  -- "Save pending peer before changing sections"
  let s := if s.inPeersSection ∧ s.Complete then s.pushPeer.clearPeer else s
  { s with currentSection := key, inPeersSection := decide (key = Bytes.ascii "peers"), inListItem := false }

/-- A field of a peer; `none` is the exception of `std::stoi`. -/
def peerField (s : State) (key value : Bytes) : Option State :=
  if key = Bytes.ascii "host" then
    -- "Save previous peer if complete"
    let s := if s.Complete then s.pushPeer else s
    some { s with peerHost := value, peerPort := 0 }
  else if key = Bytes.ascii "port" then
    (stoi value).map fun i =>
      let s := { s with peerPort := toUnsigned 16 i }
      -- "Complete the peer"
      if s.peerHost ≠ [] then s.pushPeer.clearPeer else s
  else some s

/-- The key under which a value is kept. -/
def fullKey (currentSection key : Bytes) : Bytes := currentSection ++ Bytes.ascii "." ++ key

/-- A key and a value outside of the peers. -/
def setValue (s : State) (key value : Bytes) : State :=
  if s.currentSection ≠ [] ∧ s.inPeersSection = false then
    { s with values := s.values.insert (fullKey s.currentSection key) value }
  else s

/-- One round of the loop of `load`. -/
def handleLine (s : State) (line : Bytes) : Option State :=
  match ConfigLine.ofLine line with
  | none => some s
  | some l =>
    let s := if l.startsWithDash then { s with inListItem := true } else s
    if l.OpensSection then some (s.openSection l.key)
    else if s.inPeersSection ∧ (l.startsWithDash ∨ s.inListItem ∧ 2 < l.indent) then s.peerField l.key l.value
    else
      let s := s.setValue l.key l.value
      some (if l.indent = 0 ∧ ¬ l.startsWithDash then { s with inListItem := false } else s)

/-- "Save final peer". -/
def finalPeers (s : State) : List (Bytes × Nat) := if s.Complete then s.pushPeer.peers else s.peers

end State

/-! ## The configuration -/

/-- The text of a value, if the file has it. -/
def textValue (values : SortedMap Bytes Bytes) (key : String) (default : Bytes) : Bytes :=
  (values.find? (Bytes.ascii key)).getD default

/-- The number that a value stands for, if the file has it; `none` is the exception of `std::stoi`. -/
def numberValue (values : SortedMap Bytes Bytes) (key : String) (default : Int) : Option Int :=
  match values.find? (Bytes.ascii key) with
  | none => some default
  | some value => stoi value

/-- "Parse config values". The number of threads goes through `size_t` to an `int`. -/
def parseValues (values : SortedMap Bytes Bytes) (peers : List (Bytes × Nat)) : Option ServerConfig := do
  let config : ServerConfig := {}
  let port ← numberValue values "server.port" config.port
  let numThreads ← numberValue values "server.threads" config.numThreads
  let cacheSize ← numberValue values "storage.cache_size" config.cacheSize
  let nodeId ← numberValue values "node.id" config.nodeId
  let replicationPort ← numberValue values "replication.port" config.replicationPort
  some { config with
    host := textValue values "server.host" config.host
    port := toUnsigned 16 port
    numThreads := Int.bmod (toUnsigned 64 numThreads) (2 ^ 32)
    dataDir := textValue values "storage.data_dir" config.dataDir
    cacheSize := toUnsigned 64 cacheSize
    nodeId := toUnsigned 32 nodeId
    role := textValue values "node.role" config.role
    replicationPort := toUnsigned 16 replicationPort
    peers }

/-- `ConfigParser::load`, on the text of a file or on a file that cannot be opened. Without a result on the outside, it
    throws the exception of a `std::stoi`; without one on the inside, it returns `std::nullopt`. -/
def load (file : Option Bytes) : Option (Option ServerConfig) :=
  match file with
  | none => some none
  | some text => do
    let s ← Run.exec State.handleLine State.init (getLines text)
    let config ← parseValues s.values s.finalPeers
    some (some config)

end ConfigParser

example : (ConfigParser.load (some (Bytes.ascii "node:\n  id: 2\npeers:\n  - host: \"a\"\n    port: 9001\n"))).map
    (·.map fun c => (c.nodeId, c.peers)) = some (some (2, [(Bytes.ascii "a", 9001)])) := by decide

end KvStorageEngine.Server
