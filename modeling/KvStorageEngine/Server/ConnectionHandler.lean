import KvStorageEngine.Lib.Cutting
import KvStorageEngine.Server.TcpServer

/-!
# `Server.ConnectionHandler` — the text protocol of a standalone server

`ProtocolParser`, `Response::serialize` and `ConnectionHandler` (`server/src/connection_handler.cpp`,
`server/src/protocol.cpp`), with `TcpServer::executeCommand` of a node that is neither leader nor follower.

A command is a line. It is trimmed of blanks, tabs and line ends, cut at its first blank, and what is behind is trimmed
again; the key of a PUT reaches up to the next blank, the key of a GET or a DELETE to the end. `readLine` gives up a
connection whose buffer gets too long, and the loop of `run` around it goes on until then or until QUIT.
-/

namespace KvStorageEngine.Server

open Cutting

/-! ## Requests -/

namespace ProtocolParser

/-- The characters in `" \t\r\n"`. -/
def isTrimmed (b : UInt8) : Bool := b = 32 || b = 9 || b = 13 || b = 10

/-- `ProtocolParser::trim`. -/
def trim (s : Bytes) : Bytes := strip isTrimmed s

/-- `std::toupper`. -/
def toUpper (b : UInt8) : UInt8 := if 97 ≤ b ∧ b ≤ 122 then b - 32 else b

/-- `ProtocolParser::parseCommand`. -/
def parseCommand (cmd : Bytes) : CommandType :=
  let upper := cmd.map toUpper
  if upper = Bytes.ascii "PUT" ∨ upper = Bytes.ascii "SET" then .put
  else if upper = Bytes.ascii "GET" then .get
  else if upper = Bytes.ascii "DELETE" ∨ upper = Bytes.ascii "DEL" then .delete
  else if upper = Bytes.ascii "PING" then .ping
  else if upper = Bytes.ascii "QUIT" ∨ upper = Bytes.ascii "EXIT" then .quit
  else .unknown

/-- The command and the rest of a trimmed line. -/
def splitCommand (trimmed : Bytes) : Bytes × Bytes :=
  match cut 32 trimmed with
  | none => (trimmed, [])
  | some (cmdStr, rest) => (cmdStr, trim rest)

/-- `ProtocolParser::parse`. -/
def parse (line : Bytes) : Option Request :=
  let trimmed := trim line
  if trimmed = [] then none
  else
    let (cmdStr, rest) := splitCommand trimmed
    let type := parseCommand cmdStr
    match type with
    | .put =>
      match cut 32 rest with
      | none => none
      | some (key, value) => if key = [] ∨ trim value = [] then none else some ⟨type, key, trim value⟩
    | .get | .delete => if rest = [] then none else some ⟨type, rest, []⟩
    | .ping | .quit | .status | .unknown => some ⟨type, [], []⟩

end ProtocolParser

/-! ## Responses -/

/-- `Response::serialize`. -/
def Response.serialize (r : Response) : Bytes :=
  match r.value with
  | some value => Bytes.ascii "+VALUE " ++ value ++ Bytes.ascii "\r\n"
  | none =>
    if r.success then Bytes.ascii "+OK " ++ Bytes.ascii r.message ++ Bytes.ascii "\r\n"
    else Bytes.ascii "-ERR " ++ Bytes.ascii r.message ++ Bytes.ascii "\r\n"

/-! ## A standalone node -/

/-- What `executeCommand` reads and writes. -/
structure Standalone where
  nodeId : Nat
  activeConnections : Nat
  /-- Whether the engine takes writes; it does until it is shut down. -/
  accepting : Bool
  engine : MapState

/-- A write, if the engine takes it. -/
def Standalone.write (s : Standalone) (w : KeyedWrites.Write Bytes Bytes) : Standalone :=
  if s.accepting then { s with engine := w.apply s.engine } else s

/-- The answer to STATUS. -/
def Standalone.status (s : Standalone) : Response :=
  Response.okWithValue (Bytes.ascii "Node ID: " ++ Bytes.toDecimal s.nodeId ++
    Bytes.ascii "\nRole: STANDALONE\nActive Connections: " ++ Bytes.toDecimal s.activeConnections)

/-- `TcpServer::executeCommand`, without a role. -/
def Standalone.executeCommand (s : Standalone) (req : Request) : Standalone × Response :=
  match req.type with
  | .put => (s.write (putWrite req.key req.value),
      if s.accepting then Response.ok "STORED" else Response.error "STORE_FAILED")
  | .get => (s, getResponse (s.engine req.key))
  | .delete => (s.write (delWrite req.key), delResponse (s.engine req.key).isSome)
  | .ping => (s, Response.ok "PONG")
  | .quit => (s, Response.ok "BYE")
  | .status => (s, s.status)
  | .unknown => (s, Response.error "UNKNOWN_COMMAND")

/-! ## A connection -/

/-- `MAX_BUFFER_SIZE`. -/
def maxBufferSize : Nat := 1024 * 1024

/-- One connection of a standalone server. -/
structure ConnectionHandler where
  server : Standalone
  /-- `read_buffer_`. -/
  readBuffer : Bytes
  /-- Whether `run` has left its loop. -/
  closed : Bool
  /-- What has been sent to the client. -/
  output : Bytes
  /-- History: what `parse` made of the lines so far. -/
  requests : List (Option Request)

namespace ConnectionHandler

/-- The byte that `readLine` looks for. -/
def isNewline (b : UInt8) : Bool := b = 10

/-- What `readLine` does to the end of a line. -/
def popReturn (line : Bytes) : Bytes := if line.getLast? = some 13 then line.dropLast else line

def init (server : Standalone) : ConnectionHandler :=
  ⟨server, [], false, Bytes.ascii "+OK KV-Storage-Engine ready\r\n", []⟩

def respond (h : ConnectionHandler) (response : Response) : ConnectionHandler :=
  { h with output := h.output ++ response.serialize }

/-- One round of the loop of `run`, for a line without its end. -/
def handleLine (h : ConnectionHandler) (line : Bytes) : ConnectionHandler :=
  if h.closed then h
  else
    let reqOpt := ProtocolParser.parse (popReturn line)
    let h := { h with requests := h.requests ++ [reqOpt] }
    match reqOpt with
    | none => h.respond (Response.error "INVALID_COMMAND")
    | some req =>
      let (server, response) := h.server.executeCommand req
      { h with server, closed := decide (req.type = CommandType.quit) }.respond response

/-- The bytes that one `recv` gets: if the buffer has not become too long, the lines in it are handled. -/
def receive (h : ConnectionHandler) (chunk : Bytes) : ConnectionHandler :=
  if h.closed then h
  else
    let buffer := h.readBuffer ++ chunk
    if maxBufferSize < buffer.length then { h with readBuffer := buffer, closed := true }
    else
      let (lines, rest) := LineFraming.split isNewline buffer
      lines.foldl handleLine { h with readBuffer := rest }

/-- `ConnectionHandler::run`, on what `recv` returns until the client hangs up. -/
def run (server : Standalone) (chunks : List Bytes) : ConnectionHandler := chunks.foldl receive (init server)

end ConnectionHandler

/-! ## One line at a time -/

/-- `readLine` on its own: the buffer, and what `recv` returns until the client hangs up. A `recv` that is interrupted
    is tried again. -/
structure LineReader where
  /-- `read_buffer_`. -/
  readBuffer : Bytes
  pending : List Bytes

namespace LineReader

/-- The most that one `recv` gets: the size of `buf`. -/
def recvSize : Nat := 4096

/-- The line in front of the first `'\n'` in the buffer, and the buffer behind it. -/
def takeLine (readBuffer : Bytes) (pending : List Bytes) : Option (Bytes × LineReader) :=
  (cut 10 readBuffer).map fun (line, rest) => (ConnectionHandler.popReturn line, ⟨rest, pending⟩)

/-- The loop of `readLine`. -/
def readLoop (readBuffer : Bytes) : List Bytes → Option Bytes × LineReader
  | [] =>
    match takeLine readBuffer [] with
    | some (line, r) => (some line, r)
    | none => (none, ⟨readBuffer, []⟩)
  | chunk :: pending =>
    match takeLine readBuffer (chunk :: pending) with
    | some (line, r) => (some line, r)
    | none =>
      -- nothing is what `recv` gets when the client has hung up
      if chunk = [] then (none, ⟨readBuffer, chunk :: pending⟩)
      else if maxBufferSize < (readBuffer ++ chunk).length then (none, ⟨readBuffer ++ chunk, pending⟩)
      else readLoop (readBuffer ++ chunk) pending

/-- `ConnectionHandler::readLine`. -/
def readLine (r : LineReader) : Option Bytes × LineReader :=
  if maxBufferSize < r.readBuffer.length then (none, r) else readLoop r.readBuffer r.pending

/-- What the call after `n` others returns. -/
def nthLine : Nat → LineReader → Option Bytes
  | 0, r => r.readLine.1
  | n + 1, r => nthLine n r.readLine.2

end LineReader

example : ProtocolParser.parse (Bytes.ascii " put a  b c\r") = some ⟨.put, Bytes.ascii "a", Bytes.ascii "b c"⟩ := by
  decide

end KvStorageEngine.Server
