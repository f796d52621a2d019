import KvStorageEngine.Lib.Cutting
import KvStorageEngine.Lib.Bytes

/-!
# `Cli.Client` — the command line client

`cli/internal/client/client.go` and `protocol.go`. The client writes a command as one line, reads the first line that
comes back and takes it apart. Go's `strings.TrimSpace` trims Unicode white space: it decodes the text rune by rune, from
the front and from the end. The encodings of white space are self-delimiting, so a white space rune is decoded exactly
where the bytes of one are.

An error is its text.
-/

namespace KvStorageEngine.Cli

open Cutting

/-! ## Go's strings -/

/-- The UTF-8 encodings of the runes that are white space to `unicode.IsSpace`. -/
def whiteSpace : List Bytes :=
  [[9], [10], [11], [12], [13], [32], [0xC2, 0x85], [0xC2, 0xA0], [0xE1, 0x9A, 0x80], [0xE2, 0x80, 0x80],
    [0xE2, 0x80, 0x81], [0xE2, 0x80, 0x82], [0xE2, 0x80, 0x83], [0xE2, 0x80, 0x84], [0xE2, 0x80, 0x85],
    [0xE2, 0x80, 0x86], [0xE2, 0x80, 0x87], [0xE2, 0x80, 0x88], [0xE2, 0x80, 0x89], [0xE2, 0x80, 0x8A],
    [0xE2, 0x80, 0xA8], [0xE2, 0x80, 0xA9], [0xE2, 0x80, 0xAF], [0xE2, 0x81, 0x9F], [0xE3, 0x80, 0x80]]

/-- `strings.TrimSpace`. -/
def trimSpace (s : Bytes) : Bytes := trimWords whiteSpace s

/-- `strings.SplitN(s, " ", 2)`. -/
def splitN2 (s : Bytes) : List Bytes :=
  match cut 32 s with
  | none => [s]
  | some (a, b) => [a, b]

/-- `bufio.Reader.ReadString('\n')`: the line with its end. -/
def readString (stream : Bytes) : Option (Bytes × Bytes) :=
  (cut 10 stream).map fun (line, rest) => (line ++ [10], rest)

/-! ## The protocol -/

/-- `Response` of `protocol.go`. -/
structure Response where
  success : Bool
  message : Bytes
  value : Bytes
  deriving DecidableEq, Repr

/-- `parseResponse`. -/
def parseResponse (line : Bytes) : Except Bytes Response :=
  let line := trimSpace line
  match line with
  | [] => .error (Bytes.ascii "empty response")
  | 43 :: rest =>
    match splitN2 rest with
    | [status, data] =>
      if status = Bytes.ascii "VALUE" then .ok ⟨true, Bytes.ascii "OK", data⟩ else .ok ⟨true, data, []⟩
    | [status] => .ok ⟨true, status, []⟩
    | _ => .error (Bytes.ascii "malformed response: " ++ line)
  | 45 :: rest =>
    match splitN2 rest with
    | [_, message] => .ok ⟨false, message, []⟩
    | _ => .ok ⟨false, rest, []⟩
  | _ => .error (Bytes.ascii "unknown response format: " ++ line)

/-- `formatCommand`. -/
def formatCommand (cmd : Bytes) : Bytes := cmd ++ Bytes.ascii "\r\n"

/-- The command of `Client.Get`. -/
def getCommand (key : Bytes) : Bytes := Bytes.ascii "GET" ++ Bytes.ascii " " ++ key

/-- The command of `Client.Set`. -/
def setCommand (key value : Bytes) : Bytes := Bytes.ascii "PUT" ++ Bytes.ascii " " ++ key ++ Bytes.ascii " " ++ value

/-! ## A connection -/

/-- `Client.Connect`, on what the server sends; the rest of it is read later. -/
def connect (stream : Bytes) : Except Bytes Bytes :=
  match readString stream with
  | none => .error (Bytes.ascii "failed to read welcome message: EOF")
  | some (welcome, rest) =>
    if (Bytes.ascii "+OK").isPrefixOf welcome then .ok rest
    else .error (Bytes.ascii "unexpected welcome message: " ++ welcome)

/-- The end of `Client.sendCommand`. -/
def readResponse (stream : Bytes) : Except Bytes Response :=
  match readString stream with
  | none => .error (Bytes.ascii "failed to read response: EOF")
  | some (line, _) => parseResponse line

/-- One command on its own connection, as the commands of the CLI do it: `answers` is all the server sends. -/
def exchange (answers : Bytes) : Except Bytes Response := do
  let rest ← connect answers
  readResponse rest

example : parseResponse (Bytes.ascii "+VALUE a b\r\n") = .ok ⟨true, Bytes.ascii "OK", Bytes.ascii "a b"⟩ := by decide

end KvStorageEngine.Cli
