import KvStorageEngine.Server.ConfigParser

/-!
# `Server.Startup` — from the command line to a server

`main` (`server/src/main.cpp`), up to the construction of the server. The arguments are read twice: the first pass looks
for the configuration file only, the second one passes it over and takes the other options, which override what the file
says. What is printed on the way is left out.
-/

namespace KvStorageEngine.Server

open TextStream

/-- What `main` comes to. -/
inductive Startup where
  | server (config : ServerConfig)
  /-- `--help`: exit code 0. -/
  | usage
  /-- "Unknown argument": exit code 1. -/
  | unknown (arg : Bytes)
  /-- The exception of a `std::stoi`, which nothing catches. -/
  | uncaught
  deriving DecidableEq

namespace Startup

/-- The options that have a value. -/
inductive Setting where
  | config
  | port
  | host
  | threads
  | cache
  | data
  | nodeId
  | role
  deriving DecidableEq, Repr

namespace Setting

/-- The option that an argument names. -/
def ofArg (arg : Bytes) : Option Setting :=
  if arg = Bytes.ascii "-f" ∨ arg = Bytes.ascii "--config" then some .config
  else if arg = Bytes.ascii "-p" ∨ arg = Bytes.ascii "--port" then some .port
  else if arg = Bytes.ascii "-h" ∨ arg = Bytes.ascii "--host" then some .host
  else if arg = Bytes.ascii "-t" ∨ arg = Bytes.ascii "--threads" then some .threads
  else if arg = Bytes.ascii "-c" ∨ arg = Bytes.ascii "--cache" then some .cache
  else if arg = Bytes.ascii "-d" ∨ arg = Bytes.ascii "--data" then some .data
  else if arg = Bytes.ascii "--node-id" then some .nodeId
  else if arg = Bytes.ascii "--role" then some .role
  else none

/-- The number of threads: a `size_t`, in a field that is an `int`. -/
def toThreads (i : Int) : Int := Int.bmod (ConfigParser.toUnsigned 64 i) (2 ^ 32)

/-- What the second pass does with a value; `none` is the exception of `std::stoi`. -/
def assign (setting : Setting) (value : Bytes) (config : ServerConfig) : Option ServerConfig :=
  match setting with
  | .config => some config  -- "Already handled"
  | .port => (stoi value).map fun i => { config with port := ConfigParser.toUnsigned 16 i }
  | .host => some { config with host := value }
  | .threads => (stoi value).map fun i => { config with numThreads := toThreads i }
  | .cache => (stoi value).map fun i => { config with cacheSize := ConfigParser.toUnsigned 64 i }
  | .data => some { config with dataDir := value }
  | .nodeId => (stoi value).map fun i => { config with nodeId := ConfigParser.toUnsigned 32 i }
  | .role => some { config with role := value }

end Setting

/-- "First pass: look for config file argument". -/
def firstPass : List Bytes → Bytes → Bytes
  | arg :: value :: rest, configFile =>
    if Setting.ofArg arg = some .config then firstPass rest value else firstPass (value :: rest) configFile
  | [_], configFile | [], configFile => configFile

/-- The paths that exist, each with its text unless it cannot be opened. -/
abbrev FileSystem := Bytes → Option (Option Bytes)

/-- "search in common locations". -/
def searchPaths : List Bytes :=
  [Bytes.ascii "server.yaml", Bytes.ascii "../server.yaml", Bytes.ascii "../../server.yaml",
    Bytes.ascii "../server/server.yaml"]

/-- The configuration file, where the arguments have named one; the empty path names none. -/
def chosen (files : FileSystem) (named : Bytes) : Bytes :=
  if named = [] then (searchPaths.find? fun path => (files path).isSome).getD [] else named

def configFile (files : FileSystem) (args : List Bytes) : Bytes := chosen files (firstPass args [])

/-- "Load config from file if it exists". A file that cannot be opened leaves the defaults. -/
def fileConfig (files : FileSystem) (path : Bytes) : Option ServerConfig :=
  if path = [] then some {}
  else
    match files path with
    | none => some {}
    | some file => (ConfigParser.load file).map (·.getD {})

/-- "Second pass: CLI arguments override config file". -/
def secondPass : List Bytes → ServerConfig → Startup
  | [], config => .server config
  | arg :: rest, config =>
    if arg = Bytes.ascii "--help" then .usage
    else
      match Setting.ofArg arg, rest with
      | some setting, value :: rest =>
        match setting.assign value config with
        | none => .uncaught
        | some config => secondPass rest config
      | _, _ => .unknown arg

/-- `main`, on the arguments behind the program's name. -/
def main (files : FileSystem) (args : List Bytes) : Startup :=
  match fileConfig files (configFile files args) with
  | none => .uncaught
  | some config => secondPass args config

end Startup

end KvStorageEngine.Server
