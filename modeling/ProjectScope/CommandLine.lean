import ProjectScope.Json.Printer
import ProjectScope.Resolution

/-!
The command line: lists the files of the project around a directory, one a line or as JSON. What is
printed is printed as a whole or not at all.
-/

namespace ProjectScope.CommandLine

/-- What the arguments ask for. -/
structure Options where
  json : Bool := false
  /-- Where the search begins; the working directory if it is not given. -/
  cwd : Option Path := none
deriving DecidableEq, Repr

inductive Request
  | list (options : Options)
  | help
  | misuse
deriving DecidableEq, Repr

/-- Takes an argument as the directory. It may be given once, and not be empty. -/
def withCwd (o : Options) (argument : Bytes) : Option Options :=
  if o.cwd.isNone ∧ argument ≠ [] then some { o with cwd := some ⟨argument⟩ } else none

def hyphen : UInt8 := '-'.toUInt8

/-- The short option that asks for help. Letters after it are further short options, which are no
longer looked at. -/
def shortHelp : Bytes := Utf8.encodeString "-h"

/-- Takes arguments after the options so far. Two hyphens end the options. -/
def parseFrom (o : Options) : (optionsEnded : Bool) → List Bytes → Request
  | _, [] => .list o
  | true, argument :: rest =>
    match withCwd o argument with
    | some o => parseFrom o true rest
    | none => .misuse
  | false, argument :: rest =>
    if argument = [hyphen, hyphen] then parseFrom o true rest
    else if argument = Utf8.encodeString "--json" then
      if o.json then .misuse else parseFrom { o with json := true } false rest
    else if argument = Utf8.encodeString "--help" ∨ shortHelp.isPrefixOf argument then .help
    else if argument.head? = some hyphen ∧ argument ≠ [hyphen] then .misuse
    else
      match withCwd o argument with
      | some o => parseFrom o false rest
      | none => .misuse

/-- What the arguments ask for. -/
def parse (arguments : List Bytes) : Request := parseFrom {} false arguments

/-- How a run ends: its exit code and what it has written to its output. -/
structure Outcome where
  exitCode : Nat
  output : Bytes
deriving DecidableEq, Repr

/-- The list as JSON; fails if a path is not UTF-8. -/
def jsonList? (files : List Path) : Option Bytes :=
  (files.mapM fun p => Utf8.string? p.text).map fun names =>
    Utf8.encode (Json.Printer.strings names ++ ['\n'])

def plainList (files : List Path) : Bytes :=
  Utf8.encode (files.flatMap fun p => Utf8.lossy p.text ++ ['\n'])

def usage : String :=
  "Usage: local [OPTIONS] [CWD]\n\n" ++
  "Arguments:\n" ++
  "  [CWD]  Directory to start searching for tsconfig.json from [default: .]\n\n" ++
  "Options:\n" ++
  "      --json  Print the file list as a JSON array\n" ++
  "  -h, --help  Print help\n"

/-- Does what the options ask for. -/
def list (fs : FileSystem) (o : Options) : Outcome :=
  match (filesAround .blocking fs (o.cwd.getD ⟨Path.dot⟩)).result with
  | .error _ => ⟨1, []⟩
  | .ok files =>
    if o.json then
      match jsonList? files with
      | some output => ⟨0, output⟩
      | none => ⟨1, []⟩
    else ⟨0, plainList files⟩

def run (fs : FileSystem) (arguments : List Bytes) : Outcome :=
  match parse arguments with
  | .list o => list fs o
  | .help => ⟨0, Utf8.encodeString usage⟩
  | .misuse => ⟨2, []⟩

end ProjectScope.CommandLine
