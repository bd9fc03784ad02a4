import ProjectScope.Config.Basic
import ProjectScope.FileSystem.Fault
import ProjectScope.Glob.Scan
import ProjectScope.Json.Token
import ProjectScope.Path
import ProjectScope.Text.Quoted

/-!
Why the files of a project cannot be told.
-/

namespace ProjectScope

inductive ConfigFault
  | opening (fault : FileSystem.Fault)
  | reading (fault : FileSystem.Fault)
  | parsing (fault : Json.Fault)
deriving DecidableEq, Repr

/-- How a directory that cannot be read is come upon. -/
inductive Encounter
  /-- Its entries were asked for. -/
  | listing
  /-- It turned up in a stream of entries. -/
  | stream
deriving DecidableEq, Repr

/-- Why the files of a project cannot be told. -/
inductive Error
  /-- No directory from `start` upward holds a configuration. -/
  | configNotFound (start : Path)
  /-- The path has no absolute form. -/
  | absolutePath (path : Path) (fault : FileSystem.Fault)
  | config (file : Path) (fault : ConfigFault)
  /-- The pattern is no glob, not even when its wildcards are taken as they are. -/
  | pattern (pattern : String) (fault : Glob.Fault)
  | walk (directory : Path) (encounter : Encounter) (fault : FileSystem.Fault)
  /-- A visited path does not lie below the root of the walk. -/
  | outsideRoot (root path : Path)
deriving DecidableEq, Repr

def Error.message : Error → String
  | configNotFound start =>
    "unable to find " ++ Config.fileName ++ " in " ++ Text.Quoted.bytes start.text ++
      " or any parent directory"
  | absolutePath path _ => "unable to resolve absolute path for " ++ Text.Quoted.bytes path.text
  | config file (.opening _) => "unable to open file " ++ Text.Quoted.bytes file.text
  | config file (.reading _) => "unable to read file " ++ Text.Quoted.bytes file.text
  | config file (.parsing _) => "unable to parse file " ++ Text.Quoted.bytes file.text
  | pattern p _ => "unable to compile pattern " ++ Text.Quoted.string p
  | walk directory _ _ =>
    "unable to walk directory tree at " ++ Text.Quoted.bytes directory.text
  | outsideRoot _ _ => "unable to strip path prefix"

end ProjectScope
