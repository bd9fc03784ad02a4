import ProjectScope.Config.Basic
import ProjectScope.FileSystem.Resolve
import ProjectScope.Form
import ProjectScope.Log

/-!
Finding the configuration file nearest to a directory. The search goes upward by the text of the
path alone: the last component is dropped again and again. What is not a regular file in the end is
passed over.
-/

namespace ProjectScope.Locate

/-- Where a search from a path begins: at the directory of a file, else at the path itself. Both
forms ask just once what the path leads to, and one that leads nowhere is no file to either, so this
serves both. -/
def startOf (fs : FileSystem) (p : Path) : Path :=
  if fs.isFile p then p.parent?.getD ⟨Path.dot⟩ else p

/-- Where a directory would hold its configuration. -/
def candidate (directory : Path) : Path := directory.join (Path.ofString Config.fileName)

/-- The search as one pass over all candidates, of which those after the first hit are not looked
at. -/
def nearest (fs : FileSystem) (p : Path) : Logged (Option Path) :=
  let candidates := (startOf fs p).ancestors.map candidate
  let (passed, rest) := candidates.span fun c => !fs.isFile c
  ⟨(passed ++ rest.take 1).map .lookingFor, .ok rest.head?⟩

def climb (fs : FileSystem) : List Path → Logged (Option Path)
  | [] => pure none
  | directory :: directories => do
    Logged.emit (.lookingFor (candidate directory))
    if fs.isFile (candidate directory) then return some (candidate directory)
    else climb fs directories

/-- The configuration file nearest to an absolute path. -/
def find (form : Form) (fs : FileSystem) (p : Path) : Logged (Option Path) :=
  match form with
  | .blocking => nearest fs p
  | .suspending => climb fs (startOf fs p).ancestors

end Locate

/-- The configuration file of the project that a path lies in. -/
def locate (form : Form) (fs : FileSystem) (cwd : Path) : Logged Path := do
  match fs.absolute cwd with
  | .error fault => Logged.fail (.absolutePath cwd fault)
  | .ok start =>
    match ← Locate.find form fs start with
    | none => Logged.fail (.configNotFound start)
    | some file => return file

end ProjectScope
