import ProjectScope.FileSystem.Resolve
import ProjectScope.Rules

/-!
What is done with one entry that a walk comes by.
-/

namespace ProjectScope

/-- The kinds of entries that a walk tells apart. -/
inductive Kind
  | file
  | link
  | directory
  | other
deriving DecidableEq, Repr

def Node.kind : Node → Kind
  | file _ _ => .file
  | link _ => .link
  | directory _ _ => .directory
  | fifo => .other

namespace Walk

/-- Whether an entry counts as a file. A link counts as what it leads to in the end. -/
def countsAsFile (fs : FileSystem) (path : Path) : Kind → Bool
  | .file => true
  | .link => fs.isFile path
  | _ => false

/-- Decides on one entry, and gives its relative path if it is a file in scope. -/
def visit (fs : FileSystem) (rules : Rules) (root path : Path) (kind : Kind) :
    Logged (Option Path) :=
  if countsAsFile fs path kind then
    match path.relativeTo? root with
    | none => Logged.fail (.outsideRoot root path)
    | some relative => do
      let decision := rules.classify (Utf8.lossy relative.text)
      Logged.emit (.visited relative decision)
      return if decision = .included then some relative else none
  else return none

end Walk

end ProjectScope
