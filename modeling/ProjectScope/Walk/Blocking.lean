import ProjectScope.Text.Order
import ProjectScope.Walk.Visit

/-!
The walk as one stream. The tree below the root is laid out once, every directory before what it
holds and the children of a directory in the order of their names; then the stream is taken entry by
entry. Links are entries like any other and nothing lies beneath them.
-/

namespace ProjectScope.Walk

inductive Item
  | entry (path : Path) (kind : Kind)
  /-- The directory before it cannot be listed. -/
  | unreadable (path : Path) (fault : FileSystem.Fault)
deriving DecidableEq, Repr

mutual

/-- The stretch of the stream that a node at a path makes. -/
def stretch (path : Path) : Node → List Item
  | .file _ _ => [.entry path .file]
  | .fifo => [.entry path .other]
  | .link _ => [.entry path .link]
  | .directory readable entries =>
    .entry path .directory ::
      match FileSystem.listingFault? path readable with
      | some fault => [.unreadable path fault]
      | none => (sortByKey (stretches path entries)).flatMap Prod.snd

/-- The stretches that the entries of a directory make, by their names. -/
def stretches (directory : Path) : List (Name × Node) → List (Name × List Item)
  | [] => []
  | (n, node) :: entries =>
    (n, stretch (directory.joinName n) node) :: stretches directory entries

end

/-- The stream below a directory with these entries. -/
def stream (directory : Path) (entries : List (Name × Node)) : List Item :=
  (sortByKey (stretches directory entries)).flatMap Prod.snd

/-- Takes the stream item by item, up to its end or to a directory that cannot be listed. -/
def collect (fs : FileSystem) (rules : Rules) (root : Path) : List Item → Logged (List Path)
  | [] => pure []
  | .unreadable path fault :: _ => Logged.fail (.walk path .stream fault)
  | .entry path kind :: items => do
    let found ← visit fs rules root path kind
    let others ← collect fs rules root items
    return found.toList ++ others

/-- The files in scope below a root. The root itself must be a directory that can be listed. -/
def blocking (fs : FileSystem) (rules : Rules) (root : Path) : Logged (List Path) :=
  match fs.list root with
  | .error fault => Logged.fail (.walk root .listing fault)
  | .ok entries => collect fs rules root (stream root entries)

end ProjectScope.Walk
