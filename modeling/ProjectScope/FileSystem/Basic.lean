import ProjectScope.FileSystem.Fault
import ProjectScope.Path

/-!
A file system as a tree. A directory holds its entries in no particular order, as it would list
them. Links are not part of the tree: they hold the text of a path.
-/

namespace ProjectScope

/-- An entry of a directory, with all that lies beneath it. -/
inductive Node
  | file (content : Bytes) (readable : Bool)
  | fifo
  | link (target : Bytes)
  /-- A directory. One bit stands for the permissions to list it and to search it: one that is not
  readable can neither be listed nor searched, and a directory that grants just one of the two has
  no form here. -/
  | directory (readable : Bool) (entries : List (Name × Node))
deriving Inhabited

namespace Node

def isFile : Node → Bool
  | file _ _ => true
  | _ => false

def entry? (name : Name) : Node → Option Node
  | directory _ entries => entries.lookup name
  | _ => none

def emptyDirectory : Node := directory true []

end Node

/-- A way down from the root: the name and the node of each step, the last step first. -/
abbrev Trail := List (Name × Node)

/-- A tree and the directory in it that relative paths start from. -/
structure FileSystem where
  root : Node
  /-- The names that lead from the root to the working directory. -/
  cwd : List Name
deriving Inhabited

namespace FileSystem

/-- Goes down by names, through directories only. -/
def descend? (trail : Trail) (node : Node) : List Name → Option Trail
  | [] => some trail
  | n :: names =>
    match node.entry? n with
    | some child => descend? ((n, child) :: trail) child names
    | none => none

/-- The way down to the working directory, if it is still there. -/
def cwdTrail? (fs : FileSystem) : Option Trail := descend? [] fs.root fs.cwd

def cwdPath (fs : FileSystem) : Path := Path.ofNames fs.cwd

def nodeAt (fs : FileSystem) (trail : Trail) : Node :=
  match trail with
  | [] => fs.root
  | (_, node) :: _ => node

/-- The names that a trail passes, from the root down. -/
def namesOf (trail : Trail) : List Name := (trail.map Prod.fst).reverse

end FileSystem

end ProjectScope
