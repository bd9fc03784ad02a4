import ProjectScope.FileSystem.Resolve

/-!
Changing the tree of a file system.
-/

namespace ProjectScope

namespace Node

/-- Changes what lies under a name; `none` stands for nothing. -/
def alterEntry (f : Option Node → Option Node) (name : Name) :
    List (Name × Node) → List (Name × Node)
  | [] => ((f none).map fun node => (name, node)).toList
  | (n, node) :: entries =>
    if n = name then ((f (some node)).map fun node => (name, node)).toList ++ entries
    else (n, node) :: alterEntry f name entries

/-- Changes what lies under names, one below the other. What is not in a directory stays as it
is. -/
def alter (f : Option Node → Option Node) : List Name → Node → Node
  | [name], directory readable entries => directory readable (alterEntry f name entries)
  | name :: names, directory readable entries =>
    directory readable (alterEntry (fun node? => node?.map (alter f names)) name entries)
  | _, node => node

/-- Puts one node in the place of another. A directory keeps its entries when another directory
takes its place. -/
def replace (new : Node) : Option Node → Node
  | some (directory _ entries) =>
    match new with
    | directory readable [] => directory readable entries
    | new => new
  | _ => new

end Node

namespace FileSystem

def alter (fs : FileSystem) (f : Option Node → Option Node) (names : List Name) : FileSystem :=
  { fs with root := fs.root.alter f names }

/-- Goes on from a place by one component of a path, making a directory where nothing is. -/
def stepMaking (state : FileSystem × List Name) (c : Path.Component) : FileSystem × List Name :=
  let (fs, names) := state
  match c with
  | .root => (fs, [])
  | .here => (fs, names)
  | .up => (fs, names.dropLast)
  | .name n =>
    match fs.resolve (Path.ofNames (names ++ [n])) with
    | .ok trail => (fs, namesOf trail)
    | .error _ =>
      (fs.alter (fun node? => some (node?.getD .emptyDirectory)) (names ++ [n]), names ++ [n])

/-- Puts a node at a path, making the directories above it. -/
def put (fs : FileSystem) (p : Path) (node : Node) : FileSystem :=
  match p.components.getLast? with
  | some (.name n) =>
    let (fs, names) := p.components.dropLast.foldl stepMaking (fs, fs.cwd)
    fs.alter (fun node? => some (node.replace node?)) (names ++ [n])
  | _ => fs

/-- Takes away what lies at a path, with all beneath it. A link is taken away itself. -/
def remove (fs : FileSystem) (p : Path) : FileSystem :=
  match p.components.getLast? with
  | some (.name n) =>
    match fs.resolve ((p.parent?.getD p).join ⟨Path.dot⟩) with
    | .ok trail => fs.alter (fun _ => none) (namesOf trail ++ [n])
    | .error _ => fs
  | _ => fs

end FileSystem

end ProjectScope
