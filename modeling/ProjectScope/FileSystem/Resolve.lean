import ProjectScope.FileSystem.Basic

/-!
What a path leads to. A path is followed segment by segment; a link on the way is replaced by the
path it holds. A double dot leads to the parent in the tree, whatever the text before it. At most
forty links are followed for one path.
-/

namespace ProjectScope.FileSystem

def nameLimit : Nat := 255

/-- A path must be shorter than this. -/
def pathLimit : Nat := 4096

/-- The most links followed for one path. -/
def linkLimit : Nat := 40

/-- What a path asks for at one point. -/
inductive Move
  /-- To stay, in a directory that may be searched. -/
  | stay
  /-- To be in a directory, as a slash at the end asks. -/
  | inDirectory
  | up
  | enter (name : Name)
deriving DecidableEq, Repr

/-- The move that a segment asks for; an empty one asks for none. -/
def moveOf? (segment : Bytes) : Option Move :=
  if segment = [] then none
  else if segment = Path.dot then some .stay
  else if segment = Path.dotDot then some .up
  else some (.enter segment)

/-- The moves that the text of a path asks for. -/
def movesOf (text : Bytes) : List Move :=
  (Path.cut [] [] text).filterMap (fun segment => moveOf? segment.1) ++
    if text.getLast? = some Path.separator then [.inDirectory] else []

/-- Makes moves from the end of a trail. `followLink` goes on from a directory by the text of a link
in it and the moves that are left. -/
def makeMoves (fs : FileSystem)
    (followLink : Trail → Bytes → List Move → Except Fault Trail) :
    Trail → List Move → Except Fault Trail
  | trail, [] => .ok trail
  | trail, move :: moves =>
    match fs.nodeAt trail with
    | .directory searchable entries =>
      if move = .inDirectory then makeMoves fs followLink trail moves
      else if !searchable then .error .permissionDenied
      else
        match move with
        | .stay | .inDirectory => makeMoves fs followLink trail moves
        | .up => makeMoves fs followLink trail.tail moves
        | .enter name =>
          if nameLimit < name.length then .error .nameTooLong
          else
            match entries.lookup name with
            | none => .error .notFound
            | some (.link target) => followLink trail target moves
            | some node => makeMoves fs followLink ((name, node) :: trail) moves
    | _ => .error .notADirectory

/-- Where the text of a path starts from, seen from a directory. -/
def startOf (trail : Trail) (text : Bytes) : Trail :=
  if text.head? = some Path.separator then [] else trail

/-- Makes moves, with so many links still to be followed. -/
def follow (fs : FileSystem) : (links : Nat) → Trail → List Move → Except Fault Trail
  | 0 => fs.makeMoves fun _ _ _ => .error .linkLoop
  | links + 1 => fs.makeMoves fun trail target moves =>
      follow fs links (startOf trail target) (movesOf target ++ moves)

/-- Where a path is followed from: the root, or the working directory if it is still there. -/
def start? (fs : FileSystem) (p : Path) : Option Trail :=
  if p.isAbsolute then some [] else fs.cwdTrail?

/-- The way down to what a path leads to. -/
def resolve (fs : FileSystem) (p : Path) : Except Fault Trail :=
  if p.text.contains 0 then .error .invalidPath
  else if p.text = [] then .error .notFound
  else if pathLimit ≤ p.text.length then .error .nameTooLong
  else
    match fs.start? p with
    | none => .error .notFound
    | some start => fs.follow linkLimit start (movesOf p.text)

/-- A path seen from the working directory. Only a relative path asks where that is. -/
def absolute (fs : FileSystem) (p : Path) : Except Fault Path :=
  match Path.absolute? fs.cwdPath p with
  | none => .error .invalidPath
  | some q => if (fs.start? p).isSome then .ok q else .error .notFound

def node (fs : FileSystem) (p : Path) : Except Fault Node := (fs.resolve p).map fs.nodeAt

def isFile (fs : FileSystem) (p : Path) : Bool :=
  match fs.node p with
  | .ok node => node.isFile
  | .error _ => false

/-- The entries of the directory that a path leads to. -/
def list (fs : FileSystem) (p : Path) : Except Fault (List (Name × Node)) :=
  match fs.node p with
  | .error fault => .error fault
  | .ok (.directory true entries) => .ok entries
  | .ok (.directory false _) => .error .permissionDenied
  | .ok _ => .error .notADirectory

/-- What keeps a directory from being listed by a path that leads to it: the path is too long, or
the directory is not readable. -/
def listingFault? (p : Path) (readable : Bool) : Option Fault :=
  if pathLimit ≤ p.text.length then some .nameTooLong
  else if readable then none
  else some .permissionDenied

/-- The file system seen from the directory that a path leads to. -/
def enter (fs : FileSystem) (p : Path) : Except Fault FileSystem := do
  let trail ← fs.resolve p
  match fs.nodeAt trail with
  | .directory _ _ => return { fs with cwd := namesOf trail }
  | _ => throw .notADirectory

end ProjectScope.FileSystem
