import ProjectScope.CommandLine
import ProjectScope.FileSystem.Edit

/-!
The program: takes a picture of the part of the disk that its arguments are about, and runs the
command line on it. The picture holds every directory on the way up from the start with its entries,
and the directory of the project with all beneath it.
-/

namespace ProjectScope.Snapshot

/-- A path on disk is shorter than `FileSystem.pathLimit`, so it is no deeper than this. -/
def depthLimit : Nat := FileSystem.pathLimit / 2

/-- The content of a file, if it is one whose content matters. -/
def contentOf (entry : IO.FS.DirEntry) : IO Node := do
  if entry.fileName = Config.fileName then
    try return .file (← IO.FS.readBinFile entry.path).toList true
    catch _ => return .file [] false
  else return .file [] true

/-- Puts a link into the picture, and what it leads to in the end. A link that leads nowhere is
taken to lead to itself. -/
def addLink (fs : FileSystem) (entry : IO.FS.DirEntry) : IO FileSystem := do
  let p := Path.ofString entry.path.toString
  try
    let target := Path.ofString (← IO.FS.realPath entry.path).toString
    let fs := fs.put p (.link target.text)
    match (← entry.path.metadata).type with
    | .file => if fs.isFile target then return fs else return fs.put target (← contentOf entry)
    | .dir => return fs.put target .emptyDirectory
    | _ => return fs
  catch _ => return fs.put p (.link p.text)

/-- Puts an entry into the picture, with what lies beneath it down to a depth. -/
def addEntry : (depth : Nat) → FileSystem → IO.FS.DirEntry → IO FileSystem
  | depth, fs, entry => do
    let p := Path.ofString entry.path.toString
    match (← entry.path.symlinkMetadata).type with
    | .file => return fs.put p (← contentOf entry)
    | .symlink => addLink fs entry
    | .other => return fs.put p .fifo
    | .dir =>
      match depth with
      | 0 => return fs.put p .emptyDirectory
      | depth + 1 =>
        let entries ← try some <$> entry.path.readDir catch _ => pure none
        match entries with
        | none => return fs.put p (.directory false [])
        | some entries => entries.foldlM (addEntry depth) (fs.put p .emptyDirectory)

/-- Puts the entries of a directory into the picture, with what lies beneath them down to a
depth. -/
def addDirectory (depth : Nat) (fs : FileSystem) (directory : Path) : IO FileSystem := do
  let some text := Utf8.string? directory.text | return fs
  let entries ← try ((← IO.currentDir) / text).readDir catch _ => pure #[]
  entries.foldlM (addEntry depth) fs

/-- The picture for a search that begins at a path. -/
def take (start : Path) : IO FileSystem := do
  let here := Path.ofString (← IO.currentDir).toString
  let names := here.components.filterMap fun c =>
    match c with
    | .name n => some n
    | _ => none
  let empty : FileSystem := { root := .emptyDirectory, cwd := [] }
  let fs := { empty.put here .emptyDirectory with cwd := names }
  let above := ((Path.absolute? here start).map Path.ancestors).getD []
  let fs ← (above ++ here.ancestors).foldlM (addDirectory 0) fs
  match (locate .blocking fs start).result with
  | .ok file => addDirectory depthLimit fs (projectDirectory file)
  | .error _ => return fs

end ProjectScope.Snapshot

open ProjectScope in
/-- Lists the files of the project around a directory. -/
def main (arguments : List String) : IO UInt32 := do
  let arguments := arguments.map Utf8.encodeString
  let fs ←
    match CommandLine.parse arguments with
    | .list o => Snapshot.take (o.cwd.getD ⟨Path.dot⟩)
    | _ => pure default
  let outcome := CommandLine.run fs arguments
  (← IO.getStdout).write (ByteArray.mk outcome.output.toArray)
  return UInt32.ofNat outcome.exitCode
