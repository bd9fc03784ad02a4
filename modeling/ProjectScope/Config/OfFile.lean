import ProjectScope.Config.OfJson
import ProjectScope.Error
import ProjectScope.FileSystem.Resolve
import ProjectScope.Json.Reader

/-!
Reading a configuration from a file: the file is opened, its text read as UTF-8, the text read as
JSON, and the value taken leniently.
-/

namespace ProjectScope

namespace FileSystem

/-- The content of the file that a path leads to. A directory can be opened but not read. -/
def content (fs : FileSystem) (p : Path) : Except ConfigFault Bytes :=
  match fs.node p with
  | .error fault => .error (.opening fault)
  | .ok (.file content true) => .ok content
  | .ok (.file _ false) | .ok (.directory false _) => .error (.opening .permissionDenied)
  | .ok (.directory true _) => .error (.reading .isADirectory)
  | .ok .fifo | .ok (.link _) => .ok []

end FileSystem

namespace Config

def ofContent (content : Bytes) : Except ConfigFault Config :=
  match Utf8.decode? content with
  | none => .error (.reading .notText)
  | some text =>
    match Json.read text with
    | .error fault => .error (.parsing fault)
    | .ok v => .ok (ofJson v)

/-- The configuration that a file holds. Whether or not the reading may be suspended between them,
its steps are the same in the same order, the first fault ends it, and it logs nothing; so this
serves both forms. -/
def ofFile (fs : FileSystem) (file : Path) : Except Error Config :=
  (fs.content file >>= ofContent).mapError (.config file)

end Config

end ProjectScope
