import ProjectScope.Config.OfFile
import ProjectScope.Locate
import ProjectScope.Text.Order
import ProjectScope.Walk.Blocking
import ProjectScope.Walk.Suspending

/-!
The files of a project: those that its configuration puts in scope, as paths relative to the
directory of the project, in the order in which a walk comes by them.
-/

namespace ProjectScope

/-- The files in scope below a root. -/
def Walk.run (form : Form) (fs : FileSystem) (rules : Rules) (root : Path) : Logged (List Path) :=
  match form with
  | .blocking => Walk.blocking fs rules root
  | .suspending => Walk.suspending fs rules root

/-- Makes the rules of a configuration ready. -/
def Config.rules (c : Config) : Logged Rules := do
  Logged.emit (.extensions c.extensions)
  let patterns := PatternSet.ofConfig c
  Logged.emit (.includePatterns patterns.includes)
  Logged.emit (.excludePatterns patterns.excludes)
  Rules.compile patterns

/-- The files below a root that a configuration puts in scope. -/
def filesOfConfig (form : Form) (fs : FileSystem) (c : Config) (root : Path) :
    Logged (List Path) := do
  let rules ← c.rules
  let files ← Walk.run form fs rules root
  Logged.emit (.matched files.length root)
  return files

/-- The directory of the project that a configuration file belongs to. -/
def projectDirectory (file : Path) : Path := file.parent?.getD ⟨Path.dot⟩

/-- The files of the project that a configuration file belongs to. -/
def filesOfProject (form : Form) (fs : FileSystem) (file : Path) : Logged (List Path) := do
  let c ← Logged.ofExcept (Config.ofFile fs file)
  filesOfConfig form fs c (projectDirectory file)

/-- The files of the project that a path lies in. -/
def filesAround (form : Form) (fs : FileSystem) (cwd : Path) : Logged (List Path) := do
  let file ← locate form fs cwd
  Logged.emit (.found file)
  filesOfProject form fs file

namespace Projects

/-- Finds the configuration files for paths, in order. -/
def locateAll (fs : FileSystem) : List Path → Logged (List Path)
  | [] => pure []
  | cwd :: cwds => do
    let file ← locate .blocking fs cwd
    let files ← locateAll fs cwds
    return file :: files

/-- Drops what is the same path as an earlier one. -/
def distinct : List Path → List Path
  | [] => []
  | p :: ps => p :: (distinct ps).filter fun q => !p.sameAs q

/-- The files of each project, next to the directory of the project. -/
def resolveAll (fs : FileSystem) : List Path → Logged (List (Path × List Path))
  | [] => pure []
  | file :: files => do
    let inScope ← filesOfProject .blocking fs file
    let others ← resolveAll fs files
    return (projectDirectory file, inScope) :: others

end Projects

/-- The files of every project that one of the paths lies in, by the directory of the project and in
the order of these directories. Paths for which the same file is located share one entry. -/
def filesByProject (fs : FileSystem) (cwds : List Path) : Logged (List (Path × List Path)) := do
  let files ← Projects.locateAll fs cwds
  let projects ← Projects.resolveAll fs (Projects.distinct files)
  return (sortByKey (projects.map fun project => (project.1.text, project))).map Prod.snd

end ProjectScope
