/-!
The parts of a project configuration that decide which files are in scope. A list that is absent
differs from an empty one: only when both `files` and `includes` are absent is every source file
included.
-/

namespace ProjectScope

structure CompilerOptions where
  /-- Whether JavaScript files are in scope too. -/
  allowJs : Bool := false
deriving DecidableEq, Repr, Inhabited

structure Config where
  files : Option (List String) := none
  includes : Option (List String) := none
  excludes : Option (List String) := none
  compilerOptions : Option CompilerOptions := none
deriving DecidableEq, Repr, Inhabited

namespace Config

def fileName : String := "tsconfig.json"

def allowsJs (c : Config) : Bool := c.compilerOptions.any CompilerOptions.allowJs

end Config

end ProjectScope
