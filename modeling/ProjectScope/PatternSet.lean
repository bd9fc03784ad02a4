import ProjectScope.Config.Basic

/-!
The glob patterns that a configuration stands for. An entry that ends in an asterisk is used as
written. Any other entry may name a directory: it stands for itself and for what lies beneath it at
any depth with one of the extensions in scope. A literal file name stands for itself alone.
-/

namespace ProjectScope

/-- The extensions that are always in scope. -/
def typescriptExtensions : List String := [".d.ts", ".ts", ".tsx"]

/-- The extensions that are in scope only on request. -/
def javascriptExtensions : List String := [".js", ".jsx"]

/-- The extensions in scope for a configuration, in order. -/
def Config.extensions (c : Config) : List String :=
  typescriptExtensions ++ if c.allowsJs then javascriptExtensions else []

namespace Entry

/-- Drops every `./` at the start. -/
def dropDots : List Char → List Char
  | '.' :: '/' :: rest => dropDots rest
  | cs => cs

/-- A backslash separates segments as a slash does. -/
def unifySlash (c : Char) : Char := if c = '\\' then '/' else c

/-- The spelling of an entry that patterns are made from. -/
def normalize (entry : String) : String := String.ofList (dropDots (entry.toList.map unifySlash))

/-- The characters that a literal name has to escape. -/
def isSpecial (c : Char) : Bool := c == '*' || c == '?' || c == '[' || c == ']'

/-- The pattern that matches only the name itself. -/
def escapeLiteral (entry : String) : String :=
  String.ofList (entry.toList.flatMap fun c => if isSpecial c then ['\\', c] else [c])

/-- The characters of an entry without one slash at its end. -/
def base (entry : String) : List Char :=
  if entry.toList.getLast? = some '/' then entry.toList.dropLast else entry.toList

/-- Whatever has one of the extensions, at any depth. -/
def anywhere (extensions : List String) : List String := extensions.map ("**/*" ++ ·)

/-- The pattern for what has an extension and lies beneath a base. -/
def beneath (base : List Char) (extension : String) : String :=
  String.ofList (base ++ "/**/*".toList ++ extension.toList)

/-- The patterns that an entry stands for. An entry that names the directory of the project stands
for everything in it. -/
def expand (entry : String) (extensions : List String) : List String :=
  if entry.toList.getLast? = some '*' then [entry]
  else
    let base := base entry
    if base = [] ∨ base = ['.'] then anywhere extensions
    else String.ofList base :: extensions.map (beneath base)

end Entry

/-- Patterns to include and patterns to exclude, in the order of the entries they come from. -/
structure PatternSet where
  includes : List String
  excludes : List String
deriving DecidableEq, Repr

namespace PatternSet

/-- The extensions of excluded entries: everything beneath them is meant. -/
def anyExtension : List String := [""]

def includesOf (c : Config) (extensions : List String) : List String :=
  match c.files, c.includes with
  | none, none => Entry.anywhere extensions
  | files, includes =>
    (files.getD []).map (fun file => Entry.escapeLiteral (Entry.normalize file)) ++
      (includes.getD []).flatMap fun entry => Entry.expand (Entry.normalize entry) extensions

def excludesOf (c : Config) : List String :=
  (c.excludes.getD []).flatMap fun entry => Entry.expand (Entry.normalize entry) anyExtension

def withExtensions (c : Config) (extensions : List String) : PatternSet :=
  ⟨includesOf c extensions, excludesOf c⟩

def ofConfig (c : Config) : PatternSet := withExtensions c c.extensions

end PatternSet

end ProjectScope
