import ProjectScope.Config.Basic
import ProjectScope.Json.Value

/-!
Configurations and JSON values. The lenient reading never fails: a field of the wrong type counts as
absent. The strict reading refuses such a field, and it also takes a list that gives the fields in
order. `toJson` writes the object that both readings take back.
-/

namespace ProjectScope

open Json (Value)

namespace CompilerOptions

/-- The lenient reading of an object. -/
def ofJson (v : Value) : CompilerOptions := ⟨(v.field? "allowJs").any Value.isTruthy⟩

/-- The strict reading of the field: a Boolean or nothing. -/
def ofField? : Option Value → Option CompilerOptions
  | none => some {}
  | some (.bool b) => some ⟨b⟩
  | some _ => none

def ofJson? : Value → Option CompilerOptions
  | .object fields => ofField? ((Value.object fields).field? "allowJs")
  | .list [] => ofField? none
  | .list [v] => ofField? (some v)
  | _ => none

def toJson (o : CompilerOptions) : Value := .object [("allowJs", .bool o.allowJs)]

end CompilerOptions

namespace Config

/-- The strings of a list; whatever else is in it is dropped. -/
def lenientStrings (v : Option Value) : Option (List String) :=
  (v.bind Value.items?).map fun items => items.filterMap Value.string?

def ofJson (v : Value) : Config where
  files := lenientStrings (v.field? "files")
  includes := lenientStrings (v.field? "include")
  excludes := lenientStrings (v.field? "exclude")
  compilerOptions := ((v.field? "compilerOptions").filter Value.isObject).map CompilerOptions.ofJson

/-- A list of strings, `null` or nothing; fails on all else. -/
def strictStrings? : Option Value → Option (Option (List String))
  | none | some .null => some none
  | some (.list items) => (items.mapM Value.string?).map some
  | some _ => none

/-- Compiler options, `null` or nothing; fails on all else. -/
def strictOptions? : Option Value → Option (Option CompilerOptions)
  | none | some .null => some none
  | some v => (CompilerOptions.ofJson? v).map some

/-- The strict reading of the four fields. -/
def ofFields? (files includes excludes options : Option Value) : Option Config := do
  return ⟨← strictStrings? files, ← strictStrings? includes, ← strictStrings? excludes,
    ← strictOptions? options⟩

def ofJson? : Value → Option Config
  | .object fields =>
    let v := Value.object fields
    ofFields? (v.field? "files") (v.field? "include") (v.field? "exclude")
      (v.field? "compilerOptions")
  | .list items =>
    if items.length ≤ 4 then ofFields? items[0]? items[1]? items[2]? items[3]? else none
  | _ => none

/-- A field with a list of strings, if the list is there. -/
def stringsField (name : String) (ss : Option (List String)) : List (String × Value) :=
  (ss.map fun ss => (name, Value.list (ss.map .string))).toList

/-- The object that a configuration is written as; what is absent is left out. -/
def toJson (c : Config) : Value :=
  .object (stringsField "files" c.files ++ stringsField "include" c.includes ++
    stringsField "exclude" c.excludes ++
    (c.compilerOptions.map fun o => ("compilerOptions", o.toJson)).toList)

end Config

end ProjectScope
