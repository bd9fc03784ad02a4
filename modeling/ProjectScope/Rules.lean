import ProjectScope.Matcher
import ProjectScope.PatternSet

/-!
The rules of one resolution: which paths are in scope.
-/

namespace ProjectScope

/-- Patterns to include and to exclude, ready for matching. -/
structure Rules where
  includes : List Matcher
  excludes : List Matcher

namespace Rules

/-- Makes the patterns of a set ready, those to include first. -/
def compile (patterns : PatternSet) : Logged Rules := do
  let includes ← Matcher.compileAll patterns.includes
  let excludes ← Matcher.compileAll patterns.excludes
  return ⟨includes, excludes⟩

/-- Decides on a path. What is excluded is so whether or not it is included as well. -/
def classify (rules : Rules) (text : List Char) : Decision :=
  if rules.excludes.any (·.accepts text) then .excluded
  else if rules.includes.any (·.accepts text) then .included
  else .notIncluded

end Rules

end ProjectScope
