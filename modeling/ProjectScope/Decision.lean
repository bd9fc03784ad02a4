/-!
What becomes of a file.
-/

namespace ProjectScope

/-- Whether a file is in scope, and if not, why. -/
inductive Decision
  | excluded
  | notIncluded
  | included
deriving DecidableEq, Repr

def Decision.word : Decision → String
  | excluded => "Excluded"
  | notIncluded => "NotIncluded"
  | included => "Included"

end ProjectScope
