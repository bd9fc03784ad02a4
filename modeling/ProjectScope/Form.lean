/-!
The two forms of every operation that touches the file system.
-/

namespace ProjectScope

/-- Whether an operation runs to its end, or may be suspended where it waits for the file system. -/
inductive Form
  | blocking
  | suspending
deriving DecidableEq, Repr

end ProjectScope
