/-!
What can go wrong with a path or a file.
-/

namespace ProjectScope.FileSystem

/-- Why the file system refuses a request. -/
inductive Fault
  | notFound
  | notADirectory
  | isADirectory
  | permissionDenied
  | linkLoop
  | nameTooLong
  /-- The path is empty where it may not be, or holds a zero byte. -/
  | invalidPath
  | notText
deriving DecidableEq, Repr

end ProjectScope.FileSystem
