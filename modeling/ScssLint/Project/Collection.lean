import ScssLint.Ascending
import ScssLint.Project.FileTree

/-!
# Collecting files

A list of paths stands for the files to be checked: a directory stands for the files of a known kind
below it, and any other path for itself.
-/

namespace ScssLint

/-- Whether files and directories with a name are passed over: hidden ones, and installed
packages. -/
def isSkippedName (name : String) : Bool :=
  name.toList.head? == some '.' || name == "node_modules"

/-- Whether the extension of a path is, in any case, that of a stylesheet or of markup. -/
def isLintable (path : Path) : Bool :=
  match path.extension? with
  | some extension => Dialect.lintableExtensions.any fun known =>
      Text.equalAnyCase known.toList extension.toList
  | none => false

namespace FileTree

mutual

/-- The files in a tree, as lists of names from its top.  Skipped names are left out, but the top
itself has no name to be skipped for. -/
def unskippedFiles : FileTree → List (List String)
  | file .. => [[]]
  | directory entries _ => unskippedFilesOf entries

/-- The files in the entries of a directory. -/
def unskippedFilesOf : List (String × FileTree) → List (List String)
  | [] => []
  | (name, tree) :: rest =>
      (if isSkippedName name then [] else tree.unskippedFiles.map (name :: ·)) ++
        unskippedFilesOf rest

end

mutual

/-- The directories that are listed when a tree is searched for files, as lists of names from its
top: the tree itself and those below it, without skipped names.  A directory is listed before those
in it. -/
def searchedDirectories : FileTree → List (List String)
  | file .. => []
  | directory entries _ => [] :: searchedDirectoriesOf entries

/-- The directories that are listed in the entries of a directory. -/
def searchedDirectoriesOf : List (String × FileTree) → List (List String)
  | [] => []
  | (name, tree) :: rest =>
      (if isSkippedName name then [] else tree.searchedDirectories.map (name :: ·)) ++
        searchedDirectoriesOf rest

end

end FileTree

namespace Project

/-- The files for which a path stands. -/
def expand (project : Project) (path : Path) : List Path :=
  match project.find path with
  | .ok (.directory entries _) =>
      ((FileTree.unskippedFilesOf entries).map (·.foldl Path.join path)).filter isLintable
  | _ => [path]

/-- The files for which some paths stand, each once and in order.  Of several spellings of the same
steps the first one is kept. -/
def collect (project : Project) (paths : List Path) : Ascending Path.compare :=
  .ofList (paths.flatMap project.expand)

/-- The directories that are listed to find the files for which a path stands. -/
def searched (project : Project) (path : Path) : List Path :=
  match project.find path with
  | .ok tree => tree.searchedDirectories.map (·.foldl Path.join path)
  | .error _ => []

/-- The directories that are listed to find the files for which some paths stand, each with its
path. -/
def listings (project : Project) (paths : List Path) : List (Path × Path) :=
  paths.flatMap fun path => (project.searched path).map (path, ·)

end Project

end ScssLint
