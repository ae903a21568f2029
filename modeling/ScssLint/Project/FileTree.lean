import ScssLint.Project.Path

/-!
# File trees

A project is a tree of files and directories together with the directory in which a command runs.
A path is followed through the tree step by step, and everything in front of a slash must be a
directory that may be searched.

The tree is what the disk holds while the command runs, for the user who runs it.  Left out are
symbolic links, which a path follows and a search passes over, files that are neither text nor
directory, such as pipes and devices, names that are not UTF-8, and failures of the disk itself.
-/

namespace ScssLint

/-- What the user who runs the command may do with a file or a directory. -/
structure Access where
  /-- Whether a file can be read, or the entries of a directory listed. -/
  isReadable : Bool := true
  /-- Whether paths can lead through a directory. -/
  isSearchable : Bool := true
deriving DecidableEq, Repr

/-- A file or a directory. -/
inductive FileTree where
  /-- A file; it has no text if its bytes are not UTF-8. -/
  | file (text? : Option Text) (access : Access := {})
  /-- A directory, with its entries by name. -/
  | directory (entries : List (String × FileTree)) (access : Access := {})

namespace FileTree

/-- The entries of a directory; a file has none. -/
def entries : FileTree → List (String × FileTree)
  | file .. => []
  | directory entries _ => entries

/-- What may be done with the file or the directory itself. -/
def access : FileTree → Access
  | file _ access => access
  | directory _ access => access

/-- Whether the tree is a file. -/
def isFile : FileTree → Bool
  | file .. => true
  | directory .. => false

/-- What a list of names leads to. -/
def get? (tree : FileTree) : List String → Option FileTree
  | [] => some tree
  | name :: rest => (tree.entries.lookup name).bind (get? · rest)

/-- Change what a list of names leads to; `change` gets what was there.  Missing directories on the
way are made. -/
def update (change : Option FileTree → FileTree) : List String → Option FileTree → FileTree
  | [], old => change old
  | name :: rest, old =>
      let entries := (old.map entries).getD []
      directory ((name, update change rest (entries.lookup name)) ::
        entries.filter (·.1 != name)) ((old.map access).getD {})

/-- Put a file into a tree. -/
def addFile (names : List String) (text? : Option Text) (tree : FileTree)
    (access : Access := {}) : FileTree :=
  update (fun _ => file text? access) names (some tree)

/-- Make a directory in a tree unless something is there. -/
def addDirectory (names : List String) (tree : FileTree) (access : Access := {}) : FileTree :=
  update (·.getD (directory [] access)) names (some tree)

end FileTree

/-- Why a path cannot be read. -/
inductive AccessProblem where
  /-- Nothing is there. -/
  | missing
  /-- Something in front of a slash, or what is to be listed, is a file. -/
  | notDirectory
  /-- A directory on the way may not be searched, or what is at its end may not be read. -/
  | permissionDenied
  /-- A directory has no text. -/
  | isDirectory
  /-- A name, or the whole path, has too many bytes. -/
  | nameTooLong
  /-- The path holds a null character. -/
  | nullCharacter
  /-- The file is not UTF-8. -/
  | notText
deriving DecidableEq, Repr

namespace AccessProblem

/-- What the system says about the problem. -/
def message : AccessProblem → String
  | missing => "No such file or directory (os error 2)"
  | notDirectory => "Not a directory (os error 20)"
  | permissionDenied => "Permission denied (os error 13)"
  | isDirectory => "Is a directory (os error 21)"
  | nameTooLong => "File name too long (os error 36)"
  | nullCharacter => "file name contained an unexpected NUL byte"
  | notText => "stream did not contain valid UTF-8"

end AccessProblem

/-- A file tree and the names that lead to the directory in which a command runs. -/
structure Project where
  tree : FileTree
  workingDirectory : List String

namespace Project

/-- The greatest number of bytes of a name. -/
def nameLimit : Nat := 255

/-- The greatest number of bytes of a path. -/
def pathLimit : Nat := 4095

/-- Follow one segment of a path from a place in the tree.  A slash at the end of a path asks for a
directory; whatever else follows a slash is looked up in it. -/
def step (tree : FileTree) (place : List String) (segment : Text) :
    Except AccessProblem (List String) :=
  match tree.get? place with
  | some (.directory entries access) =>
      if segment = [] then
        .ok place
      else if access.isSearchable = false then
        .error .permissionDenied
      else if segment = ['.'] then
        .ok place
      else if segment = ['.', '.'] then
        .ok place.dropLast
      else if nameLimit < Text.bytes segment then
        .error .nameTooLong
      else if (entries.lookup (String.ofList segment)).isSome then
        .ok (place ++ [String.ofList segment])
      else
        .error .missing
  | some (.file ..) => .error .notDirectory
  | none => .error .missing

/-- The place to which a path leads, as names from the top of the tree. -/
def resolve (project : Project) (path : Path) : Except AccessProblem (List String) :=
  let spelling := path.spelling.toList
  if '\x00' ∈ spelling then
    .error .nullCharacter
  else if spelling = [] then
    .error .missing
  else if pathLimit < Text.bytes spelling then
    .error .nameTooLong
  else
    let start := if path.isAbsolute then [] else project.workingDirectory
    (Path.segments spelling).foldlM (step project.tree) start

/-- What is at the end of a path. -/
def find (project : Project) (path : Path) : Except AccessProblem FileTree := do
  match project.tree.get? (← project.resolve path) with
  | some tree => return tree
  | none => throw .missing

/-- Whether a path leads to a directory. -/
def isDirectory (project : Project) (path : Path) : Bool :=
  match project.find path with
  | .ok (.directory ..) => true
  | _ => false

/-- Whether a path leads to a file. -/
def isFile (project : Project) (path : Path) : Bool :=
  match project.find path with
  | .ok (.file ..) => true
  | _ => false

/-- The entries of the directory to which a path leads. -/
def list (project : Project) (path : Path) : Except AccessProblem (List (String × FileTree)) := do
  match ← project.find path with
  | .file .. => throw .notDirectory
  | .directory entries access =>
      if access.isReadable then return entries else throw .permissionDenied

/-- The text of the file to which a path leads. -/
def readText (project : Project) (path : Path) : Except AccessProblem Text := do
  let tree ← project.find path
  if tree.access.isReadable = false then
    throw .permissionDenied
  match tree with
  | .file (some text) _ => return text
  | .file none _ => throw .notText
  | .directory .. => throw .isDirectory

end Project

end ScssLint
