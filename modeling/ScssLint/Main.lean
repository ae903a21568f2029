import ScssLint.CommandLine.Run

/-!
# The command

Reads from the disk what a run looks at, runs the command on it, and prints what is left behind.
-/

namespace ScssLint

namespace Disk

/-- The spelling of a place on the disk. -/
def spelling (place : List String) : String :=
  "/" ++ "/".intercalate place

/-- Whether something can be done. -/
def succeeds {α : Type} (action : IO α) : IO Bool := do
  try
    let _ ← action
    return true
  catch _ =>
    return false

/-- What may be done with the directory at a place. -/
def accessTo (place : List String) : IO Access := do
  let path ← IO.FS.realPath (spelling place)
  return ⟨← succeeds path.readDir, ← succeeds (path / ".").metadata⟩

/-- Copy what is at a place into a tree: a file with its text, a directory without its entries. -/
def copy (tree : FileTree) (place : List String) : IO FileTree := do
  try
    let path ← IO.FS.realPath (spelling place)
    if ← path.isDir then
      return tree.addDirectory place (← accessTo place)
    else if ← succeeds (IO.FS.readBinFile path) then
      let bytes ← IO.FS.readBinFile path
      return tree.addFile place ((String.fromUTF8? bytes).map String.toList)
    else
      let _ ← path.metadata
      return tree.addFile place none { isReadable := false }
  catch _ =>
    return tree

/-- The kind of an entry of a directory, if it can be looked at. -/
def kindOf? (entry : IO.FS.DirEntry) : IO (Option IO.FS.FileType) := do
  try
    return some (← entry.path.symlinkMetadata).type
  catch _ =>
    return none

/-- Copy what is below a directory into a tree, without what is passed over. -/
partial def copyBelow (tree : FileTree) (place : List String) : IO FileTree := do
  let directory ← IO.FS.realPath (spelling place)
  unless ← succeeds directory.readDir do
    return tree
  let mut tree := tree
  for entry in ← directory.readDir do
    unless isSkippedName entry.fileName do
      let inner := place ++ [entry.fileName]
      match ← kindOf? entry with
      | some .file => tree ← copy tree inner
      | some .dir => tree ← copyBelow (← copy tree inner) inner
      | some _ => pure ()
      -- the directory may be listed but not searched, and then nothing in it can be read
      | none => tree := tree.addFile inner none
  return tree

/-- Copy all that a path leads through, and give the place that it leads to. -/
def copyPath (project : Project) (path : Path) : IO (FileTree × Option (List String)) := do
  let mut tree := project.tree
  let mut place := if path.isAbsolute then [] else project.workingDirectory
  for segment in Path.segments path.spelling.toList do
    unless Path.isIdle segment || segment == ['.', '.'] do
      tree ← copy tree (place ++ [String.ofList segment])
    match Project.step tree place segment with
    | .ok next => place := next
    | .error _ => return (tree, none)
  return (tree, some place)

/-- The part of the disk that a run with some arguments looks at. -/
def projectFor (workingDirectory : List String) (arguments : Arguments) : IO Project := do
  let mut project : Project := ⟨.directory [] (← accessTo []), workingDirectory⟩
  let nearest := project.workingPath.ancestors.map (·.join configFileName)
  for path in project.workingPath :: (arguments.config?.toList ++ nearest) do
    let (tree, _) ← copyPath project path
    project := { project with tree := tree }
  for path in arguments.paths do
    let (tree, place?) ← copyPath project path
    project := { project with tree := tree }
    if let some place := place? then
      if project.isDirectory path then
        project := { project with tree := ← copyBelow project.tree place }
  return project

end Disk

end ScssLint

open ScssLint in
/-- Run the command in the current directory. -/
def main (arguments : List String) : IO UInt32 := do
  let workingDirectory := (← IO.FS.realPath ".").toString.splitOn "/"
  let workingDirectory := workingDirectory.filter (· != "")
  let project ←
    match Arguments.read arguments with
    | .ok arguments => Disk.projectFor workingDirectory arguments
    | .error _ => pure ⟨.directory [], workingDirectory⟩
  let outcome := project.run arguments
  IO.print outcome.output
  IO.eprint outcome.complaint
  return outcome.exitCode.toUInt32
