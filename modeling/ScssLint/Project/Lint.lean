import ScssLint.Linter
import ScssLint.Project.Collection

/-!
# Linting a project

Configurations and sources are read from the files of a project.
-/

namespace ScssLint

/-- The name of a configuration file. -/
def configFileName : String := ".horizon-stylelint.toml"

/-- What stops a run.  Problems that the rules find do not. -/
inductive LintError where
  /-- A file cannot be read. -/
  | unreadable (path : Path) (problem : AccessProblem)
  /-- A path leads to a directory, but this one, or one below it, cannot be listed. -/
  | unlistable (path directory : Path) (problem : AccessProblem)
  /-- A file is no configuration. -/
  | invalidConfig (path : Path) (fault : TextFault)
  /-- The configuration of a rule is wrong. -/
  | invalidRule (error : RuleError)

namespace LintError

/-- What is said of a directory that cannot be listed. -/
def listingFault (directory : Path) (problem : AccessProblem) : String :=
  s!"IO error for operation on {directory.spelling}: {problem.message}"

/-- What is said of an error. -/
def message : LintError → String
  | unreadable path problem => s!"Failed to read '{path.spelling}': {problem.message}"
  | unlistable path directory problem =>
      s!"Failed to walk '{path.spelling}': {listingFault directory problem}"
  | invalidConfig path _ => s!"Failed to parse config '{path.spelling}'"
  | invalidRule error => error.message

end LintError

namespace Config

/-- The configuration in a file. -/
def load (project : Project) (path : Path) : Except LintError Config := do
  let text ← (project.readText path).mapError (.unreadable path)
  (ofText text).mapError (.invalidConfig path)

/-- The nearest configuration file in a directory or in one of those that its path names. -/
def find? (project : Project) (start : Path) : Option Path :=
  (start.ancestors.map (·.join configFileName)).find? project.isFile

/-- The nearest configuration file and what it holds, if there is one. -/
def discover (project : Project) (start : Path) : Except LintError (Option (Path × Config)) :=
  match find? project start with
  | none => .ok none
  | some path => do return some (path, ← load project path)

end Config

namespace Project

/-- The files for which some paths stand, in order, if all directories below them can be listed.  A
directory is listed by its whole path, which can be too long even where the path above it is not. -/
def gather (project : Project) (paths : List Path) :
    Except LintError (Ascending Path.compare) := do
  let _ ← (project.listings paths).mapM fun (path, directory) =>
    (project.list directory).mapError (.unlistable path directory)
  return project.collect paths

end Project

namespace Linter

/-- The findings in a file. -/
def lintFile (linter : Linter) (project : Project) (path : Path) :
    Except LintError (List Diagnostic) := do
  let source ← (project.readText path).mapError (.unreadable path)
  return linter.lintSource path source

/-- The findings in all files for which some paths stand, in the order of the files. -/
def lintPaths (linter : Linter) (project : Project) (paths : List Path) :
    Except LintError (List Diagnostic) := do
  let files ← project.gather paths
  return (← files.items.mapM (linter.lintFile project)).flatten

end Linter

end ScssLint
