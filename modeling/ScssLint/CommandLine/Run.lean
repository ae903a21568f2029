import ScssLint.CommandLine.Report
import ScssLint.Project.Lint

/-!
# Running the command

The command finds its configuration, checks the files it is given and writes a report.  A run either
reports on all files or, if anything stops it, on none.
-/

namespace ScssLint

/-- What a run leaves behind. -/
structure Outcome where
  /-- `0` if no error was found, `1` if one was, `2` if the run was stopped. -/
  exitCode : Nat
  /-- The text on the output. -/
  output : String
  /-- The text that says why the run was stopped. -/
  complaint : String
deriving DecidableEq, Repr

namespace Outcome

/-- A run that ends well with some output. -/
def success (output : String) : Outcome :=
  ⟨0, output, ""⟩

/-- A run that is stopped. -/
def stopped (message : String) : Outcome :=
  ⟨2, "", s!"error: {message}\n"⟩

/-- A run that reports findings. -/
def reported (format : ReportFormat) (findings : List Diagnostic) : Outcome :=
  ⟨if findings.any Diagnostic.isError then 1 else 0, format.report findings, ""⟩

end Outcome

/-- The help text. -/
def helpText : String := joinLines [
  "SCSS lint rules for comments, nesting and variables",
  "",
  "Usage: horizon-stylelint [OPTIONS] [PATHS]...",
  "",
  "Arguments:",
  "  [PATHS]...  Files or directories to lint [default: .]",
  "",
  "Options:",
  "  -c, --config <CONFIG>  Config file (defaults to the nearest .horizon-stylelint.toml)",
  "      --format <FORMAT>  Output format [default: text] [possible values: text, json]",
  "  -v, --verbose...       More log output (-v, -vv, -vvv); RUST_LOG overrides",
  "      --list-rules       List available rules and exit",
  "  -h, --help             Print help",
  "  -V, --version          Print version"]

/-- The version text. -/
def versionText : String :=
  joinLines ["horizon-stylelint 0.1.0"]

/-- A name in a column of 40 characters, and its description. -/
def ruleLine (name description : String) : String :=
  name ++ String.ofList (List.replicate (40 - name.length) ' ') ++ " " ++ description

/-- The list of all rules. -/
def ruleList : String :=
  joinLines (Rule.registry.map fun (name, description) => ruleLine name description)

namespace LintError

/-- What is said of an error that stops a run: where one is the cause of another, both are named. -/
def complaint (error : LintError) : String :=
  match error with
  | unreadable _ problem => s!"{error.message}: {problem.message}"
  | unlistable _ directory problem =>
      s!"{error.message}: {listingFault directory problem}: {problem.message}"
  | invalidConfig .. => error.message
  | invalidRule _ => s!"invalid rule configuration: {error.message}"

end LintError

namespace Project

/-- The path of the directory in which the command runs. -/
def workingPath (project : Project) : Path :=
  ⟨"/" ++ "/".intercalate project.workingDirectory⟩

/-- The configuration of a run: the one that is named, else the nearest one, else none. -/
def configFor (project : Project) : Option Path → Except LintError Config
  | some path => Config.load project path
  | none => do
      match ← Config.discover project project.workingPath with
      | some (_, config) => return config
      | none => return Config.empty

/-- The findings of a run. -/
def findings (project : Project) (arguments : Arguments) : Except LintError (List Diagnostic) := do
  let config ← project.configFor arguments.config?
  let linter ← (Linter.ofConfig config).mapError .invalidRule
  linter.lintPaths project arguments.paths

/-- Run the command with arguments that have been read. -/
def runWith (project : Project) (arguments : Arguments) : Outcome :=
  if arguments.listRules then
    .success ruleList
  else
    match project.findings arguments with
    | .ok findings => .reported arguments.format findings
    | .error error => .stopped error.complaint

/-- Run the command. -/
def run (project : Project) (arguments : List String) : Outcome :=
  match Arguments.read arguments with
  | .ok arguments => project.runWith arguments
  | .error .help => .success helpText
  | .error .version => .success versionText
  | .error (.usageError error) => .stopped error.message

end Project

end ScssLint
