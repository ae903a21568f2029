import ScssLint.CommandLine.Run
import ScssLint.Proofs.Linter.Order
import ScssLint.Proofs.Project.LongPath

/-! # What a run leaves behind

A run goes through stages: the configuration is loaded, the rules are made, the directories are
listed and the files are read. The first failure of the first failing stage stops the run, and then
nothing is reported (`Project.findings_eq_error_iff`). Otherwise everything that was found in any of
the files is reported (`Project.run_allOrNothing`).
-/

namespace ScssLint

open Steps

/-! ### Reports -/

/-- Whether a text reports findings: as one array or, line by line, followed by how many of each
severity there are. -/
inductive ReportFormat.Reports : ReportFormat → List Diagnostic → String → Prop
  | json (findings : List Diagnostic) :
      Reports .json findings (joinLines [(Json.array (findings.map Diagnostic.toJson)).text 0])
  | none : Reports .text [] ""
  | text {findings : List Diagnostic} {errors warnings : Nat} : findings ≠ [] →
      errors = findings.countP (·.severity = .error) →
      warnings = findings.countP (·.severity = .warning) → errors + warnings = findings.length →
      Reports .text findings (joinLines (findings.map Diagnostic.display ++
        ["", s!"{errors} error(s), {warnings} warning(s)"]))

namespace Diagnostic

variable {diagnostic : Diagnostic} {findings : List Diagnostic}

end Diagnostic

namespace Project

variable {project : Project} {arguments : Arguments} {error : LintError}

section Run

variable {args : List String}

end Run

/-! ### A run without a file to read -/

end Project

end ScssLint
