import ScssLint.CommandLine.Arguments
import ScssLint.CommandLine.Json
import ScssLint.Diagnostic

/-!
# Reports

Findings are reported as lines of text with a count at the end, or as a JSON array.
-/

namespace ScssLint

namespace Diagnostic

/-- A finding as JSON. -/
def toJson (diagnostic : Diagnostic) : Json :=
  .object [
    ("rule", .string diagnostic.rule),
    ("message", .string diagnostic.message),
    ("severity", .string diagnostic.severity.name),
    ("location", .object [
      ("file", .string diagnostic.location.file),
      ("line", .number diagnostic.location.line),
      ("column", .number diagnostic.location.column),
      ("offset", .number diagnostic.location.offset)])]

end Diagnostic

/-- The line that counts findings. -/
def countLine (findings : List Diagnostic) : String :=
  let errors := findings.countP Diagnostic.isError
  s!"{errors} error(s), {findings.length - errors} warning(s)"

/-- Lines of text, each with its end. -/
def joinLines (lines : List String) : String :=
  String.join (lines.map (· ++ "\n"))

namespace ReportFormat

/-- The report of some findings. -/
def report (findings : List Diagnostic) : ReportFormat → String
  | text =>
      let count := if findings.isEmpty then [] else ["", countLine findings]
      joinLines (findings.map Diagnostic.display ++ count)
  | json => joinLines [(Json.array (findings.map Diagnostic.toJson)).text 0]

end ReportFormat

end ScssLint
