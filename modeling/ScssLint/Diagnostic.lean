import ScssLint.Source.LineIndex
import ScssLint.Source.Root
import ScssLint.Stylesheet.Outline

/-!
# Diagnostics

A diagnostic reports a problem of a rule at a place in a file.  Rules look at one stylesheet of a
file at a time; a `Site` is all that they see, and it turns their offsets into places in the file.
-/

namespace ScssLint

/-- How bad a problem is.  Only errors make a run fail. -/
inductive Severity where
  | warning
  | error
deriving DecidableEq, Repr

namespace Severity

/-- The name of a severity. -/
def name : Severity → String
  | warning => "warning"
  | error => "error"

/-- Errors are above warnings. -/
def rank : Severity → Nat
  | warning => 0
  | error => 1

end Severity

/-- A place in a file. -/
structure Location where
  /-- The path of the file as it was given. -/
  file : String
  /-- Counted from one. -/
  line : Nat
  /-- Counted from one, in characters. -/
  column : Nat
  /-- The byte offset in the file. -/
  offset : Nat
deriving DecidableEq, Repr

/-- A problem that a rule found. -/
structure Diagnostic where
  /-- The name of the rule. -/
  rule : String
  message : String
  severity : Severity
  location : Location
deriving DecidableEq, Repr

namespace Diagnostic

/-- Whether the problem makes a run fail. -/
def isError (diagnostic : Diagnostic) : Bool :=
  diagnostic.severity == .error

/-- The diagnostic as one line of text. -/
def display (diagnostic : Diagnostic) : String :=
  let location := diagnostic.location
  s!"{location.file}:{location.line}:{location.column}: {diagnostic.severity.name}: " ++
    s!"{diagnostic.message} ({diagnostic.rule})"

end Diagnostic

/-- One stylesheet of a file, with all that a rule needs to know about it. -/
structure Site where
  /-- The path of the file as it was given. -/
  file : String
  /-- The text of the whole file. -/
  source : Text
  /-- The lines of the whole file. -/
  lines : LineIndex
  root : Root
  /-- The tree of the root's text. -/
  sheet : Stylesheet

namespace Site

/-- The site of a root in a file. -/
def ofRoot (file : String) (source : Text) (root : Root) : Site where
  file := file
  source := source
  lines := LineIndex.ofText source
  root := root
  sheet := Stylesheet.ofText root.text

/-- The sites of a file. -/
def ofSource (file : String) (source : Text) (dialect : Dialect) : List Site :=
  (Root.ofSource source dialect).map (ofRoot file source)

/-- The place in the file of an offset in the root. -/
def locate (site : Site) (offset : Nat) : Location :=
  let offset := site.root.offset + offset
  let (line, column) := site.lines.lineCol site.source offset
  ⟨site.file, line, column, offset⟩

/-- An error at an offset in the root. -/
def error (site : Site) (rule message : String) (offset : Nat) : Diagnostic :=
  ⟨rule, message, .error, site.locate offset⟩

/-- A warning at an offset in the root. -/
def warning (site : Site) (rule message : String) (offset : Nat) : Diagnostic :=
  ⟨rule, message, .warning, site.locate offset⟩

end Site

end ScssLint
