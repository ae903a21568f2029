import ScssLint.Config.Options
import ScssLint.Project.Path

/-!
# Linters

A linter is a list of rules.  It runs all of them on each stylesheet of a file and gives their
findings in the order of the file.
-/

namespace ScssLint

/-- A list of rules with their options. -/
structure Linter where
  rules : List Rule
deriving DecidableEq, Repr

namespace Linter

/-- The linter of a configuration: its rules in the order of their names, without those that are
switched off. -/
def ofConfig (config : Config) : Except RuleError Linter := do
  let rules ← config.rules.items.mapM fun (name, setting) => Rule.configure name setting
  return ⟨rules.filterMap id⟩

/-- The findings in one stylesheet, rule by rule. -/
def check (linter : Linter) (site : Site) : List Diagnostic :=
  linter.rules.flatMap (·.check site)

/-- The findings in the text of a file, in the order of their offsets.  At the same offset, the
rules keep their order. -/
def lintSource (linter : Linter) (path : Path) (source : Text) : List Diagnostic :=
  let sites := Site.ofSource path.spelling source path.dialect
  (sites.flatMap linter.check).mergeSort fun first second =>
    first.location.offset ≤ second.location.offset

end Linter

end ScssLint
