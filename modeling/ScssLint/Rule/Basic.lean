import ScssLint.Rule.DollarVariableDefault
import ScssLint.Rule.DoubleSlashCommentInline
import ScssLint.Rule.SelectorNoUnionClassName

/-!
# Rules

All rules with their options.
-/

namespace ScssLint

/-- A rule with its options. -/
inductive Rule where
  | dollarVariableDefault (ignoreLocal : Bool)
  | doubleSlashCommentInline (expectation : Expectation) (ignoreCommands : Bool)
  | selectorNoUnionClassName
deriving DecidableEq, Repr

namespace Rule

/-- The name of a rule. -/
def name : Rule → String
  | dollarVariableDefault _ => DollarVariableDefault.name
  | doubleSlashCommentInline .. => DoubleSlashCommentInline.name
  | selectorNoUnionClassName => SelectorNoUnionClassName.name

/-- What a rule asks for. -/
def description : Rule → String
  | dollarVariableDefault _ => DollarVariableDefault.description
  | doubleSlashCommentInline .. => DoubleSlashCommentInline.description
  | selectorNoUnionClassName => SelectorNoUnionClassName.description

/-- The problems that a rule finds in a stylesheet. -/
def check : Rule → Site → List Diagnostic
  | dollarVariableDefault ignoreLocal => DollarVariableDefault.check ignoreLocal
  | doubleSlashCommentInline expectation ignoreCommands =>
      DoubleSlashCommentInline.check expectation ignoreCommands
  | selectorNoUnionClassName => SelectorNoUnionClassName.check

/-- The names of all rules with their descriptions, in the order of the names. -/
def registry : List (String × String) := [
  (DollarVariableDefault.name, DollarVariableDefault.description),
  (DoubleSlashCommentInline.name, DoubleSlashCommentInline.description),
  (SelectorNoUnionClassName.name, SelectorNoUnionClassName.description)]

/-- The names of all rules. -/
def allNames : List String :=
  registry.map (·.1)

/-- The description of the rule with a name. -/
def descriptionOf? (name : String) : Option String :=
  registry.lookup name

end Rule

end ScssLint
