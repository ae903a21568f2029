import ScssLint.Config.Basic
import ScssLint.Rule.Basic

/-!
# Options of rules

Each rule knows the names of its options and what they may be.  `Rule.configure` turns the setting
of a rule into the rule, if the rule is switched on and the setting suits it.
-/

namespace ScssLint

/-! ### Reading values -/

/-- The alternative with a name. -/
def variantOf {α : Type} (known : List (String × α)) (name : String) : Except Mismatch α :=
  match known.lookup name with
  | some variant => .ok variant
  | none => .error (.unknownVariant name (known.map (·.1)))

/-- One of some alternatives: its name, or a table from its name to nothing. -/
def readVariant {α : Type} (known : List (String × α)) : Toml.Value → Except Mismatch α
  | .string name => variantOf known name
  | .table [] => .error .noVariant
  | .table [(name, content)] => do
      let variant ← variantOf known name
      match content with
      | .array [] | .table [] => return variant
      | _ => throw (.variantContent content)
  | .table _ => .error .severalVariants
  | _ => .error .namelessVariant

/-- Whether a list of exceptions, for which there is only one name, holds any. -/
def readException (known : String) : Toml.Value → Except Mismatch Bool
  | .array items => do
      let exceptions ← items.mapM (readVariant [(known, ())])
      return !exceptions.isEmpty
  | value => .error (.wrongKind value "a sequence")

/-- How an option of a given name changes what has been read so far. -/
abbrev FieldReader (σ : Type) := String × (σ → Toml.Value → Except Mismatch σ)

/-- Read options in the order of their names. -/
def readFields {σ : Type} (fields : List (FieldReader σ)) (start : σ) (table : OptionTable) :
    Except Mismatch σ :=
  table.items.foldlM (fun state (name, value) =>
    match fields.lookup name with
    | some read => read state value
    | none => .error (.unknownField name (fields.map (·.1)))) start

/-! ### Options of each rule -/

namespace DollarVariableDefault

/-- The rule with options. -/
def ofOptions (options? : Option OptionTable) : Except Mismatch Rule := do
  let ignoreLocal ← readFields [("ignore", fun _ => readException "local")] false
    (options?.getD Ascending.empty)
  return .dollarVariableDefault ignoreLocal

end DollarVariableDefault

namespace DoubleSlashCommentInline

/-- The names of the expectations. -/
def expectations : List (String × Expectation) :=
  [("always", .always), ("never", .never)]

/-- The rule with options, of which `expect` is needed. -/
def ofOptions : Option OptionTable → Except Mismatch Rule
  | none => .error .noExpectation
  | some table => do
      let fields : List (FieldReader (Option Expectation × Bool)) := [
        ("expect", fun (_, ignore) value => return (← readVariant expectations value, ignore)),
        ("ignore", fun (expect?, _) value =>
          return (expect?, ← readException "stylelint-commands" value))]
      let (expect?, ignoreCommands) ← readFields fields (none, false) table
      match expect? with
      | some expectation => return .doubleSlashCommentInline expectation ignoreCommands
      | none => throw (.missingField "expect")

end DoubleSlashCommentInline

namespace SelectorNoUnionClassName

/-- The rule, which has no options. -/
def ofOptions (options? : Option OptionTable) : Except Mismatch Rule := do
  readFields [] () (options?.getD Ascending.empty)
  return .selectorNoUnionClassName

end SelectorNoUnionClassName

/-! ### Settings -/

/-- Why a setting gives no rule. -/
inductive RuleError where
  /-- No rule has the name. -/
  | unknownRule (name : String)
  /-- The rule does not take the options. -/
  | invalidOptions (rule : String) (mismatch : Mismatch)

namespace RuleError

/-- What is said of a setting that gives no rule. -/
def message : RuleError → String
  | unknownRule name => s!"Unknown rule '{name}'"
  | invalidOptions rule mismatch => s!"Invalid options for rule '{rule}': {mismatch.message}"

end RuleError

namespace Rule

/-- How each rule reads its options, by the name of the rule. -/
def readers : List (String × (Option OptionTable → Except Mismatch Rule)) := [
  (DollarVariableDefault.name, DollarVariableDefault.ofOptions),
  (DoubleSlashCommentInline.name, DoubleSlashCommentInline.ofOptions),
  (SelectorNoUnionClassName.name, SelectorNoUnionClassName.ofOptions)]

/-- The rule that a setting gives; a rule that is switched off gives none.  The name must be known
even so, and so a misspelt name does not go unnoticed. -/
def configure (name : String) (setting : RuleSetting) : Except RuleError (Option Rule) :=
  if (descriptionOf? name).isNone then
    .error (.unknownRule name)
  else if setting.isEnabled then
    match readers.lookup name with
    | some ofOptions =>
        match ofOptions setting.options? with
        | .ok rule => .ok (some rule)
        | .error mismatch => .error (.invalidOptions name mismatch)
    | none => .error (.unknownRule name)
  else
    .ok none

end Rule

end ScssLint
