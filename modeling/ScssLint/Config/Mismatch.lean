import ScssLint.Decimal.Layout
import ScssLint.Text.Quoted
import ScssLint.Toml.Value

/-!
# Values of the wrong shape

A document can be well-formed and still be no configuration.  A `Mismatch` says what was found in
the place of what was expected.
-/

namespace ScssLint

namespace Toml

namespace Value

/-- What a value is, as a message shows it; a date is shown as its text. -/
def described : Value → String
  | string text => s!"string {Quoted.encode text}"
  | integer number => s!"integer `{number}`"
  | float number => s!"floating point `{FloatLayout.message.text number}`"
  | boolean value => s!"boolean `{value}`"
  | datetime value => s!"string {Quoted.encode value.text}"
  | array _ => "sequence"
  | table _ => "map"

/-- The name of the kind of a value. -/
def kindName : Value → String
  | string _ => "string"
  | integer _ => "integer"
  | float _ => "float"
  | boolean _ => "boolean"
  | datetime _ => "datetime"
  | array _ => "array"
  | table _ => "table"

end Value

end Toml

/-- What is wrong with the shape of a value. -/
inductive Mismatch where
  /-- A table has an entry whose name is none of the known ones. -/
  | unknownField (name : String) (known : List String)
  /-- A table lacks an entry. -/
  | missingField (name : String)
  /-- A choice is none of the known ones. -/
  | unknownVariant (name : String) (known : List String)
  /-- A choice is given by a value that is neither a name nor a table. -/
  | namelessVariant
  /-- A choice is given by a table without entries. -/
  | noVariant
  /-- A choice is given by a table with several entries. -/
  | severalVariants
  /-- A choice comes with a content. -/
  | variantContent (content : Toml.Value)
  /-- A value is of the wrong kind. -/
  | wrongKind (found : Toml.Value) (expected : String)
  /-- The setting of a rule is neither a switch nor a table. -/
  | noSetting
  /-- A rule needs options but has none. -/
  | noExpectation

namespace Mismatch

/-- The alternatives of which one was expected. -/
def alternatives : List String → String
  | [] => "there are no fields"
  | [only] => s!"expected `{only}`"
  | [first, second] => s!"expected `{first}` or `{second}`"
  | names => "expected one of " ++ ", ".intercalate (names.map fun name => s!"`{name}`")

/-- A mismatch as a message. -/
def message : Mismatch → String
  | unknownField name known => s!"unknown field `{name}`, {alternatives known}"
  | missingField name => s!"missing field `{name}`"
  | unknownVariant name known => s!"unknown variant `{name}`, {alternatives known}"
  | namelessVariant => "invalid type: unit variant, expected string only"
  | noVariant => "wanted exactly 1 element, found 0 elements"
  | severalVariants => "wanted exactly 1 element, more than 1 element"
  | variantContent (.array _) => "expected empty array"
  | variantContent (.table _) => "expected empty table"
  | variantContent content => s!"expected table, found {content.kindName}"
  | wrongKind found expected => s!"invalid type: {found.described}, expected {expected}"
  | noSetting => "data did not match any variant of untagged enum RuleSetting"
  | noExpectation => "expected a table with expect = \"always\" or \"never\""

end Mismatch

end ScssLint
