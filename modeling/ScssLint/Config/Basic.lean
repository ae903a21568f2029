import ScssLint.Ascending
import ScssLint.Config.Mismatch
import ScssLint.Toml.Document

/-!
# Configurations

A configuration switches rules on and off and gives options to them.  It is written as a TOML
document whose only entry, `rules`, maps the name of each rule to `true`, `false` or a table of
options.
-/

namespace ScssLint

/-- The options of a rule. -/
abbrev OptionTable := NameMap Toml.Value

/-- The setting of a rule. -/
inductive RuleSetting where
  /-- The rule is switched on or off and has no options. -/
  | switch (isOn : Bool)
  /-- The rule is switched on and has options. -/
  | options (table : OptionTable)

namespace RuleSetting

/-- Whether the rule runs. -/
def isEnabled : RuleSetting → Bool
  | switch isOn => isOn
  | options _ => true

/-- The options of the rule. -/
def options? : RuleSetting → Option OptionTable
  | switch _ => none
  | options table => some table

end RuleSetting

/-- The settings of the rules. -/
structure Config where
  rules : NameMap RuleSetting

/-! ### Marked dates -/

/-- The name of the entry that makes a table stand for a date or a time. -/
def dateMark : String := "$__toml_private_datetime"

namespace Toml

/-- The date that the first entry of a marked table gives. -/
def markedDate? : Value → Option Value
  | .string text =>
      match datetime.run text.toList with
      | some (date, []) => some (.datetime date)
      | _ => none
  | _ => none

mutual

/-- A value in which dates stand in the place of marked tables; none if a marked table is no date.
If `isStrict`, the mark must be the only entry of its table; otherwise the entries behind it are
dropped. -/
def Value.withDates? (isStrict : Bool) : Value → Option Value
  | .array items => do return .array (← itemsWithDates? isStrict items)
  | .table [] => some (.table [])
  | .table ((name, content) :: rest) =>
      if name == dateMark then
        if isStrict && !rest.isEmpty then none else markedDate? content
      else do
        let content ← content.withDates? isStrict
        return .table ((name, content) :: (← entriesWithDates? isStrict rest))
  | value => some value

/-- The items of an array with dates in the place of marked tables. -/
def itemsWithDates? (isStrict : Bool) : List Value → Option (List Value)
  | [] => some []
  | item :: rest => do return (← item.withDates? isStrict) :: (← itemsWithDates? isStrict rest)

/-- The entries of a table, whose values have dates in the place of marked tables. -/
def entriesWithDates? (isStrict : Bool) :
    List (String × Value) → Option (List (String × Value))
  | [] => some []
  | (name, content) :: rest => do
      return (name, ← content.withDates? isStrict) :: (← entriesWithDates? isStrict rest)

end

end Toml

/-! ### Reading -/

/-- The options that the entries of a table give. -/
def OptionTable.ofEntries? (isStrict : Bool) (entries : Toml.Entries) : Option OptionTable :=
  (Toml.entriesWithDates? isStrict entries).map Ascending.ofList

/-- The setting that a value gives.  A date counts as a table with the mark of dates. -/
def RuleSetting.ofValue : Toml.Value → Except Mismatch RuleSetting
  | .boolean isOn => .ok (.switch isOn)
  | .datetime date => .ok (.options (.ofList [(dateMark, .string date.text)]))
  | .table entries =>
      match OptionTable.ofEntries? true entries with
      | some table => .ok (.options table)
      | none => .error .noSetting
  | _ => .error .noSetting

namespace Config

/-- The configuration without settings. -/
def empty : Config :=
  ⟨Ascending.empty⟩

/-- The configuration whose settings a value gives. -/
def ofRules : Toml.Value → Except Mismatch Config
  | .table entries => do
      let rules ← entries.mapM fun (name, value) => return (name, ← RuleSetting.ofValue value)
      return ⟨.ofList rules⟩
  | .datetime _ => .error .noSetting
  | value => .error (.wrongKind value "a map")

/-- The configuration that the entries of a document give. -/
def ofEntries (entries : Toml.Entries) : Except Mismatch Config :=
  entries.foldlM (fun _ (name, value) =>
    if name == "rules" then ofRules value else .error (.unknownField name ["rules"])) empty

/-- The names of the rules that are switched on, in order. -/
def enabledRules (config : Config) : List String :=
  (config.rules.items.filter (·.2.isEnabled)).map (·.1)

end Config

/-- Why a text gives no configuration. -/
inductive TextFault where
  /-- The text is no TOML document, or a table that is marked as a date is none. -/
  | unreadable
  /-- The document has the wrong shape. -/
  | mismatch (mismatch : Mismatch)

/-- Why the entries of a document give no configuration, when `mismatch` is wrong with their shape.
A marked table that is no date is the graver fault. -/
def TextFault.ofEntries (entries : Toml.Entries) (mismatch : Mismatch) : TextFault :=
  if (Toml.entriesWithDates? false entries).isSome then .mismatch mismatch else .unreadable

/-- The configuration that a text gives. -/
def Config.ofText (text : Text) : Except TextFault Config :=
  match Toml.parse? text with
  | none => .error .unreadable
  | some entries => (Config.ofEntries entries).mapError (TextFault.ofEntries entries)

/-- The options that a text gives. -/
def OptionTable.ofText? (text : Text) : Option OptionTable := do
  OptionTable.ofEntries? false (← Toml.parse? text)

end ScssLint
