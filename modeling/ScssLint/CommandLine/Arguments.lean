import ScssLint.Project.Path
import ScssLint.Text.ControlSequence

/-!
# Command line arguments

Arguments are read from left to right.  An option takes its value from the text attached to it or
from the next argument, and a value that stands on its own is checked when the next option, or the
end, is reached.  Everything behind `--` is a path.
-/

namespace ScssLint

/-- How findings are written. -/
inductive ReportFormat where
  | text
  | json
deriving DecidableEq, Repr

/-- What a command line asks for. -/
structure Arguments where
  /-- The files and directories to check. -/
  paths : List Path
  /-- The configuration file, if one is named. -/
  config? : Option Path
  format : ReportFormat
  /-- How often more log output was asked for. -/
  verbosity : Nat
  /-- Whether the rules are listed instead. -/
  listRules : Bool
deriving DecidableEq, Repr

/-- An option without a value. -/
inductive Flag where
  | verbose
  | listRules
  | help
  | version
deriving DecidableEq, Repr

namespace Flag

/-- The flag with a long name. -/
def ofLongName? : String → Option Flag
  | "verbose" => some verbose
  | "list-rules" => some listRules
  | "help" => some help
  | "version" => some version
  | _ => none

/-- The flag with a short name. -/
def ofShortName? : Char → Option Flag
  | 'v' => some verbose
  | 'h' => some help
  | 'V' => some version
  | _ => none

/-- The flag as messages show it. -/
def usage : Flag → String
  | verbose => "--verbose..."
  | listRules => "--list-rules"
  | help => "--help"
  | version => "--version"

end Flag

/-- What takes values: an option with a value, or the paths. -/
inductive Slot where
  | config
  | format
  | paths
deriving DecidableEq, Repr

namespace Slot

/-- The option with a long name. -/
def ofLongName? : String → Option Slot
  | "config" => some config
  | "format" => some format
  | _ => none

/-- The option with a short name. -/
def ofShortName? : Char → Option Slot
  | 'c' => some config
  | _ => none

/-- The option as messages show it. -/
def usage : Slot → String
  | config => "--config <CONFIG>"
  | format => "--format <FORMAT>"
  | paths => "[PATHS]..."

end Slot

/-- Why arguments cannot be read. -/
inductive UsageError where
  /-- No option has the name. -/
  | unexpectedArgument (argument : String)
  /-- An option, or a path, is empty. -/
  | missingValue (slot : Slot)
  /-- A value is none of those that the option knows. -/
  | invalidValue (value : String) (slot : Slot)
  /-- A flag has a value attached to it. -/
  | unexpectedValue (value : String) (flag : Flag)
  /-- An option was given twice. -/
  | repeatedOption (usage : String)
deriving DecidableEq, Repr

namespace UsageError

/-- An argument as messages show it. -/
def shown (argument : String) : String :=
  String.ofList (Text.withoutControls argument.toList)

/-- What is said of arguments that cannot be read. -/
def message : UsageError → String
  | unexpectedArgument argument => s!"unexpected argument '{shown argument}' found"
  | missingValue slot => s!"a value is required for '{slot.usage}' but none was supplied"
  | invalidValue value slot => s!"invalid value '{shown value}' for '{slot.usage}'"
  | unexpectedValue value flag =>
      s!"unexpected value '{shown value}' for '{flag.usage}' found; no more were expected"
  | repeatedOption usage => s!"the argument '{usage}' cannot be used multiple times"

end UsageError

/-- What ends the reading of arguments before their end. -/
inductive Interruption where
  | help
  | version
  | usageError (error : UsageError)
deriving DecidableEq, Repr

namespace Arguments

/-- What has been read so far. -/
structure Progress where
  paths : List Path
  config? : Option Path
  format? : Option ReportFormat
  verbosity : Nat
  listRules : Bool
  /-- The option or the paths last named, with the values behind it that are not yet checked. -/
  pending? : Option (Slot × List String)

namespace Progress

/-- Nothing has been read. -/
def initial : Progress :=
  ⟨[], none, none, 0, false, none⟩

/-- End with an error. -/
def fail {α : Type} (error : UsageError) : Except Interruption α :=
  .error (.usageError error)

/-- The path that a value gives. -/
def pathOf (slot : Slot) (value : String) : Except Interruption Path :=
  if value.isEmpty then fail (.missingValue slot) else .ok ⟨value⟩

/-- The format that a value names. -/
def formatOf : String → Except Interruption ReportFormat
  | "text" => .ok .text
  | "json" => .ok .json
  | "" => fail (.missingValue .format)
  | value => fail (.invalidValue value .format)

/-- Check values and keep them. -/
def assign (progress : Progress) : Slot → List String → Except Interruption Progress
  | slot, [] => fail (.missingValue slot)
  | .paths, values => do
      return { progress with paths := progress.paths ++ (← values.mapM (pathOf .paths)) }
  | .config, value :: _ =>
      if progress.config?.isSome then
        fail (.repeatedOption Slot.config.usage)
      else do
        return { progress with config? := some (← pathOf .config value) }
  | .format, value :: _ =>
      if progress.format?.isSome then
        fail (.repeatedOption Slot.format.usage)
      else do
        return { progress with format? := some (← formatOf value) }

/-- Check the values that are pending. -/
def settle (progress : Progress) : Except Interruption Progress :=
  match progress.pending? with
  | none => .ok progress
  | some (slot, values) => { progress with pending? := none }.assign slot values

/-- Read a flag. -/
def raise (progress : Progress) (flag : Flag) : Except Interruption Progress := do
  let progress ← progress.settle
  match flag with
  | .verbose => return { progress with verbosity := progress.verbosity + 1 }
  | .listRules =>
      if progress.listRules then
        fail (.repeatedOption Flag.listRules.usage)
      else
        return { progress with listRules := true }
  | .help => throw .help
  | .version => throw .version

/-- Read an option with the value attached to it, or await its value. -/
def openSlot (progress : Progress) (slot : Slot) (attached? : Option String) :
    Except Interruption Progress := do
  let progress ← progress.settle
  match attached? with
  | some value => progress.assign slot [value]
  | none => return { progress with pending? := some (slot, []) }

/-- The text in front of the first equals sign, and the text behind it. -/
def splitValue (text : List Char) : List Char × Option String :=
  let name := text.takeWhile (· ≠ '=')
  (name, if name.length < text.length then
    some (String.ofList (text.drop (name.length + 1))) else none)

/-- Read an option by its long name; the text is what follows the two hyphens. -/
def readLong (progress : Progress) (text : List Char) : Except Interruption Progress :=
  let (name, value?) := splitValue text
  let name := String.ofList name
  match Slot.ofLongName? name, Flag.ofLongName? name, value? with
  | some slot, _, _ => progress.openSlot slot value?
  | none, some flag, none => progress.raise flag
  | none, some flag, some value => fail (.unexpectedValue value flag)
  | none, none, _ => fail (.unexpectedArgument s!"--{name}")

/-- Read options by their short names; the text is what follows the hyphen. -/
def readShort (progress : Progress) : List Char → Except Interruption Progress
  | [] => .ok progress
  | c :: rest =>
      match Flag.ofShortName? c, Slot.ofShortName? c, rest with
      | some flag, _, _ => do (← progress.raise flag).readShort rest
      | none, some slot, [] => progress.openSlot slot none
      | none, some slot, '=' :: value => progress.openSlot slot (some (String.ofList value))
      | none, some slot, value => progress.openSlot slot (some (String.ofList value))
      | none, none, _ => fail (.unexpectedArgument (String.ofList ['-', c]))

/-- Read a path. -/
def readPath (progress : Progress) (value : String) : Except Interruption Progress :=
  match progress.pending? with
  | some (.paths, values) =>
      .ok { progress with pending? := some (.paths, values ++ [value]) }
  | _ => do
      return { ← progress.settle with pending? := some (.paths, [value]) }

/-- Read a value: it belongs to an option that awaits one, or else it is a path. -/
def readValue (progress : Progress) (value : String) : Except Interruption Progress :=
  match progress.pending? with
  | some (slot, []) => .ok { progress with pending? := some (slot, [value]) }
  | _ => progress.readPath value

/-- Read all arguments. -/
def readAll (progress : Progress) : List String → Except Interruption Progress
  | [] => progress.settle
  | argument :: rest =>
      match argument.toList with
      | ['-', '-'] => do (← rest.foldlM readPath progress).settle
      | '-' :: '-' :: text => do (← progress.readLong text).readAll rest
      | '-' :: c :: text => do (← progress.readShort (c :: text)).readAll rest
      | _ => do (← progress.readValue argument).readAll rest

end Progress

/-- Read arguments.  Without paths, the directory in which the command runs is checked. -/
def read (arguments : List String) : Except Interruption Arguments := do
  let progress ← Progress.initial.readAll arguments
  return {
    paths := if progress.paths.isEmpty then [⟨"."⟩] else progress.paths
    config? := progress.config?
    format := progress.format?.getD .text
    verbosity := progress.verbosity
    listRules := progress.listRules }

end Arguments

end ScssLint
