import ScssLint.Source.Span
import ScssLint.Text.Basic

/-!
# Statements

A stylesheet is made of rules, at-rules and declarations.
-/

namespace ScssLint

/-- What a node of a stylesheet stands for. -/
inductive Statement where
  /-- The stylesheet as a whole. -/
  | root
  /-- A selector with a block. -/
  | rule (selector : Text)
  /-- `@name params`, with a block or without one. -/
  | atRule (name params : Text) (hasBlock : Bool)
  /-- `property: value` -/
  | declaration (property value : Text)
deriving DecidableEq, Repr

namespace Statement

/-- The selector of a rule. -/
def selector? : Statement → Option Text
  | rule selector => some selector
  | _ => none

/-- The property and the value of a declaration. -/
def declaration? : Statement → Option (Text × Text)
  | declaration property value => some (property, value)
  | _ => none

/-- Whether the statement is an at-rule. -/
def isAtRule : Statement → Bool
  | atRule .. => true
  | _ => false

end Statement

/-- Whether a property is a variable, `$name`. -/
def isVariable (property : Text) : Bool :=
  Text.startsWith ['$'] property

/-- Whether a property is a custom property, `--name`. -/
def isCustomProperty (property : Text) : Bool :=
  Text.startsWith ['-', '-'] property

/-- Whether a declaration is a custom property that holds a block of declarations. -/
def isCustomPropertySet (property value : Text) : Bool :=
  isCustomProperty property && Text.startsWith ['\x7B'] value && value.getLast? == some '\x7D'

/-- The property and the value around the first colon.

A property is a single word, so a text with white space inside that part is no declaration. -/
def splitDeclaration? (text : Text) : Option (Text × Text) :=
  match Text.splitWhere (Text.startsWith [':']) text with
  | none => none
  | some (before, behind) =>
      let property := Text.trim before
      if property.isEmpty || property.any isBlank then
        none
      else
        some (property, Text.trim (behind.drop 1))

end ScssLint
