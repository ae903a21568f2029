import ScssLint.Diagnostic

/-!
# The rule `scss/dollar-variable-default`

A variable of a library should yield to a value that its user has set, so each declaration of a
variable needs the flag `!default`.
-/

namespace ScssLint

namespace DollarVariableDefault

def name : String := "scss/dollar-variable-default"

def description : String := "Require !default flag for $-variables"

/-- The flag in lower case. -/
def flag : Text := ['!', 'd', 'e', 'f', 'a', 'u', 'l', 't']

/-- Whether a value holds the flag, in any case. -/
def hasFlag (value : Text) : Bool :=
  Text.contains flag (value.map Char.toLower)

/-- Whether a declaration of the stylesheet has a variable without the flag.  With `ignoreLocal`
only the variables at the top level count. -/
def isMissing (ignoreLocal : Bool) (sheet : Stylesheet) (id : Nat) (property value : Text) : Bool :=
  isVariable property && !(ignoreLocal && sheet.parent id != .node 0) && !hasFlag value

/-- The problem with a variable. -/
def message (property : Text) : String :=
  s!"Expected !default flag for \"{String.ofList property}\""

/-- The variables without the flag. -/
def check (ignoreLocal : Bool) (site : Site) : List Diagnostic :=
  site.sheet.declarations.filterMap fun (id, property, value) =>
    if isMissing ignoreLocal site.sheet id property value then
      (site.sheet.get? id).map fun node => site.error name (message property) node.span.start
    else
      none

end DollarVariableDefault

end ScssLint
