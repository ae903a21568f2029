import ScssLint.Diagnostic
import ScssLint.Selector.Parser
import ScssLint.Selector.Union

/-!
# The rule `scss/selector-no-union-class-name`

A class name that is glued together from the selector of the enclosing rule and a suffix cannot be
found in the source by searching for it.
-/

namespace ScssLint

namespace SelectorNoUnionClassName

def name : String := "scss/selector-no-union-class-name"

def description : String := "Disallow union class names with the parent selector (&)"

/-- The problem with a reference to the enclosing rule. -/
def message : String := "Unexpected union class name with the parent selector (&)"

/-- What is said of a selector that cannot be read. -/
def unreadable (error : InvalidSelector) : String :=
  s!"Cannot parse selector ({error.message})"

/-- The problems of a rule that starts at `start`, given its selector and the one of the rule that
encloses it.  If one of the two cannot be read, that is the only thing to be said. -/
def checkRule (site : Site) (start : Nat) (enclosing selector : Text) : List Diagnostic :=
  match SelectorList.parse enclosing with
  | .error error => [site.warning name (unreadable error) start]
  | .ok parent =>
      match SelectorList.parse selector with
      | .error error => [site.warning name (unreadable error) start]
      | .ok list =>
          (parent.unionReferences list separateSuccessors).map fun ref =>
            site.error name message (start + ref.offset)

/-- The problems of all rules that refer to an enclosing rule. -/
def check (site : Site) : List Diagnostic :=
  site.sheet.rules.flatMap fun (id, selector) =>
    if '&' ∈ selector then
      match site.sheet.get? id, site.sheet.enclosingSelector? id with
      | some node, some enclosing => checkRule site node.span.start enclosing selector
      | _, _ => []
    else
      []

end SelectorNoUnionClassName

end ScssLint
