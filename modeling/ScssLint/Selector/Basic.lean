import ScssLint.Text.Basic

/-!
# Selectors

A selector list holds selectors, and a selector holds simple selectors and combinators in the order
in which they are written.  Each of them knows its offset in the text of the list.
-/

namespace ScssLint

/-- What stands between two compound selectors. -/
inductive Combinator where
  | descendant
  | child
  | adjacentSibling
  | generalSibling
deriving DecidableEq, Repr

mutual

/-- A simple selector or a combinator. -/
inductive Component where
  /-- `.name` -/
  | className (name : Text)
  /-- `#name` -/
  | identifier (name : Text)
  /-- What stands between square brackets. -/
  | attr (inside : Text)
  | combinator (kind : Combinator)
  /-- `:name`, perhaps with an argument. -/
  | pseudoClass (name : Text) (argument : PseudoArgument)
  /-- `::name` -/
  | pseudoElement (name : Text)
  /-- `&`, the selector of the enclosing rule. -/
  | nesting
  /-- The name of an element, or the name behind `&`. -/
  | tag (name : Text)
  /-- `*` -/
  | universal
  /-- Anything else, as it is written. -/
  | other (raw : Text)

/-- What stands in the parentheses of a pseudo-class. -/
inductive PseudoArgument where
  /-- The pseudo-class has no parentheses. -/
  | absent
  | selectors (list : List (List SelectorNode))
  /-- Anything but selectors, as it is written. -/
  | raw (inside : Text)

/-- A simple selector or a combinator at its place. -/
structure SelectorNode where
  component : Component
  /-- The byte offset in the text of the selector list. -/
  offset : Nat

end

/-- Simple selectors and combinators in order. -/
abbrev Selector := List SelectorNode

/-- Selectors in order. -/
abbrev SelectorList := List Selector

/-- The kinds of simple selectors, and combinators as a kind of their own. -/
inductive NodeKind where
  | className
  | identifier
  | attr
  | combinator
  | pseudoClass
  | pseudoElement
  | nesting
  | tag
  | universal
  | other
deriving DecidableEq, Repr

namespace Component

/-- The kind of a component. -/
def kind : Component → NodeKind
  | className _ => .className
  | identifier _ => .identifier
  | attr _ => .attr
  | combinator _ => .combinator
  | pseudoClass _ _ => .pseudoClass
  | pseudoElement _ => .pseudoElement
  | nesting => .nesting
  | tag _ => .tag
  | universal => .universal
  | other _ => .other

/-- Whether the component is a combinator. -/
def isCombinator (component : Component) : Bool :=
  component.kind == .combinator

/-- The selectors in the parentheses of a pseudo-class. -/
def arguments : Component → SelectorList
  | pseudoClass _ (.selectors list) => list
  | _ => []

end Component

namespace SelectorNode

/-- The kind of a node. -/
def kind (node : SelectorNode) : NodeKind :=
  node.component.kind

end SelectorNode

/-- The pseudo-classes whose argument is a selector list. -/
def selectorPseudoClasses : List Text :=
  ["not", "is", "where", "has", "matches", "any", "-moz-any", "-webkit-any", "host",
    "host-context", "global", "local"].map String.toList

/-- Whether the argument of a pseudo-class is a selector list; case does not matter. -/
def takesSelectors (name : Text) : Bool :=
  selectorPseudoClasses.any (Text.equalAnyCase name)

/-- The pseudo-elements that may be written with one colon. -/
def singleColonElements : List Text :=
  ["before", "after", "first-line", "first-letter"].map String.toList

/-- Whether a name behind a single colon is that of a pseudo-element. -/
def isSingleColonElement (name : Text) : Bool :=
  singleColonElements.any (Text.equalAnyCase name)

/-! ### Spelling -/

namespace Combinator

/-- How a combinator is written. -/
def text : Combinator → Text
  | descendant => [' ']
  | child => [' ', '>', ' ']
  | adjacentSibling => [' ', '+', ' ']
  | generalSibling => [' ', '~', ' ']

end Combinator

mutual

/-- How a component is written. -/
def Component.text : Component → Text
  | .className name => '.' :: name
  | .identifier name => '#' :: name
  | .attr inside => '[' :: inside ++ [']']
  | .combinator kind => kind.text
  | .pseudoClass name argument => ':' :: name ++ argument.text
  | .pseudoElement name => ':' :: ':' :: name
  | .nesting => ['&']
  | .tag name => name
  | .universal => ['*']
  | .other raw => raw

/-- How the argument of a pseudo-class is written. -/
def PseudoArgument.text : PseudoArgument → Text
  | .absent => []
  | .selectors list => '(' :: selectorListText list ++ [')']
  | .raw inside => '(' :: inside ++ [')']

/-- How a node is written. -/
def SelectorNode.text : SelectorNode → Text
  | ⟨component, _⟩ => component.text

/-- How a selector is written. -/
def selectorText : List SelectorNode → Text
  | [] => []
  | node :: rest => node.text ++ selectorText rest

/-- How the rest of a selector list is written, behind a first selector. -/
def furtherSelectorsText : List (List SelectorNode) → Text
  | [] => []
  | selector :: rest => ',' :: ' ' :: selectorText selector ++ furtherSelectorsText rest

/-- How a selector list is written: with a comma and a space between two selectors. -/
def selectorListText : List (List SelectorNode) → Text
  | [] => []
  | selector :: rest => selectorText selector ++ furtherSelectorsText rest

end

end ScssLint
