import ScssLint.Selector.Walk

/-!
# Union class names

`.button { &-primary { } }` glues a suffix to the class name of the enclosing rule.  A reference to
the enclosing rule does so if that rule's selector ends in a class name and something is glued to
the reference that does not start a simple selector of its own.
-/

namespace ScssLint

/-- What may follow a reference without being glued to the name in front. -/
def separateSuccessors : List NodeKind :=
  [.className, .combinator, .attr, .identifier, .pseudoClass, .pseudoElement]

namespace SelectorList

/-- Whether the node that is visited last is a class name. -/
def endsInClassName (list : SelectorList) : Bool :=
  list.lastNode?.any (·.kind == .className)

/-- The references in `list` that extend the class name at the end of `parent`: a node of a kind
outside `allowed` follows them. -/
def unionReferences (parent list : SelectorList) (allowed : List NodeKind) : List NodeRef :=
  list.nestingNodes.filter fun ref =>
    parent.endsInClassName && ref.next?.any fun next => !allowed.contains next.kind

end SelectorList

end ScssLint
