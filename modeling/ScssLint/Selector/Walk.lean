import ScssLint.Selector.Basic

/-!
# Walking a selector list

`SelectorList.walk` visits every node of a list: the nodes of each selector in order, and right
behind a pseudo-class the nodes of its argument.  A visited node is a `NodeRef`, which knows its
neighbours in its selector.
-/

namespace ScssLint

/-- A node at its place in a selector. -/
structure NodeRef where
  selector : Selector
  /-- The number of nodes in front of it in its selector. -/
  index : Nat
  index_lt : index < selector.length

namespace NodeRef

/-- The node at a place of a selector, if there is one. -/
def of? (selector : Selector) (index : Nat) : Option NodeRef :=
  if hindex : index < selector.length then some ⟨selector, index, hindex⟩ else none

/-- The node itself. -/
def node (ref : NodeRef) : SelectorNode :=
  ref.selector.get ⟨ref.index, ref.index_lt⟩

/-- The kind of the node. -/
def kind (ref : NodeRef) : NodeKind :=
  ref.node.kind

/-- The offset of the node in the text of the selector list. -/
def offset (ref : NodeRef) : Nat :=
  ref.node.offset

/-- The node right behind this one in its selector. -/
def next? (ref : NodeRef) : Option NodeRef :=
  of? ref.selector (ref.index + 1)

/-- The node right in front of this one in its selector. -/
def previous? (ref : NodeRef) : Option NodeRef :=
  if ref.index = 0 then none else of? ref.selector (ref.index - 1)

end NodeRef

/-! ### The number of nodes at all depths -/

mutual

/-- The number of nodes and selectors in a component. -/
def Component.size : Component → Nat
  | .pseudoClass _ argument => argument.size
  | _ => 0

/-- The number of nodes and selectors in an argument. -/
def PseudoArgument.size : PseudoArgument → Nat
  | .selectors list => selectorListSize list
  | _ => 0

/-- The number of nodes and selectors in a node, itself included. -/
def SelectorNode.size : SelectorNode → Nat
  | ⟨component, _⟩ => component.size + 1

/-- The number of nodes and selectors in a selector. -/
def selectorSize : List SelectorNode → Nat
  | [] => 0
  | node :: rest => node.size + selectorSize rest

/-- The number of nodes and selectors in a selector list. -/
def selectorListSize : List (List SelectorNode) → Nat
  | [] => 0
  | selector :: rest => selectorSize selector + 1 + selectorListSize rest

end

theorem size_arguments_lt (node : SelectorNode) :
    selectorListSize node.component.arguments < node.size := by
  obtain ⟨component, offset⟩ := node
  cases component with
  | pseudoClass name argument =>
      cases argument <;>
        simp [Component.arguments, SelectorNode.size, Component.size, PseudoArgument.size,
          selectorListSize]
  | _ => simp [Component.arguments, SelectorNode.size, selectorListSize]

/-! ### The walk -/

/-- What a walk has still to visit: selectors, each with the number of its nodes that are behind. -/
abbrev Agenda := List (Selector × Nat)

namespace Agenda

/-- Visit some selectors from their first nodes on. -/
def ofList (list : SelectorList) : Agenda :=
  list.map fun selector => (selector, 0)

/-- A measure of what is left to visit. -/
def weight : Agenda → Nat
  | [] => 0
  | (selector, index) :: rest => selectorSize (selector.drop index) + 1 + weight rest

theorem weight_append (first second : Agenda) :
    weight (first ++ second) = weight first + weight second := by
  induction first with
  | nil => simp [weight]
  | cons entry rest ih => simp [weight, ih, Nat.add_assoc]

theorem weight_ofList (list : SelectorList) : weight (ofList list) = selectorListSize list := by
  induction list with
  | nil => rfl
  | cons selector rest ih => simp_all [ofList, weight, selectorListSize]

theorem selectorSize_drop (selector : Selector) {index : Nat} (hindex : index < selector.length) :
    selectorSize (selector.drop index) =
      (selector.get ⟨index, hindex⟩).size + selectorSize (selector.drop (index + 1)) := by
  rw [List.drop_eq_getElem_cons hindex, selectorSize]
  rfl

/-- The nodes in the order in which they are visited. -/
def nodes : Agenda → List NodeRef
  | [] => []
  | (selector, index) :: rest =>
      if hindex : index < selector.length then
        let ref : NodeRef := ⟨selector, index, hindex⟩
        ref :: nodes (ofList ref.node.component.arguments ++ (selector, index + 1) :: rest)
      else
        nodes rest
termination_by agenda => weight agenda
decreasing_by
  · have harguments := size_arguments_lt (selector.get ⟨index, hindex⟩)
    have hdrop := selectorSize_drop selector hindex
    simp only [weight_append, weight_ofList, weight, NodeRef.node]
    omega
  · simp only [weight]
    omega

end Agenda

namespace SelectorList

/-- All nodes, each pseudo-class followed by the nodes of its argument. -/
def walk (list : SelectorList) : List NodeRef :=
  (Agenda.ofList list).nodes

/-- The node that is visited last. -/
def lastNode? (list : SelectorList) : Option NodeRef :=
  list.walk.getLast?

/-- The references to the enclosing rule's selector, at all depths. -/
def nestingNodes (list : SelectorList) : List NodeRef :=
  list.walk.filter (·.kind == .nesting)

end SelectorList

end ScssLint
