import ScssLint.Stylesheet.Basic

/-!
# The tree of a stylesheet

A stylesheet stores its nodes in the order of their creation and names them by their numbers in that
order; the root is number 0.  A parent is older than its children, so every way up ends, and so does
every way down.
-/

namespace ScssLint

/-- The node above a node. -/
inductive Parent where
  /-- There is none: the node is the root. -/
  | nothing
  /-- The node was put under a node that does not exist. -/
  | missing
  | node (number : Nat)
deriving DecidableEq, Repr

/-- A node with its links. -/
structure StyleNode where
  statement : Statement
  span : Span
  parent : Parent
  /-- The numbers of the children in the order of their creation. -/
  children : List Nat
deriving DecidableEq, Repr

/-- A tree of statements. -/
structure Stylesheet where
  nodes : Array StyleNode
  nodes_pos : 0 < nodes.size
  /-- A parent is older than its children. -/
  parent_lt : ∀ (id : Nat) (hid : id < nodes.size) (above : Nat),
    nodes[id].parent = .node above → above < id
  /-- Children exist and are younger than their parent. -/
  lt_child : ∀ (id : Nat) (hid : id < nodes.size) (child : Nat),
    child ∈ nodes[id].children → id < child ∧ child < nodes.size

namespace Stylesheet

/-- A stylesheet of `length` bytes without a statement. -/
def empty (length : Nat) : Stylesheet where
  nodes := #[⟨.root, ⟨0, length⟩, .nothing, []⟩]
  nodes_pos := by simp
  parent_lt := by
    intro id hid above hparent
    obtain rfl : id = 0 := by simpa using hid
    simp at hparent
  lt_child := by
    intro id hid child hchild
    obtain rfl : id = 0 := by simpa using hid
    simp at hchild

/-- The number of nodes, the root included. -/
def size (sheet : Stylesheet) : Nat :=
  sheet.nodes.size

/-- Whether the root is the only node. -/
def isEmpty (sheet : Stylesheet) : Bool :=
  sheet.size == 1

/-- The node with a number. -/
def get? (sheet : Stylesheet) (id : Nat) : Option StyleNode :=
  sheet.nodes[id]?

/-- The node above a node; nothing for the root and for a number that names no node. -/
def parent (sheet : Stylesheet) (id : Nat) : Parent :=
  (sheet.get? id).elim .nothing (·.parent)

/-- The children of a node; none for a number that names no node. -/
def children (sheet : Stylesheet) (id : Nat) : List Nat :=
  (sheet.get? id).elim [] (·.children)

/-- The node with one more child. -/
def withChild (child : Nat) (node : StyleNode) : StyleNode :=
  { node with children := node.children ++ [child] }

/-- Add a node under the node `above`.  The number of the new node is the former size.

The node is added also if `above` names no node, but then it hangs under nothing. -/
def append (sheet : Stylesheet) (above : Nat) (statement : Statement) (span : Span) :
    Stylesheet where
  nodes :=
    (sheet.nodes.modify above (withChild sheet.size)).push
      ⟨statement, span, if above < sheet.size then .node above else .missing, []⟩
  nodes_pos := by simp
  parent_lt := by
    intro id hid up hparent
    simp only [Array.getElem_push, Array.size_modify] at hparent
    split at hparent
    · rename_i hold
      refine sheet.parent_lt id hold up ?_
      rw [Array.getElem_modify] at hparent
      split at hparent <;> simpa [withChild] using hparent
    · split at hparent
      · simp only [Parent.node.injEq, size] at *
        omega
      · simp at hparent
  lt_child := by
    intro id hid child hchild
    simp only [Array.getElem_push, Array.size_modify] at hchild
    simp only [Array.size_push, Array.size_modify] at hid ⊢
    split at hchild
    · rename_i hold
      rw [Array.getElem_modify] at hchild
      split at hchild
      · simp only [withChild, List.mem_append, List.mem_singleton] at hchild
        rcases hchild with hchild | rfl
        · have := sheet.lt_child id hold child hchild
          omega
        · simp only [size]
          omega
      · have := sheet.lt_child id hold child hchild
        omega
    · simp at hchild

/-- The nodes below a node, each in front of the nodes below itself. -/
def below (sheet : Stylesheet) (id : Nat) : List Nat :=
  if hid : id < sheet.nodes.size then
    sheet.nodes[id].children.attach.flatMap fun ⟨child, _hchild⟩ => child :: sheet.below child
  else
    []
termination_by sheet.nodes.size - id
decreasing_by
  have := sheet.lt_child id hid child _hchild
  omega

/-- All nodes below the root in document order. -/
def descendants (sheet : Stylesheet) : List Nat :=
  sheet.below 0

/-- The nodes of `descendants` for which `select?` gives something, with what it gives. -/
def selectDescendants {α : Type} (sheet : Stylesheet) (select? : Statement → Option α) :
    List (Nat × α) :=
  sheet.descendants.filterMap fun id =>
    (sheet.get? id).bind fun node => (select? node.statement).map fun found => (id, found)

/-- All rules with their selectors in document order. -/
def rules (sheet : Stylesheet) : List (Nat × Text) :=
  sheet.selectDescendants Statement.selector?

/-- All declarations with their properties and values in document order. -/
def declarations (sheet : Stylesheet) : List (Nat × Text × Text) :=
  sheet.selectDescendants Statement.declaration?

/-- The selector of the first rule on the way up from a node, the node itself included. -/
def closestSelector? (sheet : Stylesheet) (id : Nat) : Option Text :=
  if hid : id < sheet.nodes.size then
    match sheet.nodes[id].statement.selector? with
    | some selector => some selector
    | none =>
        match _hparent : sheet.nodes[id].parent with
        | .node above => sheet.closestSelector? above
        | _ => none
  else
    none
termination_by id
decreasing_by exact sheet.parent_lt id hid above _hparent

/-- The selector of the closest rule above a node. -/
def enclosingSelector? (sheet : Stylesheet) (id : Nat) : Option Text :=
  match sheet.parent id with
  | .node above => sheet.closestSelector? above
  | _ => none

end Stylesheet

end ScssLint
