import ScssLint.Proofs.Stylesheet.Nesting

/-! # Where a tree keeps the statements of an outline

The statements of an outline are numbered in their order, each in front of the statements inside it
(`Stylesheet.Holds`). The tree of a text holds the outline of the text in this way
(`Stylesheet.isLaidOut_ofText`), so its descendants are all numbers in ascending order
(`Stylesheet.Holds.below`) and its links agree (`Stylesheet.Holds.parent_children`).
-/

namespace ScssLint

namespace Outline

/-- The number of statements at all depths. -/
def count (outline : Outline) : Nat :=
  outline.nesting.count

@[simp] theorem count_nil : nil.count = 0 := rfl

@[simp] theorem count_node (statement : Statement) (span : Span) (inside rest : Outline) :
    (node statement span inside rest).count = 1 + inside.count + rest.count := rfl

@[simp] theorem count_warning (found : ParseWarning) (rest : Outline) :
    (warning found rest).count = rest.count := rfl

/-- The numbers of the outermost statements if the first one has the number `next`. -/
def childIds (next : Nat) : Outline → List Nat
  | nil => []
  | node _ _ inside rest => next :: rest.childIds (next + 1 + inside.count)
  | warning _ rest => rest.childIds next

end Outline

namespace Stylesheet

/-- Whether the nodes from the number `next` on are the statements of an outline, below the node
`above`. -/
def Holds (sheet : Stylesheet) (above next : Nat) : Outline → Prop
  | .nil => True
  | .node statement span inside rest =>
      sheet.get? next = some ⟨statement, span, .node above, inside.childIds (next + 1)⟩ ∧
        sheet.Holds next (next + 1) inside ∧ sheet.Holds above (next + 1 + inside.count) rest
  | .warning _ rest => sheet.Holds above next rest

/-- The node with more children. -/
def withChildren (children : List Nat) (node : StyleNode) : StyleNode :=
  { node with children := node.children ++ children }

theorem size_appendOutline_eq (sheet : Stylesheet) (above : Nat) (outline : Outline) :
    (sheet.appendOutline above outline).size = sheet.size + outline.count :=
  size_appendOutline sheet above outline

theorem get?_appendOutline_above {sheet : Stylesheet} {above : Nat} (outline : Outline)
    (known : above < sheet.size) :
    (sheet.appendOutline above outline).get? above =
      (sheet.get? above).map (withChildren (outline.childIds sheet.size)) := by
  induction outline generalizing sheet with
  | nil =>
      rw [appendOutline, Outline.childIds]
      cases sheet.get? above with
      | none => rfl
      | some node => simp [withChildren]
  | node statement span inside rest _ later =>
      have knownThen : above < (sheet.append above statement span).size := by
        rw [size_append]
        exact Nat.lt_succ_of_lt known
      have knownLast := Nat.lt_of_lt_of_le knownThen
        (size_le_appendOutline (sheet.append above statement span) sheet.size inside)
      rw [appendOutline, later knownLast, get?_appendOutline_of_ne inside knownThen
        (Nat.ne_of_lt known), get?_append_above sheet above statement span known,
        size_appendOutline_eq, size_append, Option.map_map]
      cases sheet.get? above with
      | none => rfl
      | some node => simp [withChildren, withChild, Outline.childIds]
  | warning _ rest later => exact later known

/-- Nodes that stay as they are go on to hold an outline. -/
theorem Holds.congr {sheet sheet' : Stylesheet} {above next : Nat} {outline : Outline}
    (holds : sheet.Holds above next outline)
    (same : ∀ id, next ≤ id → id < next + outline.count → sheet'.get? id = sheet.get? id) :
    sheet'.Holds above next outline := by
  induction outline generalizing above next with
  | nil => trivial
  | node statement span inside rest inner later =>
      obtain ⟨own, below, behind⟩ := holds
      rw [Outline.count_node] at same
      refine ⟨?_, inner below fun id low high => same id (by omega) (by omega),
        later behind fun id low high => same id (by omega) (by omega)⟩
      rw [same next (Nat.le_refl _) (by omega), own]
  | warning _ rest later => exact later holds same

theorem holds_appendOutline {sheet : Stylesheet} {above : Nat} (outline : Outline)
    (known : above < sheet.size) :
    (sheet.appendOutline above outline).Holds above sheet.size outline := by
  induction outline generalizing sheet above with
  | nil => trivial
  | node statement span inside rest inner later =>
      have added := get?_append_size sheet above statement span known
      have knownThen : sheet.size < (sheet.append above statement span).size := by
        rw [size_append]
        exact Nat.lt_succ_self _
      have larger := size_appendOutline_eq (sheet.append above statement span) sheet.size inside
      rw [size_append] at larger
      have knownBehind : above <
          ((sheet.append above statement span).appendOutline sheet.size inside).size := by omega
      have behind := later knownBehind
      have within := inner knownThen
      rw [size_append] at within
      rw [larger] at behind
      refine ⟨?_, within.congr fun id low high => ?_, behind⟩
      · rw [appendOutline, get?_appendOutline_of_ne rest (by omega) (by omega),
          get?_appendOutline_above inside knownThen, added, size_append]
        rfl
      · rw [appendOutline]
        exact get?_appendOutline_of_ne rest (by omega) (by omega)
  | warning _ rest later => exact later known

/-- Whether a stylesheet consists of a root of `length` bytes and the statements of an outline. -/
structure IsLaidOut (sheet : Stylesheet) (length : Nat) (outline : Outline) : Prop where
  root : sheet.get? 0 = some ⟨.root, ⟨0, length⟩, .nothing, outline.childIds 1⟩
  holds : sheet.Holds 0 1 outline
  size : sheet.size = 1 + outline.count

/-- **The tree of a text holds its outline.** -/
theorem isLaidOut_ofText (source : Text) :
    (ofText source).IsLaidOut (Text.bytes source) (Outline.ofText source) where
  root := get?_appendOutline_above _ (show 0 < (empty (Text.bytes source)).size from Nat.one_pos)
  holds := holds_appendOutline _ (show 0 < (empty (Text.bytes source)).size from Nat.one_pos)
  size := size_appendOutline_eq (empty (Text.bytes source)) 0 _

theorem below_eq (sheet : Stylesheet) (id : Nat) :
    sheet.below id = (sheet.children id).flatMap fun child => child :: sheet.below child := by
  rw [below]
  by_cases known : id < sheet.nodes.size
  · have children : sheet.children id = sheet.nodes[id].children := by
      simp only [Stylesheet.children, get?, Array.getElem?_eq_getElem known, Option.elim_some]
    rw [dif_pos known, children]
    conv => rhs; rw [← List.attach_map_subtype_val sheet.nodes[id].children, List.flatMap_map]
  · have children : sheet.children id = [] := by
      simp only [Stylesheet.children, get?, Array.getElem?_eq_none (Nat.le_of_not_lt known),
        Option.elim_none]
    rw [dif_neg known, children]
    rfl

section Held

variable {sheet : Stylesheet} {above next : Nat} {outline : Outline}

theorem children_of_get? {id : Nat} {node : StyleNode} (found : sheet.get? id = some node) :
    sheet.children id = node.children := by
  rw [children, found]
  rfl

theorem parent_of_get? {id : Nat} {node : StyleNode} (found : sheet.get? id = some node) :
    sheet.parent id = node.parent := by
  rw [parent, found]
  rfl

theorem closestSelector?_of_get? {id : Nat} {node : StyleNode}
    (found : sheet.get? id = some node) :
    sheet.closestSelector? id = (node.statement.selector? <|> sheet.enclosingSelector? id) := by
  obtain ⟨known, rfl⟩ := Array.getElem?_eq_some_iff.1 found
  rw [closestSelector?, dif_pos known, enclosingSelector?, parent_of_get? found]
  cases (sheet.nodes[id]).statement.selector? with
  | some selector => rfl
  | none => cases shape : sheet.nodes[id].parent <;> rfl

/-- The outermost statements of the outline hang under the node above. -/
theorem Holds.parent_childIds (holds : sheet.Holds above next outline) :
    ∀ child ∈ outline.childIds next, sheet.parent child = .node above := by
  induction outline generalizing next with
  | nil => exact List.forall_mem_nil _
  | node statement span inside rest _ later =>
      obtain ⟨own, _, behind⟩ := holds
      exact List.forall_mem_cons.2 ⟨parent_of_get? own, later behind⟩
  | warning _ rest later => exact later holds

/-- The children of a node hang under it. -/
theorem Holds.parent_children (holds : sheet.Holds above next outline) {id : Nat}
    (low : next ≤ id) (high : id < next + outline.count) :
    ∀ child ∈ sheet.children id, sheet.parent child = .node id := by
  induction outline generalizing above next with
  | nil => simp only [Outline.count_nil] at high; omega
  | node statement span inside rest inner later =>
      obtain ⟨own, within, behind⟩ := holds
      rw [Outline.count_node] at high
      by_cases first : id = next
      · subst first
        rw [children_of_get? own]
        exact within.parent_childIds
      · by_cases inInside : id < next + 1 + inside.count
        · exact inner within (by omega) (by omega)
        · exact later behind (by omega) (by omega)
  | warning _ rest later => exact later holds low high

/-- The descendants are numbered in order. -/
theorem Holds.below (holds : sheet.Holds above next outline) :
    (outline.childIds next).flatMap (fun child => child :: sheet.below child) =
      List.range' next outline.count := by
  induction outline generalizing above next with
  | nil => rfl
  | node statement span inside rest inner later =>
      obtain ⟨own, within, behind⟩ := holds
      rw [Outline.childIds, List.flatMap_cons, below_eq, children_of_get? own, inner within,
        later behind, Outline.count_node, Nat.add_assoc 1, Nat.add_comm 1, List.range'_succ,
        ← List.range'_append_1]
      rfl
  | warning _ rest later => exact later holds

end Held

end Stylesheet

end ScssLint
