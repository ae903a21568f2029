import Mathlib.Data.List.Induction
import Mathlib.Data.List.Lex
import ScssLint.Proofs.Stylesheet.Layout

/-! # Stylesheets that are built node by node

Whatever nodes are added, the children of a node are the nodes that hang under it, in the order in
which they were added (`Stylesheet.linksAgree_build`). Then the nodes below a node are those whose
way up leads to it (`Stylesheet.LinksAgree.mem_below_iff`), the nodes below the root stand in
pre-order (`Stylesheet.LinksAgree.pairwise_below`), and a stack that is filled with the children of
each node that is taken from it gives them in this order (`Stylesheet.yields_node`). All this is put
together in `Stylesheet.isBuilt_build`.
-/

namespace ScssLint

namespace Stylesheet

/-- What is added to a stylesheet: what a node stands for, and the number of the node under which it
is put. A number that names no node yet stands for no node at all. -/
structure Addition where
  above : Nat
  statement : Statement
  span : Span

/-- The stylesheet with one more node. -/
def add (sheet : Stylesheet) (addition : Addition) : Stylesheet :=
  sheet.append addition.above addition.statement addition.span

/-- The stylesheet of `length` bytes to which some nodes are added one after the other. -/
def build (length : Nat) (additions : List Addition) : Stylesheet :=
  additions.foldl add (empty length)

/-- The way up from a node: the node, the node above it, and so on. -/
def wayUp (sheet : Stylesheet) (id : Nat) : List Nat :=
  if hid : id < sheet.nodes.size then
    match _hparent : sheet.nodes[id].parent with
    | .node above => id :: sheet.wayUp above
    | _ => [id]
  else
    []
termination_by id
decreasing_by exact sheet.parent_lt id hid above _hparent

/-- Whether the way down to a node is in front of that to another one: the latter goes on from the
former or turns to a later node where the two part. -/
def Precedes (sheet : Stylesheet) (first second : Nat) : Prop :=
  (sheet.wayUp first).reverse < (sheet.wayUp second).reverse

/-- The first node on a stack, and the stack with its children in its place. -/
def takeNode? (sheet : Stylesheet) : List Nat → Option (Nat × List Nat)
  | [] => none
  | id :: stack =>
      match sheet.get? id with
      | some node => some (id, node.children ++ stack)
      | none => sheet.takeNode? stack

/-- Whether a stack gives some nodes, one after the other, and then no more. -/
inductive Yields (sheet : Stylesheet) : List Nat → List Nat → Prop
  | done {stack : List Nat} : sheet.takeNode? stack = none → Yields sheet stack []
  | node {stack rest ids : List Nat} {id : Nat} : sheet.takeNode? stack = some (id, rest) →
      Yields sheet rest ids → Yields sheet stack (id :: ids)

/-- Whether the children of each node are the nodes that hang under it, in the order of their
creation. -/
def LinksAgree (sheet : Stylesheet) : Prop :=
  ∀ id, sheet.children id =
    (List.range sheet.size).filter fun child => sheet.parent child = .node id

/-! ### Links -/

section Adding

variable (sheet : Stylesheet) (addition : Addition)

theorem size_add : (sheet.add addition).size = sheet.size + 1 :=
  size_append sheet addition.above addition.statement addition.span

theorem get?_of_le {sheet : Stylesheet} {id : Nat} (unknown : sheet.size ≤ id) :
    sheet.get? id = none :=
  Array.getElem?_eq_none unknown

/-- The new node hangs under the node above, if there is one. -/
theorem get?_add_size :
    (sheet.add addition).get? sheet.size = some ⟨addition.statement, addition.span,
      if addition.above < sheet.size then .node addition.above else .missing, []⟩ := by
  have last : sheet.size = (sheet.nodes.modify addition.above (withChild sheet.size)).size := by
    rw [Array.size_modify, size]
  rw [get?, add, append, Array.getElem?_push, if_pos last]

/-- An older node is changed if it is the node above: it has one more child. -/
theorem get?_add_of_lt {id : Nat} (known : id < sheet.size) :
    (sheet.add addition).get? id =
      (sheet.get? id).map fun node =>
        if id = addition.above then withChild sheet.size node else node := by
  by_cases same : id = addition.above
  · rw [add, ← same, get?_append_above sheet id _ _ known]
    simp only [↓reduceIte]
  · rw [add, get?_append_of_ne sheet _ _ _ known same]
    simp only [same, ↓reduceIte, Option.map_id']

theorem parent_add_of_lt {id : Nat} (known : id < sheet.size) :
    (sheet.add addition).parent id = sheet.parent id := by
  rw [parent, parent, get?_add_of_lt sheet addition known]
  cases sheet.get? id with
  | none => rfl
  | some node =>
      simp only [Option.map_some, Option.elim_some]
      split <;> rfl

theorem parent_add_size_eq_iff {id : Nat} :
    (sheet.add addition).parent sheet.size = .node id ↔ id < sheet.size ∧ id = addition.above := by
  rw [parent, get?_add_size, Option.elim_some]
  dsimp only
  split
  · rename_i known
    rw [Parent.node.injEq, eq_comm]
    exact (and_iff_right_of_imp fun same => same ▸ known).symm
  · rename_i unknown
    exact iff_of_false (fun same => by cases same) fun both => unknown (both.2 ▸ both.1)

theorem children_of_le {sheet : Stylesheet} {id : Nat} (unknown : sheet.size ≤ id) :
    sheet.children id = [] := by
  rw [children, get?_of_le unknown, Option.elim_none]

/-- The new node is the last child of the node above. -/
theorem children_add (id : Nat) :
    (sheet.add addition).children id =
      sheet.children id ++ if id < sheet.size ∧ id = addition.above then [sheet.size] else [] := by
  rcases Nat.lt_trichotomy id sheet.size with known | rfl | unknown
  · rw [children, children, get?_add_of_lt sheet addition known]
    have node : sheet.get? id = some sheet.nodes[id] := Array.getElem?_eq_getElem known
    rw [node, Option.map_some, Option.elim_some, Option.elim_some]
    by_cases same : id = addition.above
    · rw [if_pos same, if_pos ⟨known, same⟩, withChild]
    · rw [if_neg same, if_neg fun both => same both.2, List.append_nil]
  · rw [children, get?_add_size, children_of_le (Nat.le_refl _)]
    simp only [Option.elim_some, Nat.lt_irrefl, false_and, ↓reduceIte, List.append_nil]
  · have larger := size_add sheet addition
    rw [children_of_le (by omega), children_of_le (by omega),
      if_neg fun both => Nat.lt_asymm unknown both.1, List.append_nil]

/-- **One more node leaves the links in agreement.** -/
theorem LinksAgree.add {sheet : Stylesheet} (agree : sheet.LinksAgree) (addition : Addition) :
    (sheet.add addition).LinksAgree := by
  intro id
  have older : ∀ child ∈ List.range sheet.size,
      decide ((sheet.add addition).parent child = .node id) =
        decide (sheet.parent child = .node id) := by
    intro child member
    rw [parent_add_of_lt sheet addition (List.mem_range.1 member)]
  rw [children_add, agree id, size_add, List.range_succ, List.filter_append,
    List.filter_congr older, List.filter_singleton]
  simp only [parent_add_size_eq_iff, Bool.cond_decide]

end Adding

theorem linksAgree_empty (length : Nat) : (empty length).LinksAgree := by
  intro id
  have alone : (empty length).parent 0 ≠ .node id := fun same => nomatch same
  have none : (List.range (empty length).size).filter
      (fun child => decide ((empty length).parent child = .node id)) = [] :=
    List.filter_singleton.trans (by rw [decide_eq_false alone, cond_false])
  rw [none]
  cases id with
  | zero => rfl
  | succ id => exact children_of_le (Nat.succ_le_succ (Nat.zero_le id))

/-- **However a stylesheet is built, its links agree.** -/
theorem linksAgree_build (length : Nat) (additions : List Addition) :
    (build length additions).LinksAgree := by
  induction additions using List.reverseRecOn with
  | nil => exact linksAgree_empty length
  | append_singleton additions addition ih =>
      rw [build, List.foldl_append]
      exact ih.add addition

/-! ### Ways up -/

section Ways

variable {sheet : Stylesheet} {id above child node : Nat}

theorem exists_get? (known : id < sheet.size) : ∃ node, sheet.get? id = some node :=
  ⟨_, Array.getElem?_eq_getElem known⟩

theorem lt_size_of_parent (up : sheet.parent id = .node above) : id < sheet.size := by
  by_contra unknown
  rw [parent, get?_of_le (Nat.not_lt.1 unknown)] at up
  cases up

theorem lt_of_parent (up : sheet.parent id = .node above) : above < id := by
  have known := lt_size_of_parent up
  rw [parent, get?, Array.getElem?_eq_getElem known] at up
  exact sheet.parent_lt id known above up

theorem wayUp_of_parent (up : sheet.parent id = .node above) :
    sheet.wayUp id = id :: sheet.wayUp above := by
  have known : id < sheet.nodes.size := lt_size_of_parent up
  rw [parent, get?, Array.getElem?_eq_getElem known, Option.elim_some] at up
  rw [wayUp, dif_pos known]
  split
  · rename_i up'
    rw [up] at up'
    rw [Parent.node.inj up']
  · rename_i top
    exact absurd up (top above)

theorem wayUp_of_top (known : id < sheet.size) (top : ∀ above, sheet.parent id ≠ .node above) :
    sheet.wayUp id = [id] := by
  change id < sheet.nodes.size at known
  rw [wayUp, dif_pos known]
  split
  · rename_i above up
    refine absurd ?_ (top above)
    rw [parent, get?, Array.getElem?_eq_getElem known, Option.elim_some, up]
  · rfl

theorem wayUp_of_le (unknown : sheet.size ≤ id) : sheet.wayUp id = [] := by
  rw [wayUp, dif_neg (show ¬ id < sheet.nodes.size from Nat.not_lt.2 unknown)]

/-- A way up is followed from node to node. -/
theorem induct_wayUp {holds : Nat → Prop}
    (up : ∀ id above, sheet.parent id = .node above → holds above → holds id)
    (top : ∀ id, id < sheet.size → (∀ above, sheet.parent id ≠ .node above) → holds id)
    (unknown : ∀ id, sheet.size ≤ id → holds id) (id : Nat) : holds id := by
  induction id using Nat.strongRecOn with
  | _ id ih =>
      by_cases known : id < sheet.size
      · by_cases hangs : ∃ above, sheet.parent id = .node above
        · obtain ⟨above, hangs⟩ := hangs
          exact up id above hangs (ih above (lt_of_parent hangs))
        · exact top id known (not_exists.1 hangs)
      · exact unknown id (Nat.not_lt.1 known)

theorem mem_wayUp_self (known : id < sheet.size) : id ∈ sheet.wayUp id := by
  by_cases hangs : ∃ above, sheet.parent id = .node above
  · obtain ⟨above, hangs⟩ := hangs
    rw [wayUp_of_parent hangs]
    exact List.mem_cons_self
  · rw [wayUp_of_top known (not_exists.1 hangs)]
    exact List.mem_cons_self

/-- What is on a way up is older, and its own way up is the rest of it. -/
theorem suffix_of_mem_wayUp (member : above ∈ sheet.wayUp id) :
    above ≤ id ∧ sheet.wayUp above <:+ sheet.wayUp id := by
  induction id using sheet.induct_wayUp with
  | up id next hangs ih =>
      rw [wayUp_of_parent hangs] at member ⊢
      rcases List.mem_cons.1 member with rfl | later
      · rw [wayUp_of_parent hangs]
        exact ⟨Nat.le_refl _, List.suffix_rfl⟩
      · obtain ⟨older, rest⟩ := ih later
        exact ⟨Nat.le_trans older (Nat.le_of_lt (lt_of_parent hangs)),
          rest.trans (List.suffix_cons _ _)⟩
  | top id known top =>
      rw [wayUp_of_top known top] at member
      obtain rfl := List.mem_singleton.1 member
      exact ⟨Nat.le_refl _, List.suffix_rfl⟩
  | unknown id unknown =>
      rw [wayUp_of_le unknown] at member
      exact absurd member List.not_mem_nil

/-- A way up comes to a node from another one that hangs under it. -/
theorem mem_wayUp_iff :
    (above ∈ sheet.wayUp id ∧ id ≠ above) ↔
      ∃ child, sheet.parent child = .node above ∧ child ∈ sheet.wayUp id := by
  induction id using sheet.induct_wayUp with
  | up id next hangs ih =>
      rw [wayUp_of_parent hangs]
      constructor
      · rintro ⟨member, other⟩
        have later := (List.mem_cons.1 member).resolve_left (Ne.symm other)
        by_cases same : next = above
        · exact ⟨id, same ▸ hangs, List.mem_cons_self⟩
        · obtain ⟨child, up, inside⟩ := ih.1 ⟨later, same⟩
          exact ⟨child, up, List.mem_cons_of_mem id inside⟩
      · rintro ⟨child, up, member⟩
        rcases List.mem_cons.1 member with rfl | later
        · obtain rfl := Parent.node.inj (hangs.symm.trans up)
          have older := lt_of_parent hangs
          have known := Nat.lt_trans older (lt_size_of_parent hangs)
          exact ⟨List.mem_cons_of_mem _ (mem_wayUp_self known), Nat.ne_of_gt older⟩
        · obtain ⟨inside, _⟩ := ih.2 ⟨child, up, later⟩
          have older := (suffix_of_mem_wayUp inside).1
          have younger := lt_of_parent hangs
          exact ⟨List.mem_cons_of_mem _ inside, by omega⟩
  | top id known top =>
      rw [wayUp_of_top known top]
      constructor
      · rintro ⟨member, other⟩
        exact absurd (List.mem_singleton.1 member).symm other
      · rintro ⟨child, up, member⟩
        obtain rfl := List.mem_singleton.1 member
        exact absurd up (top above)
  | unknown id unknown =>
      rw [wayUp_of_le unknown]
      exact iff_of_false (fun both => List.not_mem_nil both.1)
        fun ⟨_, _, member⟩ => List.not_mem_nil member

/-- **The selector of the closest rule** is that of the first rule on the way up. -/
theorem closestSelector?_eq (sheet : Stylesheet) (id : Nat) :
    sheet.closestSelector? id = (sheet.wayUp id).findSome? fun node =>
      (sheet.get? node).bind fun node => node.statement.selector? := by
  induction id using sheet.induct_wayUp with
  | up id above hangs ih =>
      obtain ⟨node, found⟩ := exists_get? (lt_size_of_parent hangs)
      rw [closestSelector?_of_get? found, enclosingSelector?, hangs, wayUp_of_parent hangs,
        List.findSome?_cons, found, Option.bind_some, ← ih]
      cases node.statement.selector? <;> rfl
  | top id known top =>
      obtain ⟨node, found⟩ := exists_get? known
      have enclosing : sheet.enclosingSelector? id = none := by
        rw [enclosingSelector?]
        split
        · rename_i above up
          exact absurd up (top above)
        · rfl
      rw [closestSelector?_of_get? found, enclosing, wayUp_of_top known top,
        List.findSome?_cons, found, Option.bind_some]
      cases node.statement.selector? <;> rfl
  | unknown id unknown =>
      rw [wayUp_of_le unknown, closestSelector?,
        dif_neg (show ¬ id < sheet.nodes.size from Nat.not_lt.2 unknown)]
      rfl

end Ways

/-! ### Ways down -/

section Below

variable {sheet : Stylesheet} {id above child node first second : Nat} {rest ids : List Nat}

theorem LinksAgree.mem_children_iff (agree : sheet.LinksAgree) :
    child ∈ sheet.children above ↔ sheet.parent child = .node above := by
  rw [agree above, List.mem_filter, List.mem_range, decide_eq_true_eq]
  exact and_iff_right_of_imp lt_size_of_parent

/-- A tree is followed from the children of a node to the node. -/
theorem induct_below {holds : Nat → Prop}
    (step : ∀ id, (∀ child ∈ sheet.children id, holds child) → holds id) (id : Nat) : holds id := by
  induction left : sheet.size - id using Nat.strongRecOn generalizing id with
  | _ count ih =>
      subst left
      refine step id fun child member => ih _ ?_ child rfl
      have younger := lt_of_mem_children member
      omega

/-- **The nodes below a node** are the other ones whose way up leads to it. -/
theorem LinksAgree.mem_below_iff (agree : sheet.LinksAgree) :
    node ∈ sheet.below id ↔ id ∈ sheet.wayUp node ∧ node ≠ id := by
  induction id using sheet.induct_below with
  | step id ih =>
      rw [mem_wayUp_iff, below_eq, List.mem_flatMap]
      constructor
      · rintro ⟨child, isChild, inside⟩
        have up := agree.mem_children_iff.1 isChild
        refine ⟨child, up, ?_⟩
        rcases List.mem_cons.1 inside with rfl | inside
        · exact mem_wayUp_self (lt_size_of_parent up)
        · exact ((ih child isChild).1 inside).1
      · rintro ⟨child, up, member⟩
        have isChild := agree.mem_children_iff.2 up
        refine ⟨child, isChild, List.mem_cons.2 ?_⟩
        by_cases same : node = child
        · exact .inl same
        · exact .inr ((ih child isChild).2 ⟨member, same⟩)

/-- A node comes in front of the nodes below it. -/
theorem precedes_of_mem_wayUp (inside : above ∈ sheet.wayUp node) (other : node ≠ above) :
    sheet.Precedes above node := by
  obtain ⟨front, split⟩ := (suffix_of_mem_wayUp inside).2
  have written : front.reverse ≠ [] := by
    intro nothing
    rw [List.reverse_eq_nil_iff.1 nothing, List.nil_append] at split
    obtain ⟨child, up, member⟩ := mem_wayUp_iff.1 ⟨inside, other⟩
    rw [← split] at member
    have older := (suffix_of_mem_wayUp member).1
    have younger := lt_of_parent up
    omega
  have longer : (sheet.wayUp above).reverse ++ [] <
      (sheet.wayUp above).reverse ++ front.reverse := by
    obtain ⟨next, more, split'⟩ := List.exists_cons_of_ne_nil written
    rw [split']
    exact List.Lex.append_left _ .nil _
  rwa [List.append_nil, ← List.reverse_append, split] at longer

/-- What is below a child comes in front of what is below a later child. -/
theorem precedes_of_siblings (up : sheet.parent first = .node above)
    (up' : sheet.parent second = .node above) (order : first < second) {inFirst inSecond : Nat}
    (inside : first ∈ sheet.wayUp inFirst) (inside' : second ∈ sheet.wayUp inSecond) :
    sheet.Precedes inFirst inSecond := by
  obtain ⟨front, split⟩ := (suffix_of_mem_wayUp inside).2
  obtain ⟨front', split'⟩ := (suffix_of_mem_wayUp inside').2
  rw [wayUp_of_parent up] at split
  rw [wayUp_of_parent up'] at split'
  have parts : (sheet.wayUp above).reverse ++ first :: front.reverse <
      (sheet.wayUp above).reverse ++ second :: front'.reverse :=
    List.Lex.append_left _ (.rel order) _
  rw [Precedes, ← split, ← split']
  simpa only [List.reverse_append, List.reverse_cons, List.append_assoc, List.singleton_append]
    using parts

theorem LinksAgree.mem_wayUp_of_mem (agree : sheet.LinksAgree) (known : child < sheet.size)
    (inside : node ∈ child :: sheet.below child) : child ∈ sheet.wayUp node := by
  rcases List.mem_cons.1 inside with rfl | inside
  · exact mem_wayUp_self known
  · exact (agree.mem_below_iff.1 inside).1

/-- **The nodes below a node stand in pre-order.** -/
theorem LinksAgree.pairwise_below (agree : sheet.LinksAgree) (id : Nat) :
    (sheet.below id).Pairwise sheet.Precedes := by
  induction id using sheet.induct_below with
  | step id ih =>
      have ascending : (sheet.children id).Pairwise (· < ·) := by
        rw [agree id]
        exact List.pairwise_lt_range.filter _
      rw [below_eq, List.pairwise_flatMap]
      refine ⟨fun child isChild => List.pairwise_cons.2 ⟨?_, ih child isChild⟩, ?_⟩
      · intro node inside
        obtain ⟨member, other⟩ := agree.mem_below_iff.1 inside
        exact precedes_of_mem_wayUp member other
      · refine ascending.imp_of_mem fun {first second} isFirst isSecond order => ?_
        intro inFirst inside inSecond inside'
        have up := agree.mem_children_iff.1 isFirst
        have up' := agree.mem_children_iff.1 isSecond
        exact precedes_of_siblings up up' order
          (agree.mem_wayUp_of_mem (lt_size_of_parent up) inside)
          (agree.mem_wayUp_of_mem (lt_size_of_parent up') inside')

theorem yields_siblings {siblings : List Nat}
    (each : ∀ child ∈ siblings, ∀ rest ids, sheet.Yields rest ids →
      sheet.Yields (child :: rest) (child :: (sheet.below child ++ ids)))
    (yields : sheet.Yields rest ids) :
    sheet.Yields (siblings ++ rest)
      ((siblings.flatMap fun child => child :: sheet.below child) ++ ids) := by
  induction siblings with
  | nil => exact yields
  | cons child siblings ih =>
      obtain ⟨here, later⟩ := List.forall_mem_cons.1 each
      have both := here _ _ (ih later)
      rwa [List.flatMap_cons, List.append_assoc, List.cons_append, List.cons_append]

/-- **A stack gives a node, the nodes below it and then what the rest of it gives.** -/
theorem yields_node (known : id < sheet.size) (yields : sheet.Yields rest ids) :
    sheet.Yields (id :: rest) (id :: (sheet.below id ++ ids)) := by
  induction id using sheet.induct_below generalizing rest ids with
  | step id ih =>
      obtain ⟨node, found⟩ := exists_get? known
      have takes : sheet.takeNode? (id :: rest) = some (id, sheet.children id ++ rest) := by
        rw [takeNode?, found, children_of_get? found]
      refine .node takes ?_
      rw [below_eq]
      refine yields_siblings (fun child isChild rest ids yields => ?_) yields
      exact ih child isChild (lt_of_mem_children isChild).2 yields

end Below

/-! ### All nodes -/

/-- What is known of a stylesheet of `length` bytes to which some nodes were added. -/
structure IsBuilt (sheet : Stylesheet) (length : Nat) (additions : List Addition) : Prop where
  size : sheet.size = additions.length + 1
  root : ∃ children, sheet.get? 0 = some ⟨.root, ⟨0, length⟩, .nothing, children⟩
  /-- Each added node has the next number, and hangs under the node above if that one existed. -/
  added : ∀ number (known : number < additions.length), ∃ children,
    sheet.get? (number + 1) = some ⟨additions[number].statement, additions[number].span,
      if additions[number].above ≤ number then .node additions[number].above else .missing,
      children⟩
  /-- The children of a node are the nodes that hang under it, in the order of their creation. -/
  links : sheet.LinksAgree
  /-- The descendants are the other nodes from which a way up leads to the root. -/
  reached : ∀ id, id ∈ sheet.descendants ↔ 0 ∈ sheet.wayUp id ∧ id ≠ 0
  /-- They stand in pre-order. -/
  preorder : sheet.descendants.Pairwise sheet.Precedes
  once : sheet.descendants.Nodup
  /-- A stack that starts with the children of the root gives them and ends. -/
  visited : sheet.Yields (sheet.children 0) sheet.descendants
  /-- The closest selector is that of the first rule on the way up. -/
  closest : ∀ id, sheet.closestSelector? id = (sheet.wayUp id).findSome? fun node =>
    (sheet.get? node).bind fun node => node.statement.selector?

section Build

variable (length : Nat) (additions : List Addition)

theorem build_concat (addition : Addition) :
    build length (additions ++ [addition]) = (build length additions).add addition := by
  rw [build, List.foldl_append]
  rfl

theorem size_build : (build length additions).size = additions.length + 1 := by
  induction additions using List.reverseRecOn with
  | nil => rfl
  | append_singleton additions addition ih =>
      rw [build_concat, size_add, ih, List.length_append, List.length_singleton]

/-- A node keeps all but its children. -/
theorem exists_get?_add {sheet : Stylesheet} {id : Nat} {statement : Statement} {span : Span}
    {parent : Parent}
    (found : ∃ children, sheet.get? id = some ⟨statement, span, parent, children⟩)
    (addition : Addition) :
    ∃ children, (sheet.add addition).get? id = some ⟨statement, span, parent, children⟩ := by
  obtain ⟨children, found⟩ := found
  have known : id < sheet.size := (Array.getElem?_eq_some_iff.1 found).1
  rw [get?_add_of_lt sheet addition known, found, Option.map_some]
  split
  · exact ⟨_, rfl⟩
  · exact ⟨_, rfl⟩

theorem root_build :
    ∃ children, (build length additions).get? 0 =
      some ⟨.root, ⟨0, length⟩, .nothing, children⟩ := by
  induction additions using List.reverseRecOn with
  | nil => exact ⟨_, rfl⟩
  | append_singleton additions addition ih =>
      rw [build_concat]
      exact exists_get?_add ih addition

theorem added_build (number : Nat) (known : number < additions.length) :
    ∃ children, (build length additions).get? (number + 1) =
      some ⟨additions[number].statement, additions[number].span,
        if additions[number].above ≤ number then .node additions[number].above else .missing,
        children⟩ := by
  induction additions using List.reverseRecOn with
  | nil => exact absurd known (Nat.not_lt_zero number)
  | append_singleton additions addition ih =>
      rw [build_concat]
      by_cases older : number < additions.length
      · rw [List.getElem_append_left older]
        exact exists_get?_add (ih older) addition
      · obtain rfl : number = additions.length := by
          rw [List.length_append, List.length_singleton] at known
          omega
        have added := get?_add_size (build length additions) addition
        rw [size_build] at added
        rw [List.getElem_concat_length rfl]
        simp only [Nat.lt_succ_iff] at added
        exact ⟨[], added⟩

end Build

/-- **A stylesheet is a tree, however it is built.** -/
theorem isBuilt_build (length : Nat) (additions : List Addition) :
    (build length additions).IsBuilt length additions := by
  have agree := linksAgree_build length additions
  have preorder := agree.pairwise_below 0
  have rootKnown : 0 < (build length additions).size := by
    rw [size_build]
    exact Nat.succ_pos _
  refine
    { size := size_build length additions
      root := root_build length additions
      added := added_build length additions
      links := agree
      reached := fun id => agree.mem_below_iff
      preorder := preorder
      once := ?_
      visited := ?_
      closest := closestSelector?_eq _ }
  · refine preorder.imp fun {first second} order same => ?_
    rw [same] at order
    exact List.lt_irrefl _ order
  · have ended : (build length additions).Yields [] [] := .done rfl
    have each : ∀ child ∈ (build length additions).children 0, ∀ rest ids,
        (build length additions).Yields rest ids → (build length additions).Yields (child :: rest)
          (child :: ((build length additions).below child ++ ids)) :=
      fun child isChild _ _ => yields_node (lt_of_mem_children isChild).2
    have yields := yields_siblings each ended
    rwa [List.append_nil, List.append_nil, ← below_eq] at yields

end Stylesheet

end ScssLint
