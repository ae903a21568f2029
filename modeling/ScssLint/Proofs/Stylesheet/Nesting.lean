import ScssLint.Stylesheet.Outline

/-! # The nesting of statements

A stylesheet stores its nodes one by one, and an outline holds them nested. What both say about the
order and the nesting of the statements is a `Nesting`. Adding an outline under a node adds the
nesting of the outline to that of the node (`Stylesheet.nesting_appendOutline`), so the tree of a
text is nested as its outline is (`Stylesheet.nesting_ofText`).
-/

namespace ScssLint

/-- Statements in order, each with the statements inside it. -/
inductive Nesting where
  | nil
  | node (statement : Statement) (inside rest : Nesting)
deriving DecidableEq, Repr

namespace Nesting

def append : Nesting → Nesting → Nesting
  | nil, behind => behind
  | node statement inside rest, behind => node statement inside (rest.append behind)

theorem append_nil (nesting : Nesting) : nesting.append nil = nesting := by
  induction nesting with
  | nil => rfl
  | node statement inside rest _ ih => rw [append, ih]

theorem append_assoc (first second third : Nesting) :
    (first.append second).append third = first.append (second.append third) := by
  induction first with
  | nil => rfl
  | node statement inside rest _ ih => rw [append, append, append, ih]

/-- The number of statements at all depths. -/
def count : Nesting → Nat
  | nil => 0
  | node _ inside rest => 1 + inside.count + rest.count

end Nesting

/-- The statements of an outline without their places and without the warnings. -/
def Outline.nesting : Outline → Nesting
  | nil => .nil
  | node statement _ inside rest => .node statement inside.nesting rest.nesting
  | warning _ rest => rest.nesting

namespace Stylesheet

/-- What a node stands for; the root for a number that names no node. -/
def statement (sheet : Stylesheet) (id : Nat) : Statement :=
  (sheet.get? id).elim .root (·.statement)

/-- The statements below a node. -/
def nesting (sheet : Stylesheet) (id : Nat) : Nesting :=
  if hid : id < sheet.nodes.size then
    sheet.nodes[id].children.attach.foldr
      (fun ⟨child, _hchild⟩ rest => .node (sheet.statement child) (sheet.nesting child) rest) .nil
  else
    .nil
termination_by sheet.nodes.size - id
decreasing_by
  have := sheet.lt_child id hid child _hchild
  omega

/-- The statements below some nodes, each behind its own statement. -/
def nestings (sheet : Stylesheet) (ids : List Nat) : Nesting :=
  ids.foldr (fun id rest => .node (sheet.statement id) (sheet.nesting id) rest) .nil

theorem nesting_eq (sheet : Stylesheet) (id : Nat) :
    sheet.nesting id = sheet.nestings (sheet.children id) := by
  rw [nesting]
  by_cases known : id < sheet.nodes.size
  · have children : sheet.children id = sheet.nodes[id].children := by
      simp only [Stylesheet.children, get?, Array.getElem?_eq_getElem known, Option.elim_some]
    rw [dif_pos known, children]
    exact List.foldr_attach (f := fun id rest =>
      Nesting.node (sheet.statement id) (sheet.nesting id) rest)
  · have children : sheet.children id = [] := by
      simp only [Stylesheet.children, get?, Array.getElem?_eq_none (Nat.le_of_not_lt known),
        Option.elim_none]
    rw [dif_neg known, children]
    rfl

theorem nestings_append (sheet : Stylesheet) (ids ids' : List Nat) :
    sheet.nestings (ids ++ ids') = (sheet.nestings ids).append (sheet.nestings ids') := by
  induction ids with
  | nil => rfl
  | cons id ids ih =>
      change Nesting.node _ _ (sheet.nestings (ids ++ ids')) = _
      rw [ih]
      rfl

theorem nestings_congr {sheet sheet' : Stylesheet} {ids : List Nat}
    (same : ∀ id ∈ ids, sheet'.statement id = sheet.statement id ∧
      sheet'.nesting id = sheet.nesting id) : sheet'.nestings ids = sheet.nestings ids := by
  induction ids with
  | nil => rfl
  | cons id ids ih =>
      obtain ⟨statement, nesting⟩ := same id List.mem_cons_self
      have rest := ih fun later member => same later (List.mem_cons_of_mem id member)
      change Nesting.node _ _ (sheet'.nestings ids) = Nesting.node _ _ (sheet.nestings ids)
      rw [statement, nesting, rest]

theorem lt_of_mem_children {sheet : Stylesheet} {id child : Nat}
    (member : child ∈ sheet.children id) : id < child ∧ child < sheet.size := by
  by_cases known : id < sheet.nodes.size
  · simp only [Stylesheet.children, get?, Array.getElem?_eq_getElem known,
      Option.elim_some] at member
    exact sheet.lt_child id known child member
  · simp only [Stylesheet.children, get?, Array.getElem?_eq_none (Nat.le_of_not_lt known),
      Option.elim_none] at member
    exact absurd member List.not_mem_nil

/-- Two stylesheets that agree on some nodes and everything below them agree on their nestings. -/
theorem nesting_congr {sheet sheet' : Stylesheet} {among : Nat → Prop}
    (closed : ∀ id, among id → ∀ child ∈ sheet.children id, among child)
    (same : ∀ id, among id → sheet'.get? id = sheet.get? id) (id : Nat) (member : among id) :
    sheet'.nesting id = sheet.nesting id := by
  induction left : sheet.size - id using Nat.strongRecOn generalizing id with
  | _ count ih =>
      subst left
      have children : sheet'.children id = sheet.children id := by
        rw [Stylesheet.children, same id member, Stylesheet.children]
      rw [nesting_eq, nesting_eq, children]
      apply nestings_congr
      intro child below
      obtain ⟨younger, known⟩ := lt_of_mem_children below
      have inside := closed id member child below
      refine ⟨?_, ih _ (by omega) child inside rfl⟩
      rw [Stylesheet.statement, same child inside, Stylesheet.statement]

/-- A stylesheet that differs from another one in a new last child of `above`, and in what lies
below that child. -/
theorem nesting_of_grown {sheet sheet' : Stylesheet} {above : Nat} (known : above < sheet.size)
    (grown : sheet'.get? above = (sheet.get? above).map (withChild sheet.size))
    (same : ∀ id < sheet.size, id ≠ above → sheet'.get? id = sheet.get? id) :
    sheet'.nesting above = (sheet.nesting above).append
      (.node (sheet'.statement sheet.size) (sheet'.nesting sheet.size) .nil) := by
  have children : sheet'.children above = sheet.children above ++ [sheet.size] := by
    have old : sheet.get? above = some sheet.nodes[above] := Array.getElem?_eq_getElem known
    rw [Stylesheet.children, grown, Stylesheet.children, old]
    rfl
  have older : sheet'.nestings (sheet.children above) = sheet.nestings (sheet.children above) := by
    apply nestings_congr
    intro child member
    have below := lt_of_mem_children member
    have kept : ∀ id, above < id ∧ id < sheet.size → sheet'.get? id = sheet.get? id :=
      fun id inside => same id inside.2 (Nat.ne_of_gt inside.1)
    have statement : sheet'.statement child = sheet.statement child := by
      rw [Stylesheet.statement, kept child below, Stylesheet.statement]
    refine ⟨statement, nesting_congr (fun id inside child member => ?_) kept child below⟩
    have younger := lt_of_mem_children member
    exact ⟨Nat.lt_trans inside.1 younger.1, younger.2⟩
  rw [nesting_eq, children, nestings_append, older, ← nesting_eq]
  rfl

section Append

variable (sheet : Stylesheet) (above : Nat) (statement : Statement) (span : Span)

@[simp] theorem size_append : (sheet.append above statement span).size = sheet.size + 1 := by
  simp [size, append]

theorem get?_append_size (known : above < sheet.size) :
    (sheet.append above statement span).get? sheet.size =
      some ⟨statement, span, .node above, []⟩ := by
  have last : ((sheet.nodes.modify above (withChild sheet.size)).push
      ⟨statement, span, if above < sheet.size then .node above else .missing, []⟩)[sheet.size]? =
        some ⟨statement, span, if above < sheet.size then .node above else .missing, []⟩ := by
    rw [Array.getElem?_push, if_pos (by simp [size])]
  simp only [if_pos known] at last
  simpa only [get?, append, if_pos known] using last

/-- Other nodes stay as they are. -/
theorem get?_append_of_ne {id : Nat} (known : id < sheet.size) (other : id ≠ above) :
    (sheet.append above statement span).get? id = sheet.get? id := by
  have old : id ≠ (sheet.nodes.modify above (withChild sheet.size)).size := by
    rw [Array.size_modify]
    exact Nat.ne_of_lt known
  rw [get?, append, Array.getElem?_push, if_neg old, Array.getElem?_modify, if_neg (Ne.symm other)]
  rfl

theorem get?_append_above (known : above < sheet.size) :
    (sheet.append above statement span).get? above =
      (sheet.get? above).map (withChild sheet.size) := by
  have old : above ≠ (sheet.nodes.modify above (withChild sheet.size)).size := by
    rw [Array.size_modify]
    exact Nat.ne_of_lt known
  rw [get?, append, Array.getElem?_push, if_neg old, Array.getElem?_modify, if_pos rfl]
  rfl

theorem statement_append {id : Nat} (known : id < sheet.size) :
    (sheet.append above statement span).statement id = sheet.statement id := by
  by_cases same : id = above
  · subst same
    rw [Stylesheet.statement, get?_append_above sheet id statement span known, Stylesheet.statement]
    cases sheet.get? id <;> rfl
  · rw [Stylesheet.statement, get?_append_of_ne sheet above statement span known same,
      Stylesheet.statement]

end Append

theorem size_le_appendOutline (sheet : Stylesheet) (above : Nat) (outline : Outline) :
    sheet.size ≤ (sheet.appendOutline above outline).size := by
  induction outline generalizing sheet above with
  | nil => exact Nat.le_refl _
  | node statement span inside rest inner later =>
      have first := inner (sheet.append above statement span) sheet.size
      rw [size_append] at first
      exact Nat.le_trans (Nat.le_trans (Nat.le_succ _) first) (later _ above)
  | warning _ rest later => exact later sheet above

/-- An outline that is added under a node changes no other node. -/
theorem get?_appendOutline_of_ne {sheet : Stylesheet} {above id : Nat} (outline : Outline)
    (known : id < sheet.size) (other : id ≠ above) :
    (sheet.appendOutline above outline).get? id = sheet.get? id := by
  induction outline generalizing sheet above with
  | nil => rfl
  | node statement span inside rest inner later =>
      have knownThen : id < (sheet.append above statement span).size := by
        rw [size_append]
        exact Nat.lt_succ_of_lt known
      have knownLast := Nat.lt_of_lt_of_le knownThen
        (size_le_appendOutline (sheet.append above statement span) sheet.size inside)
      rw [appendOutline, later knownLast other, inner knownThen (Nat.ne_of_lt known),
        get?_append_of_ne sheet above statement span known other]
  | warning _ rest later => exact later known other

theorem statement_appendOutline {sheet : Stylesheet} {above id : Nat} (outline : Outline)
    (known : id < sheet.size) :
    (sheet.appendOutline above outline).statement id = sheet.statement id := by
  induction outline generalizing sheet above with
  | nil => rfl
  | node statement span inside rest inner later =>
      have knownThen : id < (sheet.append above statement span).size := by
        rw [size_append]
        exact Nat.lt_succ_of_lt known
      have knownLast := Nat.lt_of_lt_of_le knownThen
        (size_le_appendOutline (sheet.append above statement span) sheet.size inside)
      rw [appendOutline, later knownLast, inner knownThen,
        statement_append sheet above statement span known]
  | warning _ rest later => exact later known

/-- **An outline is nested under its node as it is nested itself.** -/
theorem nesting_appendOutline {sheet : Stylesheet} {above : Nat} (outline : Outline)
    (known : above < sheet.size) :
    (sheet.appendOutline above outline).nesting above =
      (sheet.nesting above).append outline.nesting := by
  induction outline generalizing sheet above with
  | nil => exact (Nesting.append_nil _).symm
  | node statement span inside rest inner later =>
      have added := get?_append_size sheet above statement span known
      have knownThen : sheet.size < (sheet.append above statement span).size := by
        rw [size_append]
        exact Nat.lt_succ_self _
      have larger := size_le_appendOutline (sheet.append above statement span) sheet.size inside
      have unchanged {id : Nat} (old : id < sheet.size) :
          ((sheet.append above statement span).appendOutline sheet.size inside).get? id =
            (sheet.append above statement span).get? id :=
        get?_appendOutline_of_ne inside (Nat.lt_trans old knownThen) (Nat.ne_of_lt old)
      have own : ((sheet.append above statement span).appendOutline sheet.size inside).statement
          sheet.size = statement := by
        rw [statement_appendOutline inside knownThen, Stylesheet.statement, added]
        rfl
      have leaf : (sheet.append above statement span).nesting sheet.size = .nil := by
        rw [nesting_eq, Stylesheet.children, added]
        rfl
      have grown := nesting_of_grown known
        ((unchanged known).trans (get?_append_above sheet above statement span known))
        fun id old other => (unchanged old).trans
          (get?_append_of_ne sheet above statement span old other)
      rw [own, inner knownThen, leaf] at grown
      rw [appendOutline, later (Nat.lt_of_lt_of_le (Nat.lt_trans known knownThen) larger), grown,
        Nesting.append_assoc]
      rfl
  | warning _ rest later => exact later known

theorem size_appendOutline (sheet : Stylesheet) (above : Nat) (outline : Outline) :
    (sheet.appendOutline above outline).size = sheet.size + outline.nesting.count := by
  induction outline generalizing sheet above with
  | nil => rfl
  | node statement span inside rest inner later =>
      rw [appendOutline, later, inner, size_append, Outline.nesting, Nesting.count]
      omega
  | warning _ rest later => exact later sheet above

/-- **The tree of a text is its outline.** -/
theorem nesting_ofText (source : Text) :
    (ofText source).nesting 0 = (Outline.ofText source).nesting ∧
      (ofText source).size = 1 + (Outline.ofText source).nesting.count := by
  refine ⟨?_, size_appendOutline _ 0 _⟩
  have root : 0 < (empty (Text.bytes source)).size := Nat.one_pos
  have nothing : (empty (Text.bytes source)).nesting 0 = .nil := by
    rw [nesting_eq]
    rfl
  rw [ofText, nesting_appendOutline _ root, nothing]
  rfl

end Stylesheet

end ScssLint
