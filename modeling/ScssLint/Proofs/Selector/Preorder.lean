import Mathlib.Data.List.Nodup
import ScssLint.Proofs.Selector.Order

/-! # The walk as a recursion

A walk keeps an agenda. The recursive order needs none: for each selector and each of its nodes, the
node and then what stands in its argument (`SelectorList.visits`). It comes to every place of a list
once (`SelectorList.nodup_visitsFrom`, `SelectorList.mem_visitsFrom_iff`), and between a node and
the next one of its selector it goes through the argument of the first one only
(`SelectorList.areSpaced_visitsFrom`). A walk visits the nodes in this order
(`SelectorList.walk_preorder`).
-/

namespace ScssLint

namespace NodeRef

variable {ref next : NodeRef}

theorem of?_eq_some_iff {selector : Selector} {index : Nat} :
    of? selector index = some ref ↔ ∃ known, ref = ⟨selector, index, known⟩ := by
  unfold of?
  split
  · rename_i known
    constructor
    · intro same
      exact ⟨known, (Option.some.inj same).symm⟩
    · rintro ⟨_, rfl⟩
      rfl
  · rename_i ended
    constructor
    · intro same
      exact absurd same.symm (Option.some_ne_none ref)
    · rintro ⟨known, _⟩
      exact absurd known ended

/-- The node right in front of the next one. -/
theorem previous?_of_next? (follows : ref.next? = some next) : next.previous? = some ref := by
  obtain ⟨known, rfl⟩ := of?_eq_some_iff.1 follows
  rw [previous?, if_neg (Nat.succ_ne_zero _)]
  exact of?_eq_some_iff.2 ⟨ref.index_lt, rfl⟩

end NodeRef

namespace SelectorList

/-- Where a node stands: for each depth, outermost first, the number of the selector in its list and
the index in the selector. -/
abbrev Place := List (Nat × Nat)

/-- The node at a place of a list, if there is one. -/
def nodeAt? : SelectorList → Place → Option NodeRef
  | _, [] => none
  | list, (number, index) :: inside =>
      list[number]?.bind fun selector =>
        (NodeRef.of? selector index).bind fun ref =>
          if inside.isEmpty then some ref else nodeAt? ref.node.component.arguments inside

/-- The place right behind another one in the same selector. -/
def Place.next : Place → Place
  | [] => []
  | [(number, index)] => [(number, index + 1)]
  | entry :: inside => entry :: Place.next inside

/-- A node at its place. -/
structure Visit where
  place : Place
  ref : NodeRef

/-- The visit of a node in the argument of the node at `outer`. -/
def Visit.within (outer : Place) (visit : Visit) : Visit :=
  ⟨outer ++ visit.place, visit.ref⟩

mutual

/-- The nodes of a selector from `index` on, each in front of what stands in its argument. -/
def visitsIn (number : Nat) (selector : Selector) (index : Nat) : List Visit :=
  if known : index < selector.length then
    let ref : NodeRef := ⟨selector, index, known⟩
    ⟨[(number, index)], ref⟩ ::
      ((visitsFrom 0 ref.node.component.arguments).map (.within [(number, index)]) ++
        visitsIn number selector (index + 1))
  else
    []
termination_by selectorSize (selector.drop index)
decreasing_by
  · have arguments := size_arguments_lt (selector.get ⟨index, known⟩)
    have here := Agenda.selectorSize_drop selector known
    simp only [NodeRef.node]
    omega
  · have arguments := size_arguments_lt (selector.get ⟨index, known⟩)
    have here := Agenda.selectorSize_drop selector known
    omega

/-- The nodes of each selector, the first of which has the number `number`. -/
def visitsFrom (number : Nat) (list : SelectorList) : List Visit :=
  match list with
  | [] => []
  | selector :: rest => visitsIn number selector 0 ++ visitsFrom (number + 1) rest
termination_by selectorListSize list
decreasing_by
  · rw [List.drop_zero, selectorListSize]
    omega
  · rw [selectorListSize]
    omega

end

/-- The nodes of a list in pre-order. -/
def visits (list : SelectorList) : List Visit :=
  visitsFrom 0 list

section Equations

variable {number index : Nat} {selector : Selector}

theorem visitsIn_of_lt (known : index < selector.length) :
    visitsIn number selector index =
      ⟨[(number, index)], ⟨selector, index, known⟩⟩ ::
        ((visits (selector.get ⟨index, known⟩).component.arguments).map
            (.within [(number, index)]) ++ visitsIn number selector (index + 1)) := by
  rw [visitsIn, dif_pos known]
  rfl

theorem visitsIn_of_not_lt (ended : ¬index < selector.length) :
    visitsIn number selector index = [] := by
  rw [visitsIn, dif_neg ended]

theorem visitsFrom_nil : visitsFrom number [] = [] := by
  rw [visitsFrom]

theorem visitsFrom_cons (rest : SelectorList) :
    visitsFrom number (selector :: rest) =
      visitsIn number selector 0 ++ visitsFrom (number + 1) rest := by
  rw [visitsFrom]

end Equations

section Visits

variable {number index : Nat} {selector : Selector} {place outer : Place} {ref : NodeRef}

theorem nodes_of_lt (known : index < selector.length) (rest : Agenda) :
    Agenda.nodes ((selector, index) :: rest) =
      ⟨selector, index, known⟩ ::
        ((selector.get ⟨index, known⟩).component.arguments.walk ++
          Agenda.nodes ((selector, index + 1) :: rest)) := by
  rw [Agenda.nodes, dif_pos known]
  exact congrArg (List.cons _) (Agenda.nodes_append _ _)

/-- **A walk visits the nodes in pre-order.** -/
theorem map_ref_visitsFrom (number : Nat) (list : SelectorList) :
    (visitsFrom number list).map Visit.ref = list.walk := by
  induction number, list using visitsFrom.induct fun number selector index =>
      (visitsIn number selector index).map Visit.ref = Agenda.nodes [(selector, index)] with
  | case1 number selector index known ref arguments later =>
      have same : Visit.ref ∘ Visit.within [(number, index)] = Visit.ref := rfl
      rw [visitsIn_of_lt known, nodes_of_lt known, List.map_cons, List.map_append, List.map_map,
        same, later]
      exact congrArg (fun inside => ref :: (inside ++ _)) arguments
  | case2 number selector index ended =>
      rw [visitsIn_of_not_lt ended, Agenda.nodes, dif_neg ended, Agenda.nodes, List.map_nil]
  | case3 number => rw [visitsFrom_nil, walk_nil, List.map_nil]
  | case4 number selector rest own others =>
      rw [visitsFrom_cons, List.map_append, own, others, walk, ← Agenda.nodes_append]
      rfl

theorem nodeAt?_first (rest : SelectorList) (inside : Place) :
    nodeAt? (selector :: rest) ((0, index) :: inside) =
      (NodeRef.of? selector index).bind fun ref =>
        if inside.isEmpty then some ref else nodeAt? ref.node.component.arguments inside := by
  rw [nodeAt?]
  rfl

theorem nodeAt?_later (rest : SelectorList) (inside : Place) :
    nodeAt? (selector :: rest) ((number + 1, index) :: inside) =
      nodeAt? rest ((number, index) :: inside) := by
  rw [nodeAt?, nodeAt?]
  rfl

theorem mem_within_iff {visits : List Visit} :
    Visit.mk place ref ∈ visits.map (Visit.within outer) ↔
      ∃ inside, place = outer ++ inside ∧ ⟨inside, ref⟩ ∈ visits := by
  rw [List.mem_map]
  constructor
  · rintro ⟨visit, member, same⟩
    cases same
    exact ⟨visit.place, rfl, member⟩
  · rintro ⟨inside, rfl, member⟩
    exact ⟨_, member, rfl⟩

/-- **Each place of a list is visited**, and the node there is the one that is found. -/
theorem mem_visitsFrom_iff (number : Nat) (list : SelectorList) (place : Place) (ref : NodeRef) :
    ⟨place, ref⟩ ∈ visitsFrom number list ↔
      ∃ more index inside, place = (number + more, index) :: inside ∧
        list.nodeAt? ((more, index) :: inside) = some ref := by
  induction number, list using visitsFrom.induct fun number selector index =>
      ∀ place ref, ⟨place, ref⟩ ∈ visitsIn number selector index ↔
        ∃ later inside, index ≤ later ∧ place = (number, later) :: inside ∧
          nodeAt? [selector] ((0, later) :: inside) = some ref
    generalizing place ref with
  | case1 number selector index known node arguments later place ref =>
      have found : NodeRef.of? selector index = some node :=
        NodeRef.of?_eq_some_iff.2 ⟨known, rfl⟩
      rw [visitsIn_of_lt known, List.mem_cons, List.mem_append, mem_within_iff, later]
      constructor
      · rintro (same | ⟨inside, rfl, member⟩ | ⟨behind, inside, after, rfl, reached⟩)
        · cases same
          refine ⟨index, [], Nat.le_refl _, rfl, ?_⟩
          rw [nodeAt?_first, found]
          rfl
        · obtain ⟨more, index', inside, rfl, reached⟩ := (arguments inside ref).1 member
          refine ⟨index, _, Nat.le_refl _, rfl, ?_⟩
          rw [nodeAt?_first, found, Nat.zero_add]
          exact reached
        · exact ⟨behind, inside, Nat.le_of_succ_le after, rfl, reached⟩
      · rintro ⟨behind, inside, after, rfl, reached⟩
        rcases Nat.eq_or_lt_of_le after with rfl | after
        · rw [nodeAt?_first, found, Option.bind_some] at reached
          cases inside with
          | nil =>
              cases reached
              exact .inl rfl
          | cons entry inside =>
              refine .inr (.inl ⟨_, rfl, (arguments _ ref).2 ⟨entry.1, entry.2, inside, ?_, reached⟩⟩)
              rw [Nat.zero_add]
        · exact .inr (.inr ⟨behind, inside, after, rfl, reached⟩)
  | case2 number selector index ended place ref =>
      rw [visitsIn_of_not_lt ended]
      constructor
      · intro member
        exact absurd member List.not_mem_nil
      · rintro ⟨later, inside, after, _, reached⟩
        rw [nodeAt?_first, Option.bind_eq_some_iff] at reached
        obtain ⟨node, found, _⟩ := reached
        obtain ⟨known, _⟩ := NodeRef.of?_eq_some_iff.1 found
        exact absurd (Nat.lt_of_le_of_lt after known) ended
  | case3 number =>
      rw [visitsFrom_nil]
      constructor
      · intro member
        exact absurd member List.not_mem_nil
      · rintro ⟨more, index, inside, _, reached⟩
        exact absurd reached.symm (Option.some_ne_none ref)
  | case4 number selector rest own others =>
      rw [visitsFrom_cons, List.mem_append, own, others]
      constructor
      · rintro (⟨index, inside, _, rfl, reached⟩ | ⟨more, index, inside, rfl, reached⟩)
        · refine ⟨0, index, inside, rfl, ?_⟩
          rw [nodeAt?_first] at reached ⊢
          exact reached
        · refine ⟨more + 1, index, inside, ?_, (nodeAt?_later rest inside).trans reached⟩
          rw [Nat.add_assoc, Nat.add_comm 1]
      · rintro ⟨_ | more, index, inside, rfl, reached⟩
        · refine .inl ⟨index, inside, Nat.zero_le _, rfl, ?_⟩
          rw [nodeAt?_first] at reached ⊢
          exact reached
        · refine .inr ⟨more, index, inside, ?_, (nodeAt?_later rest inside).symm.trans reached⟩
          rw [Nat.add_assoc, Nat.add_comm 1]

theorem nodup_within {visits : List Visit} (once : (visits.map Visit.place).Nodup) :
    ((visits.map (Visit.within outer)).map Visit.place).Nodup := by
  have moved : (visits.map (Visit.within outer)).map Visit.place =
      (visits.map Visit.place).map (outer ++ ·) := by
    rw [List.map_map, List.map_map]
    rfl
  rw [moved]
  exact List.Nodup.map (fun _ _ => List.append_cancel_left) once

/-- **No place of a list is visited twice.** -/
theorem nodup_visitsFrom (number : Nat) (list : SelectorList) :
    ((visitsFrom number list).map Visit.place).Nodup := by
  induction number, list using visitsFrom.induct fun number selector index =>
      ((visitsIn number selector index).map Visit.place).Nodup ∧
        ∀ visit ∈ visitsIn number selector index,
          ∃ later inside, index ≤ later ∧ visit.place = (number, later) :: inside with
  | case1 number selector index known node arguments later =>
      obtain ⟨once, behind⟩ := later
      rw [visitsIn_of_lt known]
      constructor
      · rw [List.map_cons, List.map_append, List.nodup_cons, List.mem_append]
        refine ⟨?_, (nodup_within arguments).append once fun place inside after => ?_⟩
        · rintro (inside | after)
          · obtain ⟨visit, member, same⟩ := List.mem_map.1 inside
            obtain ⟨inner, among, rfl⟩ := List.mem_map.1 member
            obtain ⟨more, index', inside, starts, _⟩ :=
              (mem_visitsFrom_iff 0 _ inner.place inner.ref).1 among
            rw [Visit.within, starts] at same
            exact absurd (List.cons.inj same).2 (List.cons_ne_nil _ _)
          · obtain ⟨visit, member, same⟩ := List.mem_map.1 after
            obtain ⟨later, inside, less, starts⟩ := behind visit member
            rw [starts] at same
            have := (Prod.mk.inj (List.cons.inj same).1).2
            omega
        · obtain ⟨visit, member, rfl⟩ := List.mem_map.1 inside
          obtain ⟨inner, among, rfl⟩ := List.mem_map.1 member
          obtain ⟨visit, member, same⟩ := List.mem_map.1 after
          obtain ⟨later, inside, less, starts⟩ := behind visit member
          rw [starts] at same
          have := (Prod.mk.inj (List.cons.inj same).1).2
          omega
      · intro visit member
        rcases List.mem_cons.1 member with rfl | among
        · exact ⟨index, [], Nat.le_refl _, rfl⟩
        rcases List.mem_append.1 among with inside | after
        · obtain ⟨inner, _, rfl⟩ := List.mem_map.1 inside
          exact ⟨index, inner.place, Nat.le_refl _, rfl⟩
        · obtain ⟨later, inside, less, starts⟩ := behind visit after
          exact ⟨later, inside, Nat.le_of_succ_le less, starts⟩
  | case2 number selector index ended =>
      rw [visitsIn_of_not_lt ended]
      exact ⟨.nil, List.forall_mem_nil _⟩
  | case3 number =>
      rw [visitsFrom_nil]
      exact .nil
  | case4 number selector rest own others =>
      obtain ⟨once, here⟩ := own
      rw [visitsFrom_cons, List.map_append]
      refine once.append others fun place first after => ?_
      obtain ⟨visit, member, rfl⟩ := List.mem_map.1 first
      obtain ⟨later, inside, _, starts⟩ := here visit member
      obtain ⟨other, among, same⟩ := List.mem_map.1 after
      obtain ⟨more, index, inside', starts', _⟩ :=
        (mem_visitsFrom_iff _ _ other.place other.ref).1 among
      rw [starts, starts'] at same
      have := (Prod.mk.inj (List.cons.inj same).1).1
      omega

end Visits

/-- Whether between each visited node and the next one of its selector only what stands in the
argument of the first is visited. -/
def AreSpaced (visits : List Visit) : Prop :=
  ∀ front visit behind next, visits = front ++ visit :: behind → visit.ref.next? = some next →
    ∃ later, behind = (SelectorList.visits visit.ref.node.component.arguments).map
      (.within visit.place) ++ ⟨visit.place.next, next⟩ :: later

namespace AreSpaced

variable {visits others : List Visit} {outer : Place}

theorem nil : AreSpaced [] := by
  intro front visit behind next cut _
  exact absurd cut.symm (by simp)

theorem append (spaced : AreSpaced visits) (spaced' : AreSpaced others) :
    AreSpaced (visits ++ others) := by
  intro front visit behind next cut follows
  rcases List.append_eq_append_iff.1 cut with ⟨between, rfl, later⟩ | ⟨between, first, later⟩
  · exact spaced' between visit behind next later follows
  · cases between with
    | nil => exact spaced' [] visit behind next later.symm follows
    | cons first between =>
        obtain ⟨rfl, rfl⟩ := List.cons.inj later
        obtain ⟨tail, rfl⟩ := spaced front visit between next first follows
        exact ⟨tail ++ others, List.append_assoc _ _ _⟩

theorem cons {visit : Visit} (spaced : AreSpaced visits)
    (here : ∀ next, visit.ref.next? = some next →
      ∃ later, visits = (SelectorList.visits visit.ref.node.component.arguments).map
        (.within visit.place) ++ ⟨visit.place.next, next⟩ :: later) :
    AreSpaced (visit :: visits) := by
  intro front other behind next cut follows
  cases front with
  | nil =>
      obtain ⟨rfl, rfl⟩ := List.cons.inj cut
      exact here next follows
  | cons first front =>
      obtain ⟨rfl, rfl⟩ := List.cons.inj cut
      exact spaced front other behind next rfl follows

theorem next_append {inside : Place} (written : inside ≠ []) :
    Place.next (outer ++ inside) = outer ++ inside.next := by
  induction outer with
  | nil => rfl
  | cons entry outer ih =>
      obtain ⟨first, rest, same⟩ :=
        List.exists_cons_of_ne_nil (List.append_ne_nil_of_right_ne_nil outer written)
      rw [List.cons_append, List.cons_append, ← ih, same]
      rfl

theorem within (spaced : AreSpaced visits) (written : ∀ visit ∈ visits, visit.place ≠ []) :
    AreSpaced (visits.map (.within outer)) := by
  intro front visit behind next cut follows
  obtain ⟨front, rest, rfl, rfl, cut'⟩ := List.map_eq_append_iff.1 cut
  obtain ⟨inner, behind, rfl, rfl, rfl⟩ := List.map_eq_cons_iff.1 cut'
  obtain ⟨later, rfl⟩ := spaced front inner behind next rfl follows
  have place := written inner (List.mem_append_right front List.mem_cons_self)
  have moved : Visit.within outer ∘ Visit.within inner.place = Visit.within (outer ++ inner.place) := by
    funext visit
    rw [Function.comp, Visit.within, Visit.within, Visit.within, List.append_assoc]
  refine ⟨later.map (.within outer), ?_⟩
  rw [List.map_append, List.map_cons, List.map_map, moved, Visit.within, Visit.within,
    next_append place]

end AreSpaced

/-- **Between two neighbours only the argument of the first is visited.** -/
theorem areSpaced_visitsFrom (number : Nat) (list : SelectorList) :
    AreSpaced (visitsFrom number list) := by
  induction number, list using visitsFrom.induct fun number selector index =>
      AreSpaced (visitsIn number selector index) with
  | case1 number selector index known node arguments later =>
      have written : ∀ visit ∈ visits node.node.component.arguments, visit.place ≠ [] := by
        intro visit member
        obtain ⟨more, index, inside, starts, _⟩ :=
          (mem_visitsFrom_iff 0 _ visit.place visit.ref).1 member
        rw [starts]
        exact List.cons_ne_nil _ _
      rw [visitsIn_of_lt known]
      refine ((arguments.within written).append later).cons fun next follows => ?_
      obtain ⟨known', rfl⟩ := NodeRef.of?_eq_some_iff.1 follows
      rw [visitsIn_of_lt known']
      exact ⟨_, rfl⟩
  | case2 number selector index ended =>
      rw [visitsIn_of_not_lt ended]
      exact .nil
  | case3 number =>
      rw [visitsFrom_nil]
      exact .nil
  | case4 number selector rest own others =>
      rw [visitsFrom_cons]
      exact own.append others

/-- **A walk is the recursive pre-order**: for each selector and each node in it, the node and then
what stands in its argument. Each place of the list is visited once, and its node is the one that is
there; the last node and the references to the enclosing rule are those of the pre-order. A visited
node is in front of its next neighbour, and between the two the nodes of its own argument are visited
and no other. -/
theorem walk_preorder (list : SelectorList) :
    list.walk = list.visits.map (·.ref) ∧
      (list.visits.map (·.place)).Nodup ∧
      (∀ place ref, ⟨place, ref⟩ ∈ list.visits ↔ list.nodeAt? place = some ref) ∧
      list.lastNode? = list.visits.getLast?.map (·.ref) ∧
      list.nestingNodes = (list.visits.map (·.ref)).filter (·.kind == .nesting) ∧
      ∀ front visit behind next, list.visits = front ++ visit :: behind →
        visit.ref.next? = some next →
        next.previous? = some visit.ref ∧
          ∃ argument later, behind = argument ++ ⟨visit.place.next, next⟩ :: later ∧
            argument.map (·.ref) = visit.ref.node.component.arguments.walk := by
  have order := map_ref_visitsFrom 0 list
  refine ⟨order.symm, nodup_visitsFrom 0 list, fun place ref => ?_, ?_, ?_, ?_⟩
  · refine (mem_visitsFrom_iff 0 list place ref).trans ⟨?_, fun reached => ?_⟩
    · rintro ⟨more, index, inside, rfl, reached⟩
      rw [Nat.zero_add]
      exact reached
    · cases place with
      | nil =>
          rw [nodeAt?] at reached
          exact absurd reached.symm (Option.some_ne_none ref)
      | cons entry inside =>
          refine ⟨entry.1, entry.2, inside, ?_, reached⟩
          rw [Nat.zero_add]
  · rw [lastNode?, ← order, List.getLast?_map]
    rfl
  · rw [nestingNodes, ← order]
    rfl
  · intro front visit behind next cut follows
    refine ⟨NodeRef.previous?_of_next? follows, ?_⟩
    obtain ⟨later, rfl⟩ := areSpaced_visitsFrom 0 list front visit behind next cut follows
    refine ⟨_, later, rfl, ?_⟩
    rw [List.map_map]
    exact map_ref_visitsFrom 0 _

/-- What `:not(, &).a` is read as, with the empty selector kept. -/
def nestedInNot : SelectorList :=
  [[⟨.pseudoClass "not".toList (.selectors [[], [⟨.nesting, 7⟩]]), 0⟩, ⟨.className "a".toList, 9⟩]]

/-- Between `:not(…)` and `.a` a walk visits the `&` in the argument. -/
theorem walk_preorder_nested :
    ∃ first behind next, nestedInNot.visits = [] ++ first :: behind ∧
      first.ref.next? = some next ∧ next.previous? = some first.ref ∧
        ∃ argument later, behind = argument ++ ⟨first.place.next, next⟩ :: later ∧
          argument.map (·.ref) = first.ref.node.component.arguments.walk := by
  obtain ⟨behind, cut⟩ :
      ∃ behind, nestedInNot.visits =
        [] ++ Visit.mk [(0, 0)] ⟨nestedInNot.flatten, 0, Nat.zero_lt_succ 1⟩ :: behind := by
    unfold visits nestedInNot
    rw [visitsFrom_cons, visitsIn_of_lt (Nat.zero_lt_succ 1)]
    exact ⟨_, rfl⟩
  exact ⟨_, behind, _, cut, rfl, (walk_preorder nestedInNot).2.2.2.2.2 [] _ behind _ cut rfl⟩

end SelectorList

end ScssLint
