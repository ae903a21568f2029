import ScssLint.Proofs.Selector.Places

/-! # The order of the nodes of a selector list

A walk visits the nodes of a selector list in the order in which they are written: their offsets
ascend and stay inside the text (`SelectorList.climbs_walk`). White space that stands for a
combinator stands in front of the next node, and the nodes of an argument stand between its
parentheses.
-/

namespace ScssLint

/-- Whether offsets ascend strictly from `low` on and stay below `high`. -/
structure Climbs (low high : Nat) (offsets : List Nat) : Prop where
  inside : ∀ offset ∈ offsets, low ≤ offset ∧ offset < high
  ascending : offsets.Pairwise (· < ·)

namespace Climbs

variable {low mid high : Nat} {offsets others : List Nat}

theorem nil (low high : Nat) : Climbs low high [] :=
  ⟨List.forall_mem_nil _, .nil⟩

theorem mono {low' high' : Nat} (climbs : Climbs low high offsets) (less : low' ≤ low)
    (more : high ≤ high') : Climbs low' high' offsets := by
  refine ⟨fun offset member => ?_, climbs.ascending⟩
  obtain ⟨above, below⟩ := climbs.inside offset member
  exact ⟨Nat.le_trans less above, Nat.lt_of_lt_of_le below more⟩

theorem append (first : Climbs low mid offsets) (second : Climbs mid high others)
    (front : low ≤ mid) (back : mid ≤ high) : Climbs low high (offsets ++ others) := by
  refine ⟨List.forall_mem_append.2 ⟨(first.mono (Nat.le_refl _) back).inside,
    (second.mono front (Nat.le_refl _)).inside⟩, ?_⟩
  refine List.pairwise_append.2
    ⟨first.ascending, second.ascending, fun offset member other later => ?_⟩
  exact Nat.lt_of_lt_of_le (first.inside offset member).2 (second.inside other later).1

theorem singleton {offset : Nat} (above : low ≤ offset) (below : offset < high) :
    Climbs low high [offset] :=
  ⟨List.forall_mem_singleton.2 ⟨above, below⟩, List.pairwise_singleton _ _⟩

theorem cons {offset : Nat} (behind : Climbs (offset + 1) high offsets) (above : low ≤ offset)
    (below : offset < high) : Climbs low high (offset :: offsets) :=
  (singleton above (Nat.lt_succ_self _)).append behind (Nat.le_succ_of_le above) below

theorem sublist (climbs : Climbs low high offsets) (sub : others.Sublist offsets) :
    Climbs low high others :=
  ⟨fun offset member => climbs.inside offset (sub.mem member), climbs.ascending.sublist sub⟩

theorem shift (climbs : Climbs low high offsets) (distance : Nat) :
    Climbs (distance + low) (distance + high) (offsets.map (distance + ·)) := by
  refine ⟨List.forall_mem_map.2 fun offset member => ?_, ?_⟩
  · obtain ⟨above, below⟩ := climbs.inside offset member
    exact ⟨Nat.add_le_add_left above _, Nat.add_lt_add_left below _⟩
  · exact List.pairwise_map.2 (climbs.ascending.imp fun order => Nat.add_lt_add_left order _)

end Climbs

open Css

namespace Agenda

/-- What is planned for later is visited later. -/
theorem nodes_append (first second : Agenda) :
    nodes (first ++ second) = first.nodes ++ second.nodes := by
  induction first using nodes.induct with
  | case1 =>
      rw [nodes]
      rfl
  | case2 selector index rest known current ih =>
      rw [List.append_assoc] at ih
      rw [List.cons_append, nodes, dif_pos known, nodes, dif_pos known]
      exact congrArg (List.cons current) ih
  | case3 selector index rest ended ih =>
      rw [List.cons_append, nodes, dif_neg ended, nodes, dif_neg ended, ih]

end Agenda

/-- The offsets of the nodes of a selector, each in front of those of its arguments. -/
def Selector.offsets : Selector → List Nat
  | [] => []
  | node :: rest =>
      node.offset :: (node.component.arguments.walk.map (·.offset) ++ Selector.offsets rest)

theorem SelectorList.walk_nil : SelectorList.walk [] = [] := by
  rw [walk, Agenda.ofList, List.map_nil, Agenda.nodes]

theorem Selector.offsets_cons {node : SelectorNode} {rest : Selector}
    (simple : node.component.arguments = []) :
    Selector.offsets (node :: rest) = node.offset :: rest.offsets := by
  rw [offsets, simple, SelectorList.walk_nil, List.map_nil, List.nil_append]

theorem Selector.offsets_append (first second : Selector) :
    Selector.offsets (first ++ second) = first.offsets ++ second.offsets := by
  induction first with
  | nil =>
      rw [offsets]
      rfl
  | cons node rest ih =>
      rw [List.cons_append, offsets, offsets, ih, List.cons_append, List.append_assoc]

theorem Agenda.offsets_nodes (selector : Selector) (index : Nat) :
    (nodes [(selector, index)]).map (·.offset) = Selector.offsets (selector.drop index) := by
  induction left : selector.length - index generalizing index with
  | zero =>
      have ended : ¬index < selector.length := by omega
      rw [nodes, dif_neg ended, nodes, List.drop_eq_nil_of_le (Nat.le_of_not_lt ended),
        Selector.offsets, List.map_nil]
  | succ count ih =>
      have known : index < selector.length := by omega
      rw [nodes, dif_pos known, List.drop_eq_getElem_cons known, Selector.offsets, List.map_cons,
        nodes_append, List.map_append, ih (index + 1) (by omega)]
      rfl

namespace SelectorList

theorem offsets_walk (list : SelectorList) :
    list.walk.map (·.offset) = list.flatMap Selector.offsets := by
  induction list with
  | nil =>
      rw [walk_nil]
      rfl
  | cons selector list ih =>
      rw [walk] at ih ⊢
      rw [show Agenda.ofList (selector :: list) = [(selector, 0)] ++ Agenda.ofList list from rfl,
        Agenda.nodes_append, List.map_append, ih, Agenda.offsets_nodes]
      rfl

section Places

open Outline (ArePlaced start_lt stands_body arePlaced_pieces)

variable {text : Text} {low high : Nat}

/-- What a piece holds stands inside of it. -/
theorem exists_body {piece : Piece} (placed : ArePlaced text low [piece] high) :
    ∃ start stop, low ≤ start ∧ stop ≤ high ∧ ArePlaced text start piece.body.pieces stop := by
  cases opens : piece.token.opens? with
  | none =>
      rw [(List.forall_mem_singleton.1 placed.sound).body_of_opensNone opens]
      have behindNothing : ArePlaced text low ([] ++ [piece]) high := placed
      obtain ⟨mid, none, own⟩ := behindNothing.split []
      exact ⟨low, mid, Nat.le_refl _, own.stands.low_le_high, none⟩
  | some bracket =>
      obtain ⟨start, stop, above, below, stands, sound⟩ := stands_body opens placed
      obtain ⟨stop', less, pieces⟩ := arePlaced_pieces stands sound
      exact ⟨start, stop', Nat.le_of_lt above, Nat.le_trans less below, pieces⟩

/-- A piece starts where the text in front of it ends, and is not empty. -/
theorem start_of_placed {piece : Piece} (placed : ArePlaced text low [piece] high) :
    piece.start = low ∧ low < high := by
  have bounds := start_lt placed.stands
  have stands := placed.stands
  rw [List.flatMap_singleton] at stands
  exact ⟨Piece.start_eq stands, Nat.lt_of_le_of_lt bounds.1 bounds.2⟩

/-- Selectors between commas stand one behind the other. -/
theorem climbs_readSelectors {first : Bool} {pieces : List Piece} {list : SelectorList}
    (segments : ∀ {segment low high selector}, segment <:+: pieces →
      ArePlaced text low segment high → readNodes false none segment = .ok selector →
      Climbs low high selector.offsets)
    (placed : ArePlaced text low pieces high) (read : readSelectors first pieces = .ok list) :
    Climbs low high (list.flatMap Selector.offsets) := by
  induction list generalizing first pieces low with
  | nil => exact .nil low high
  | cons selector list ih =>
      obtain ⟨segment, found, others, same, _, readFirst, ends⟩ := exists_first read
      obtain ⟨rfl, rfl⟩ := List.cons.inj same
      rcases ends with ⟨rfl, rfl⟩ | ⟨comma, behind, rfl, readOthers⟩
      · rw [List.flatMap_singleton]
        exact segments List.infix_rfl placed readFirst
      · have isLater : behind <:+: segment ++ comma :: behind :=
          ((List.suffix_cons comma behind).trans (List.suffix_append segment _)).isInfix
        obtain ⟨mid, inSegment, others⟩ := placed.split segment
        obtain ⟨behindComma, inComma, inBehind⟩ := others.split [comma]
        have climbsBehind := ih (fun among => segments (among.trans isLater)) inBehind readOthers
        rw [List.flatMap_cons]
        exact (segments (List.prefix_append segment _).isInfix inSegment readFirst).append
          (climbsBehind.mono inComma.stands.low_le_high (Nat.le_refl _))
          inSegment.stands.low_le_high others.stands.low_le_high

/-- A node stands behind the white space in front of it. -/
theorem climbs_behindGap {from' : Nat} {gap? : Option Nat} {node : SelectorNode}
    {later : List Nat} (front : from' ≤ low) (pending : ∀ gap ∈ gap?, from' ≤ gap ∧ gap < low)
    (climbs : Climbs low high (Selector.offsets [node] ++ later)) :
    Climbs from' high (Selector.offsets (behindGap gap? node) ++ later) := by
  unfold behindGap
  split
  · exact climbs.mono front (Nat.le_refl _)
  · rename_i gap
    split
    · exact climbs.mono front (Nat.le_refl _)
    · obtain ⟨above, below⟩ := pending gap rfl
      have first := climbs.inside node.offset (by rw [Selector.offsets]; exact List.mem_cons_self)
      rw [Selector.offsets_cons rfl]
      exact (climbs.mono below (Nat.le_refl _)).cons above (by omega)

/-- **The nodes of a selector stand where its pieces do.** White space that is pending stands in
front of them. -/
theorem climbs_readNodes {from' : Nat} {behindSimple : Bool} {gap? : Option Nat}
    {pieces : List Piece} {nodes : Selector} (placed : ArePlaced text low pieces high)
    (front : from' ≤ low) (pending : ∀ gap ∈ gap?, from' ≤ gap ∧ gap < low)
    (read : readNodes behindSimple gap? pieces = .ok nodes) :
    Climbs from' high nodes.offsets := by
  have noGap {from' low : Nat} : ∀ gap ∈ (none : Option Nat), from' ≤ gap ∧ gap < low :=
    fun _ none => absurd none (Option.not_mem_none _)
  induction read using induct_readNodes generalizing from' low high with
  | nil =>
      rw [Selector.offsets]
      exact .nil from' high
  | @space _ _ piece rest _ _ _ ih =>
      obtain ⟨mid, own, others⟩ := placed.split [piece]
      obtain ⟨start, long⟩ := start_of_placed own
      refine ih others (by omega) fun gap known => ?_
      rcases mem_pending known with earlier | ⟨_, rfl⟩
      · have := pending gap earlier
        omega
      · omega
  | @component _ _ piece rest component count later reads _ _ inside behind =>
      obtain ⟨mid, own, others⟩ := placed.split [piece]
      obtain ⟨start, long⟩ := start_of_placed own
      rw [Selector.offsets_append]
      refine climbs_behindGap front pending ?_
      rw [Selector.offsets, Selector.offsets, List.append_nil, List.cons_append]
      suffices climbs : Climbs mid high
          (component.arguments.walk.map (·.offset) ++ later.offsets) by
        have before := others.stands.low_le_high
        refine (climbs.mono ?_ (Nat.le_refl _)).cons ?_ ?_ <;> dsimp only <;> omega
      cases reads with
      | @argument name argument more list readList =>
          obtain ⟨stop, inArgument, inMore⟩ := others.split [argument]
          obtain ⟨start', stop', above, below, body⟩ := exists_body inArgument
          rw [offsets_walk]
          have climbs := climbs_readSelectors
            (fun among inSegment readSegment => inside argument List.mem_cons_self among readSegment
              inSegment (Nat.le_refl _) noGap) body readList
          exact (climbs.mono above below).append (behind inMore (Nat.le_refl _) noGap)
            inArgument.stands.low_le_high inMore.stands.low_le_high
      | simple plain _ =>
          rw [← List.take_append_drop count rest] at others
          obtain ⟨stop, taken, dropped⟩ := others.split _
          rw [Component.arguments_of_isPlain plain, walk_nil]
          exact behind dropped taken.stands.low_le_high noGap

end Places

/-- **A walk visits the nodes in the order of their offsets.** -/
theorem climbs_walk {text : Text} {list : SelectorList} (read : parse text = .ok list) :
    Climbs 0 (Text.bytes text) (list.walk.map (·.offset)) := by
  obtain ⟨mid, less, placed⟩ :=
    Outline.arePlaced_pieces (Forest.stands_ofText text) (Forest.isSound_ofText text)
  rw [offsets_walk]
  refine (climbs_readSelectors (fun _ inSegment readSegment => ?_) placed
    (parse_eq_ok_iff.1 read)).mono (Nat.le_refl _) less
  exact climbs_readNodes inSegment (Nat.le_refl _)
    (fun _ none => absurd none (Option.not_mem_none _)) readSegment

end SelectorList

end ScssLint
