import ScssLint.Proofs.Stylesheet.Spans
import ScssLint.Selector.Walk
import ScssLint.Selector.Parser

/-! # Where the nodes of a selector stand

A walk visits nodes of the list and of its arguments only (`Agenda.isBelow_of_mem_nodes`). Each of
them starts where a piece of the text does (`SelectorList.startsPiece_of_mem_walk`), and a reference
to the enclosing rule is read from an ampersand, in front of which comments may stand
(`SelectorList.exists_ampersand`). The offset of the reference is where the comments start.

What holds of all that is read is proved by induction on how the nodes of a selector are read
(`SelectorList.induct_readNodes`) or on how the pieces of a list are cut at commas
(`SelectorList.induct_cut`).
-/

namespace ScssLint

open Css

/-- Block comments with nothing between them. -/
inductive AreComments : Text → Prop
  | nil : AreComments []
  | cons {comment rest : Text} : IsBlockComment comment → AreComments rest →
      AreComments (comment ++ rest)

theorem AreComments.eq_nil_or_slash {text : Text} (comments : AreComments text) :
    text = [] ∨ ∃ rest, text = '/' :: rest := by
  cases comments with
  | nil => exact .inl rfl
  | cons comment _ =>
      obtain ⟨body, _, rfl⟩ := comment
      exact .inr ⟨_, rfl⟩

/-- Comment tokens in front of another token spell comments. -/
theorem areComments_spelling {text : Text} {low high : Nat} {lead tokens : List Lexeme}
    {lexeme : Lexeme} (stands : Stands text low (lead ++ lexeme :: tokens) high)
    (comments : ∀ lexeme ∈ lead, lexeme.token = .comment) : AreComments (spelling lead) := by
  induction lead generalizing low with
  | nil => exact .nil
  | cons first lead ih =>
      obtain ⟨isComment, others⟩ := List.forall_mem_cons.1 comments
      obtain ⟨rest, spelled⟩ := Stands.isSpelled stands
      obtain ⟨_, _, own⟩ := stands.tail.split _
      rw [isComment] at spelled
      rw [spelling_cons]
      refine .cons (spelled ?_) (ih stands.tail others)
      change spelling (lead ++ lexeme :: tokens) ++ rest ≠ []
      rw [spelling_append, spelling_cons]
      simp [own.text_ne_nil]

/-- Whether a node belongs to a selector list or to an argument of one of its nodes. -/
inductive SelectorNode.IsBelow (node : SelectorNode) : SelectorList → Prop
  | here {selector : Selector} {list : SelectorList} : selector ∈ list → node ∈ selector →
      node.IsBelow list
  | inside {selector : Selector} {list : SelectorList} {outer : SelectorNode} : selector ∈ list →
      outer ∈ selector → node.IsBelow outer.component.arguments → node.IsBelow list

theorem SelectorNode.IsBelow.mono {node : SelectorNode} {list list' : SelectorList}
    (below : node.IsBelow list) (more : ∀ selector ∈ list, selector ∈ list') :
    node.IsBelow list' := by
  cases below with
  | here listed member => exact .here (more _ listed) member
  | inside listed outer inner => exact .inside (more _ listed) outer inner

/-- Whether a component holds no selectors and is not what white space stands for. -/
def Component.isPlain : Component → Bool
  | .pseudoClass _ (.selectors _) | .combinator .descendant => false
  | _ => true

theorem Component.arguments_of_isPlain {component : Component} (plain : component.isPlain = true) :
    component.arguments = [] := by
  cases component with
  | pseudoClass name argument =>
      cases argument with
      | selectors list => exact Bool.noConfusion plain
      | _ => rfl
  | _ => rfl

namespace Agenda

theorem mem_ofList {list : SelectorList} {entry : Selector × Nat} :
    entry ∈ ofList list ↔ entry.1 ∈ list ∧ entry.2 = 0 := by
  obtain ⟨selector, index⟩ := entry
  simp only [ofList, List.mem_map, Prod.mk.injEq]
  constructor
  · rintro ⟨_, member, rfl, rfl⟩
    exact ⟨member, rfl⟩
  · rintro ⟨member, rfl⟩
    exact ⟨selector, member, rfl, rfl⟩

/-- A walk visits what belongs to the selectors on its agenda. -/
theorem isBelow_of_mem_nodes {agenda : Agenda} {ref : NodeRef} (member : ref ∈ agenda.nodes) :
    ∃ entry ∈ agenda, ref.node.IsBelow [entry.1] := by
  induction agenda using nodes.induct with
  | case1 =>
      rw [nodes] at member
      exact absurd member List.not_mem_nil
  | case2 selector index rest known current ih =>
      rw [nodes, dif_pos known] at member
      have own : current.node ∈ selector := List.get_mem _ _
      rcases List.mem_cons.1 member with rfl | later
      · exact ⟨_, List.mem_cons_self, .here List.mem_cons_self own⟩
      · obtain ⟨entry, planned, below⟩ := ih later
        rcases List.mem_append.1 planned with argument | behind
        · have inside := below.mono (List.forall_mem_singleton.2 (mem_ofList.1 argument).1)
          exact ⟨_, List.mem_cons_self, .inside List.mem_cons_self own inside⟩
        · rcases List.mem_cons.1 behind with rfl | behind
          · exact ⟨_, List.mem_cons_self, below⟩
          · exact ⟨entry, List.mem_cons_of_mem _ behind, below⟩
  | case3 selector index rest ended ih =>
      rw [nodes, dif_neg ended] at member
      obtain ⟨entry, planned, below⟩ := ih member
      exact ⟨entry, List.mem_cons_of_mem _ planned, below⟩

end Agenda

namespace SelectorList

theorem isBelow_of_mem_walk {list : SelectorList} {ref : NodeRef} (member : ref ∈ list.walk) :
    ref.node.IsBelow list := by
  obtain ⟨entry, planned, below⟩ := Agenda.isBelow_of_mem_nodes member
  exact below.mono (List.forall_mem_singleton.2 (Agenda.mem_ofList.1 planned).1)

/-- Whether a piece stands in a text. -/
def IsPiece (text : Text) (piece : Piece) : Prop :=
  ∃ low high, Outline.ArePlaced text low [piece] high

theorem isPiece_of_mem {text : Text} {low high : Nat} {pieces : List Piece}
    (placed : Outline.ArePlaced text low pieces high) : ∀ piece ∈ pieces, IsPiece text piece := by
  intro piece member
  obtain ⟨front, back, rfl⟩ := List.append_of_mem member
  rw [List.append_cons] at placed
  obtain ⟨_, own, _⟩ := placed.split _
  obtain ⟨low, _, single⟩ := own.split _
  exact ⟨low, _, single⟩

/-- The pieces of a block stand in the text in which the block does. -/
theorem isPiece_body {text : Text} {piece : Piece} (isPiece : IsPiece text piece) :
    ∀ inner ∈ piece.body.pieces, IsPiece text inner := by
  obtain ⟨low, high, placed⟩ := isPiece
  cases opens : piece.token.opens? with
  | none =>
      rw [(List.forall_mem_singleton.1 placed.sound).body_of_opensNone opens]
      exact List.forall_mem_nil _
  | some bracket =>
      obtain ⟨start, stop, _, _, stands, sound⟩ := Outline.stands_body opens placed
      obtain ⟨_, _, pieces⟩ := Outline.arePlaced_pieces stands sound
      exact isPiece_of_mem pieces

theorem parse_eq_ok_iff {text : Text} {list : SelectorList} :
    parse text = .ok list ↔ readSelectors true (Forest.ofText text).pieces = .ok list := by
  rw [parse, ofText]
  cases readSelectors true (Forest.ofText text).pieces with
  | error fault =>
      constructor
      · intro same
        change Except.error _ = _ at same
        cases same
      · intro same
        cases same
  | ok found =>
      exact ⟨fun same => congrArg Except.ok (Except.ok.inj same),
        fun same => congrArg Except.ok (Except.ok.inj same)⟩

/-- Pieces without a comma, or those in front of the first comma, the comma and those behind it. -/
inductive IsCut : List Piece → Prop
  | last {segment : List Piece} : (∀ piece ∈ segment, piece.token ≠ .comma) → IsCut segment
  | comma {segment behind : List Piece} {comma : Piece} :
      (∀ piece ∈ segment, piece.token ≠ .comma) → comma.token = .comma →
      IsCut (segment ++ comma :: behind)

theorem isCut (pieces : List Piece) : IsCut pieces := by
  induction pieces with
  | nil => exact .last (List.forall_mem_nil _)
  | cons piece rest ih =>
      by_cases isComma : piece.token = .comma
      · have here : IsCut ([] ++ piece :: rest) := .comma (List.forall_mem_nil _) isComma
        exact here
      · cases ih with
        | last others => exact .last (List.forall_mem_cons.2 ⟨isComma, others⟩)
        | @comma segment behind comma others found =>
            have longer : IsCut ((piece :: segment) ++ comma :: behind) :=
              .comma (List.forall_mem_cons.2 ⟨isComma, others⟩) found
            exact longer

/-- Induction on the pieces of a list. Those in front of the first comma have arguments, which are
lists, and those behind it are a list. -/
@[elab_as_elim]
theorem induct_cut {motive : List Piece → Prop}
    (last : ∀ segment, (∀ piece ∈ segment, piece.token ≠ .comma) →
      (∀ argument ∈ segment, motive argument.body.pieces) → motive segment)
    (comma : ∀ segment comma behind, (∀ piece ∈ segment, piece.token ≠ .comma) →
      comma.token = .comma → (∀ argument ∈ segment, motive argument.body.pieces) →
      motive behind → motive (segment ++ comma :: behind))
    (pieces : List Piece) : motive pieces := by
  induction left : weight pieces using Nat.strongRecOn generalizing pieces with
  | _ count ih =>
    subst left
    have inside : ∀ argument ∈ pieces, motive argument.body.pieces := fun argument member =>
      ih _ (weight_body_lt member) _ rfl
    cases isCut pieces with
    | last noComma => exact last pieces noComma inside
    | @comma segment behind sign noComma isComma =>
        have lighter : weight behind < weight (segment ++ sign :: behind) := by
          rw [weight_append]
          exact Nat.lt_of_lt_of_le (weight_lt_cons sign behind) (Nat.le_add_left _ _)
        exact comma segment sign behind noComma isComma
          (fun argument member => inside argument (List.mem_append_left _ member))
          (ih _ lighter _ rfl)

section Segments

variable {first : Bool} {segment behind : List Piece} {comma : Piece}

theorem splitAtComma_append (noComma : ∀ piece ∈ segment, piece.token ≠ .comma)
    (rest : List Piece) :
    splitAtComma (segment ++ rest) = (segment ++ (splitAtComma rest).1, (splitAtComma rest).2) := by
  induction segment with
  | nil => rfl
  | cons piece segment ih =>
      obtain ⟨here, others⟩ := List.forall_mem_cons.1 noComma
      rw [List.cons_append, splitAtComma, if_neg here, ih others]
      rfl

theorem splitAtComma_of_noComma (noComma : ∀ piece ∈ segment, piece.token ≠ .comma) :
    splitAtComma segment = (segment, none) := by
  have whole := splitAtComma_append noComma []
  rwa [List.append_nil, splitAtComma, List.append_nil] at whole

theorem splitAtComma_of_comma (noComma : ∀ piece ∈ segment, piece.token ≠ .comma)
    (isComma : comma.token = .comma) :
    splitAtComma (segment ++ comma :: behind) = (segment, some behind) := by
  rw [splitAtComma_append noComma, splitAtComma, if_pos isComma, List.append_nil]

/-- What is read without a comma. -/
theorem readSelectors_of_noComma (noComma : ∀ piece ∈ segment, piece.token ≠ .comma) :
    readSelectors first segment =
      match readNodes false none segment with
      | .error fault => .error fault
      | .ok [] => .error (if first then .emptySelector else .trailingComma)
      | .ok selector => .ok [selector] := by
  have cut := splitAtComma_of_noComma noComma
  rw [readSelectors]
  split
  · rename_i found split
    obtain ⟨rfl, _⟩ := Prod.mk.inj (split.symm.trans cut)
    rfl
  · rename_i split
    exact absurd (Prod.mk.inj (split.symm.trans cut)).2 (Option.some_ne_none _)

/-- What is read around a comma. -/
theorem readSelectors_of_comma (noComma : ∀ piece ∈ segment, piece.token ≠ .comma)
    (isComma : comma.token = .comma) :
    readSelectors first (segment ++ comma :: behind) =
      match readNodes false none segment with
      | .error fault => .error fault
      | .ok [] => .error .emptySelectorInList
      | .ok selector =>
          match readSelectors false behind with
          | .error fault => .error fault
          | .ok selectors => .ok (selector :: selectors) := by
  have cut : splitAtComma (segment ++ comma :: behind) = (segment, some behind) :=
    splitAtComma_of_comma noComma isComma
  rw [readSelectors]
  split
  · rename_i split
    exact absurd (Prod.mk.inj (split.symm.trans cut)).2.symm (Option.some_ne_none _)
  · rename_i found later split
    obtain ⟨rfl, same⟩ := Prod.mk.inj (split.symm.trans cut)
    obtain rfl := Option.some.inj same
    rfl

end Segments

/-- A list starts with the selector that is read from the pieces in front of the first comma. -/
theorem exists_first {first : Bool} {pieces : List Piece} {list : SelectorList}
    (read : readSelectors first pieces = .ok list) :
    ∃ segment selector others, list = selector :: others ∧ selector ≠ [] ∧
      readNodes false none segment = .ok selector ∧
      (pieces = segment ∧ others = [] ∨
        ∃ comma behind, pieces = segment ++ comma :: behind ∧
          readSelectors false behind = .ok others) := by
  cases isCut pieces with
  | last noComma =>
      rw [readSelectors_of_noComma noComma] at read
      split at read
      · cases read
      · cases read
      · rename_i selector written readFirst
        obtain rfl := Except.ok.inj read
        exact ⟨_, selector, [], rfl, fun empty => written empty, readFirst, .inl ⟨rfl, rfl⟩⟩
  | comma noComma isComma =>
      rw [readSelectors_of_comma noComma isComma] at read
      split at read
      · cases read
      · cases read
      · rename_i selector written readFirst
        split at read
        · cases read
        · rename_i others readOthers
          obtain rfl := Except.ok.inj read
          exact ⟨_, selector, others, rfl, fun empty => written empty, readFirst,
            .inr ⟨_, _, rfl, readOthers⟩⟩

/-- Each selector of a list is read from some of the pieces. -/
theorem exists_segment {first : Bool} {pieces : List Piece} {list : SelectorList}
    (read : readSelectors first pieces = .ok list) :
    ∀ selector ∈ list, ∃ segment, segment <:+: pieces ∧ selector ≠ [] ∧
      readNodes false none segment = .ok selector := by
  induction list generalizing first pieces with
  | nil => exact List.forall_mem_nil _
  | cons selector list ih =>
      obtain ⟨segment, found, others, same, written, readFirst, ends⟩ := exists_first read
      obtain ⟨rfl, rfl⟩ := List.cons.inj same
      rcases ends with ⟨rfl, rfl⟩ | ⟨comma, behind, rfl, readOthers⟩
      · exact List.forall_mem_singleton.2 ⟨_, List.infix_rfl, written, readFirst⟩
      · refine List.forall_mem_cons.2 ⟨⟨segment, (List.prefix_append segment _).isInfix, written,
          readFirst⟩, fun selector member => ?_⟩
        obtain ⟨later, among, read⟩ := ih readOthers selector member
        have inBehind : behind <:+: segment ++ comma :: behind :=
          ((List.suffix_cons comma behind).trans (List.suffix_append segment _)).isInfix
        exact ⟨later, among.trans inBehind, read⟩

theorem weight_le_of_infix {segment pieces : List Piece} (among : segment <:+: pieces) :
    weight segment ≤ weight pieces := by
  obtain ⟨before, behind, rfl⟩ := among
  rw [weight_append, weight_append]
  omega

/-- Without a hash nothing is added to a name. -/
theorem tailLength_of_ne {piece : Piece} (other : piece.token ≠ .delim '#') (pieces : List Piece) :
    tailLength (piece :: pieces) = 0 := by
  have noSign : isDelim '#' piece = false := by
    rw [isDelim]
    exact beq_eq_false_iff_ne.2 other
  cases pieces with
  | nil => rfl
  | cons next pieces =>
      cases pieces <;>
        simp only [tailLength, noSign, Bool.false_and, Bool.false_eq_true, ↓reduceIte]

/-- The component that starts with `piece`, and how many of the pieces behind it belong to it. -/
def readComponent (piece : Piece) (rest : List Piece) : Except SelectorFault (Component × Nat) :=
  if piece.token = .colon then
    match selectorFunction? rest with
    | some (name, argument) =>
        match readSelectors true argument.body.pieces with
        | .error fault => .error fault
        | .ok list => .ok (.pseudoClass name (.selectors list), 1)
    | none => pseudo rest
  else
    component piece rest

theorem readComponent_of_ne {piece : Piece} (noColon : piece.token ≠ .colon) (rest : List Piece) :
    readComponent piece rest = component piece rest :=
  if_neg noColon

/-- A dot and the name behind it. -/
theorem readComponent_dot {dot : Piece} {rest : List Piece} {count : Nat}
    (isDot : dot.token = .delim '.') (named : nameLength? rest = some count) :
    readComponent dot rest = .ok (.className (piecesText (rest.take count)), count) := by
  rw [readComponent_of_ne (by rw [isDot]; exact Token.noConfusion), component, isDot]
  simp only [named]

theorem readNodes_cons {behindSimple : Bool} {gap? : Option Nat} {piece : Piece}
    {rest : List Piece} (dark : piece.token ≠ .whitespace) :
    readNodes behindSimple gap? (piece :: rest) =
      match readComponent piece rest with
      | .error fault => .error fault
      | .ok (component, count) =>
          match readNodes (!component.isCombinator) none (rest.drop count) with
          | .error fault => .error fault
          | .ok nodes => .ok (behindGap gap? ⟨component, piece.start⟩ ++ nodes) := by
  rw [readNodes, if_neg dark, readComponent]
  by_cases isColon : piece.token = .colon
  · rw [if_pos isColon, if_pos isColon]
    cases isFunction : selectorFunction? rest with
    | none => rfl
    | some found => rfl
  · cases component piece rest with
    | error fault => simp only [if_neg isColon]
    | ok found =>
        obtain ⟨component, count⟩ := found
        cases later : readNodes (!component.isCombinator) none (rest.drop count) with
        | error fault => simp only [if_neg isColon, later]
        | ok nodes => simp only [if_neg isColon, later]

/-- The ways in which a component is read from a piece, `rest` and the number of pieces that it takes
from there. -/
inductive ReadsComponent (piece : Piece) : List Piece → Component → Nat → Prop
  | argument {name : Text} {argument : Piece} {more : List Piece} {list : SelectorList} :
      readSelectors true argument.body.pieces = .ok list →
      ReadsComponent piece (argument :: more) (.pseudoClass name (.selectors list)) 1
  | simple {rest : List Piece} {component : Component} {count : Nat} : component.isPlain = true →
      (component = .nesting → piece.token = .delim '&') → ReadsComponent piece rest component count

section Components

variable {piece : Piece} {rest : List Piece} {result : Component} {count : Nat}

theorem readsComponent_of_pseudo (read : pseudo rest = .ok (result, count)) :
    ReadsComponent piece rest result count := by
  unfold pseudo at read
  repeat' split at read
  all_goals first
    | (obtain ⟨rfl, rfl⟩ := Prod.mk.inj (Except.ok.inj read)
       exact .simple rfl fun isNesting => Component.noConfusion isNesting)
    | cases read

theorem readsComponent_of_component (read : component piece rest = .ok (result, count)) :
    ReadsComponent piece rest result count := by
  unfold component at read
  split at read
  case h_4 isAmpersand =>
    obtain ⟨rfl, rfl⟩ := Prod.mk.inj (Except.ok.inj read)
    exact .simple rfl fun _ => isAmpersand
  all_goals
    repeat' split at read
    all_goals first
      | (obtain ⟨rfl, rfl⟩ := Prod.mk.inj (Except.ok.inj read)
         exact .simple rfl fun isNesting => Component.noConfusion isNesting)
      | cases read

/-- **A component is read in one of these ways.** -/
theorem readsComponent (read : readComponent piece rest = .ok (result, count)) :
    ReadsComponent piece rest result count := by
  unfold readComponent at read
  split at read
  · split at read
    · rename_i name argument isFunction
      split at read
      · cases read
      · rename_i list readList
        obtain ⟨rfl, rfl⟩ := Prod.mk.inj (Except.ok.inj read)
        obtain ⟨more, rfl⟩ := selectorFunction?_eq_some isFunction
        exact .argument readList
    · exact readsComponent_of_pseudo read
  · exact readsComponent_of_component read

/-- A selector that starts with a piece starts with the component read from it. -/
theorem exists_component {behindSimple : Bool} {gap? : Option Nat} {nodes : Selector}
    (dark : piece.token ≠ .whitespace)
    (read : readNodes behindSimple gap? (piece :: rest) = .ok nodes) :
    ∃ component count later, ReadsComponent piece rest component count ∧
      readNodes (!component.isCombinator) none (rest.drop count) = .ok later ∧
      nodes = behindGap gap? ⟨component, piece.start⟩ ++ later := by
  rw [readNodes_cons dark] at read
  split at read
  · cases read
  · rename_i component count readFirst
    split at read
    · cases read
    · rename_i later readLater
      exact ⟨component, count, later, readsComponent readFirst, readLater,
        (Except.ok.inj read).symm⟩

end Components

/-- White space that is pending behind a piece was so in front of it, or starts with it behind a
simple selector. -/
theorem mem_pending {behindSimple : Bool} {gap? : Option Nat} {start gap : Nat}
    (known : gap ∈ (gap? <|> if behindSimple then some start else none)) :
    gap ∈ gap? ∨ behindSimple = true ∧ start = gap := by
  cases gap? with
  | some earlier => exact .inl known
  | none =>
      change gap ∈ (if behindSimple then some start else none) at known
      split at known
      · rename_i simple
        exact .inr ⟨simple, Option.some.inj known⟩
      · exact absurd known (Option.not_mem_none _)

/-- Induction on how nodes are read. The first piece is white space, which is pending for the pieces
behind it, or it starts a component. The nodes behind that are read in the same way, and so is what is
read from pieces in its argument. -/
@[elab_as_elim]
theorem induct_readNodes
    {motive : (behindSimple : Bool) → (gap? : Option Nat) → (pieces : List Piece) →
      (nodes : Selector) → readNodes behindSimple gap? pieces = .ok nodes → Prop}
    (nil : ∀ {behindSimple gap?} (read : readNodes behindSimple gap? [] = .ok []),
      motive behindSimple gap? [] [] read)
    (space : ∀ {behindSimple gap? piece rest nodes}
      (readRest : readNodes behindSimple (gap? <|> if behindSimple then some piece.start else none)
        rest = .ok nodes)
      (read : readNodes behindSimple gap? (piece :: rest) = .ok nodes),
      motive _ _ rest nodes readRest → motive behindSimple gap? (piece :: rest) nodes read)
    (component : ∀ {behindSimple gap? piece rest component count later}
      (_ : ReadsComponent piece rest component count)
      (readLater : readNodes (!component.isCombinator) none (rest.drop count) = .ok later)
      (read : readNodes behindSimple gap? (piece :: rest) =
        .ok (behindGap gap? ⟨component, piece.start⟩ ++ later)),
      (∀ argument ∈ rest, ∀ {segment selector}, segment <:+: argument.body.pieces →
        ∀ readSegment : readNodes false none segment = .ok selector,
          motive false none segment selector readSegment) →
      motive _ none (rest.drop count) later readLater →
      motive behindSimple gap? (piece :: rest) _ read)
    {behindSimple : Bool} {gap? : Option Nat} {pieces : List Piece} {nodes : Selector}
    (read : readNodes behindSimple gap? pieces = .ok nodes) :
    motive behindSimple gap? pieces nodes read := by
  induction left : weight pieces using Nat.strongRecOn
    generalizing behindSimple gap? pieces nodes with
  | _ count ih =>
    subst left
    cases pieces with
    | nil =>
        have nothing := read
        rw [readNodes] at nothing
        obtain rfl := Except.ok.inj nothing
        exact nil read
    | cons piece rest =>
        have less := weight_lt_cons piece rest
        by_cases blank : piece.token = .whitespace
        · have readRest := read
          rw [readNodes, if_pos blank] at readRest
          exact space readRest read (ih _ less readRest rfl)
        · obtain ⟨_, count, _, reads, readLater, rfl⟩ := exists_component blank read
          have lighter := Nat.lt_of_le_of_lt (weight_drop_le count rest) less
          refine component reads readLater read
            (fun argument member segment _ among readSegment => ih _ ?_ readSegment rfl)
            (ih _ lighter readLater rfl)
          calc weight segment
            _ ≤ weight argument.body.pieces := weight_le_of_infix among
            _ < weight rest := weight_body_lt member
            _ < weight (piece :: rest) := less

theorem eq_of_mem_behindGap {gap? : Option Nat} {node found : SelectorNode}
    (member : found ∈ behindGap gap? node) :
    found = node ∨ ∃ gap ∈ gap?, found = ⟨.combinator .descendant, gap⟩ := by
  unfold behindGap at member
  split at member
  · exact .inl (List.mem_singleton.1 member)
  · rename_i gap
    split at member
    · exact .inl (List.mem_singleton.1 member)
    · rcases List.mem_cons.1 member with same | member
      · exact .inr ⟨gap, rfl, same⟩
      · exact .inl (List.mem_singleton.1 member)

theorem isBelow_singleton {node : SelectorNode} {list : SelectorList} (below : node.IsBelow list) :
    ∃ selector ∈ list, node.IsBelow [selector] := by
  cases below with
  | here listed member => exact ⟨_, listed, .here List.mem_cons_self member⟩
  | inside listed outer inner => exact ⟨_, listed, .inside List.mem_cons_self outer inner⟩

/-- Whether a node starts where a piece of a text does. The piece is an ampersand if the node is a
reference to the enclosing rule. -/
def StartsPiece (text : Text) (node : SelectorNode) : Prop :=
  ∃ piece, IsPiece text piece ∧ piece.start = node.offset ∧
    (node.component = .nesting → piece.token = .delim '&')

/-- **Nodes are read from pieces**, and the combinator that white space stands for starts where the
white space does. -/
theorem startsPiece_of_readNodes {text : Text} {behindSimple : Bool} {gap? : Option Nat}
    {pieces : List Piece} {nodes : Selector} (placed : ∀ piece ∈ pieces, IsPiece text piece)
    (pending : ∀ gap ∈ gap?, ∃ piece, IsPiece text piece ∧ piece.start = gap)
    (read : readNodes behindSimple gap? pieces = .ok nodes) {node : SelectorNode}
    (below : node.IsBelow [nodes]) : StartsPiece text node := by
  have noGap : ∀ gap ∈ (none : Option Nat), ∃ piece, IsPiece text piece ∧ piece.start = gap :=
    fun gap none => absurd none (Option.not_mem_none gap)
  induction read using induct_readNodes generalizing node with
  | nil =>
      cases below with
      | here listed member | inside listed member _ =>
          rw [List.mem_singleton.1 listed] at member
          exact absurd member List.not_mem_nil
  | space _ _ ih =>
      obtain ⟨own, others⟩ := List.forall_mem_cons.1 placed
      refine ih others (fun gap known => ?_) below
      rcases mem_pending known with earlier | ⟨_, rfl⟩
      · exact pending gap earlier
      · exact ⟨_, own, rfl⟩
  | @component _ _ piece _ _ _ later reads _ _ inside behind =>
      obtain ⟨own, others⟩ := List.forall_mem_cons.1 placed
      have isLater {node : SelectorNode} (below : node.IsBelow [later]) : StartsPiece text node :=
        behind (fun piece member => others piece (List.mem_of_mem_drop member)) noGap below
      cases below with
      | here listed member =>
          rw [List.mem_singleton.1 listed] at member
          rcases List.mem_append.1 member with inFirst | inLater
          · rcases eq_of_mem_behindGap inFirst with rfl | ⟨gap, isPending, rfl⟩
            · refine ⟨piece, own, rfl, fun isNesting => ?_⟩
              cases reads with
              | argument _ => exact Component.noConfusion isNesting
              | simple _ ampersand => exact ampersand isNesting
            · obtain ⟨space, isPiece, start⟩ := pending gap isPending
              exact ⟨space, isPiece, start, fun isNesting => Component.noConfusion isNesting⟩
          · exact isLater (.here List.mem_cons_self inLater)
      | inside listed outer inner =>
          rw [List.mem_singleton.1 listed] at outer
          rcases List.mem_append.1 outer with inFirst | inLater
          · rcases eq_of_mem_behindGap inFirst with rfl | ⟨gap, _, rfl⟩
            · cases reads with
              | @argument _ argument _ _ readList =>
                  obtain ⟨selector, selected, belowSelector⟩ := isBelow_singleton inner
                  obtain ⟨segment, among, _, readSegment⟩ :=
                    exists_segment readList selector selected
                  have placedBody := isPiece_body (others argument List.mem_cons_self)
                  exact inside argument List.mem_cons_self among readSegment
                    (fun inner listed => placedBody inner (among.subset listed)) noGap belowSelector
              | simple plain _ =>
                  rw [Component.arguments_of_isPlain plain] at inner
                  cases inner with
                  | here listed _ | inside listed _ _ => exact absurd listed List.not_mem_nil
            · cases inner with
              | here listed _ | inside listed _ _ => exact absurd listed List.not_mem_nil
          · exact isLater (.inside List.mem_cons_self inLater inner)

/-- **Each node that a walk visits starts where a piece of the text does.** -/
theorem startsPiece_of_mem_walk {text : Text} {list : SelectorList} (read : parse text = .ok list)
    {ref : NodeRef} (walked : ref ∈ list.walk) : StartsPiece text ref.node := by
  obtain ⟨_, _, placed⟩ :=
    Outline.arePlaced_pieces (Forest.stands_ofText text) (Forest.isSound_ofText text)
  obtain ⟨selector, selected, below⟩ := isBelow_singleton (isBelow_of_mem_walk walked)
  obtain ⟨segment, among, _, readSegment⟩ :=
    exists_segment (parse_eq_ok_iff.1 read) selector selected
  exact startsPiece_of_readNodes
    (fun piece listed => isPiece_of_mem placed piece (among.subset listed))
    (fun gap none => absurd none (Option.not_mem_none gap)) readSegment below

theorem eq_nesting_of_kind {component : Component} (isNesting : component.kind = .nesting) :
    component = .nesting := by
  cases component with
  | nesting => rfl
  | _ => exact NodeKind.noConfusion isNesting

/-- **A reference starts where an ampersand stands with the comments in front of it.** -/
theorem exists_ampersand {text : Text} {list : SelectorList} (read : parse text = .ok list)
    {ref : NodeRef} (member : ref ∈ list.nestingNodes) :
    ∃ before comments behind, text = before ++ comments ++ '&' :: behind ∧
      AreComments comments ∧ Text.bytes before = ref.offset := by
  obtain ⟨walked, isNesting⟩ := List.mem_filter.1 member
  obtain ⟨piece, ⟨low, high, stands, sound⟩, start, isAmpersand⟩ :=
    startsPiece_of_mem_walk read walked
  have ampersand := isAmpersand (eq_nesting_of_kind (beq_iff_eq.1 isNesting))
  rw [List.flatMap_singleton] at stands
  have own := (List.forall_mem_singleton.1 sound).own_of_opensNone (by rw [ampersand]; rfl)
  have starts := Piece.start_eq stands
  rw [Piece.lexemes_eq, own] at stands
  obtain ⟨before, behind, whole, offset⟩ := stands.exists_text
  obtain ⟨_, _, head⟩ := stands.split _
  obtain ⟨rest, spelled⟩ := head.isSpelled
  rw [show piece.head.token = .delim '&' from ampersand] at spelled
  refine ⟨before, spelling piece.lead, behind, ?_, areComments_spelling stands
    (List.forall_mem_singleton.1 sound).lead, ?_⟩
  · rw [whole, spelling_append, spelling_cons, spelled]
    simp
  · rw [offset, ← starts, start]
    rfl

end SelectorList

end ScssLint
