import ScssLint.Proofs.Css.Cuts
import ScssLint.Proofs.Css.Pieces
import ScssLint.Proofs.Stylesheet.Layout
import ScssLint.Proofs.Stylesheet.Sections

/-! # The spans of a tree

The statements and warnings of an outline stand one behind the other, and those inside a statement
stand inside its span (`Outline.IsPlaced`). That is read off the division of the pieces
(`Outline.Divides.isPlaced`) and carried over to the tree of a text, whose nodes stand where their
spans say (`Stylesheet.standsIn_ofText`), inside the nodes above them
(`Stylesheet.isInside_ofText`) and one behind the other (`Stylesheet.siblings_ofText`).
-/

namespace ScssLint

open Css

/-- Whether a statement can be written as `own`: a rule begins with its selector, an at-rule with an
at sign. -/
def Statement.IsWritten (own : Text) : Statement → Prop
  | root => True
  | rule selector => selector <+: own
  | atRule .. => own.head? = some '@'
  | declaration _ _ => True

/-- Whether a statement is what some tokens at its span spell. -/
def Statement.StandsAt (text : Text) (span : Span) (statement : Statement) : Prop :=
  ∃ tokens, tokens ≠ [] ∧ Stands text span.start tokens span.stop ∧
    statement.IsWritten (spelling tokens)

theorem Statement.StandsAt.start_lt_stop {text : Text} {span : Span} {statement : Statement}
    (stands : statement.StandsAt text span) : span.start < span.stop := by
  obtain ⟨tokens, written, own, _⟩ := stands
  obtain ⟨lexeme, tokens, rfl⟩ := List.exists_cons_of_ne_nil written
  have := own.of_mem List.mem_cons_self
  omega

namespace Outline

/-- Whether the statements and the warnings of an outline stand in a text one behind the other
between the offsets `low` and `high`, and those inside a statement inside its span. -/
def IsPlaced (text : Text) : Nat → Nat → Outline → Prop
  | low, high, nil => low ≤ high
  | low, high, node statement span inside rest =>
      low ≤ span.start ∧ statement.StandsAt text span ∧
        inside.IsPlaced text (span.start + 1) span.stop ∧ rest.IsPlaced text span.stop high
  | low, high, warning found rest => low ≤ found.offset ∧ rest.IsPlaced text (found.offset + 1) high

/-- The tokens of a statement without the comments in front of it. -/
def passage (first : Piece) (more : List Piece) : List Lexeme :=
  first.own ++ more.flatMap Piece.lexemes

theorem spelling_lexemes (pieces : List Piece) :
    spelling (pieces.flatMap Piece.lexemes) = piecesText pieces := by
  induction pieces with
  | nil => rfl
  | cons piece pieces ih =>
      rw [List.flatMap_cons, spelling_append, ih]
      rfl

theorem spelling_passage (first : Piece) (more : List Piece) :
    spelling (passage first more) = bareText (first :: more) := by
  rw [passage, spelling_append, spelling_lexemes]
  rfl

theorem passage_append (first : Piece) (more others : List Piece) :
    passage first (more ++ others) = passage first more ++ others.flatMap Piece.lexemes := by
  rw [passage, List.flatMap_append, ← List.append_assoc, passage]

section Places

variable {text : Text} {low high : Nat} {first : Piece} {more : List Piece}

theorem stopFrom_eq (stands : Stands text low (more.flatMap Piece.lexemes) high) :
    stopFrom low more = high := by
  induction more generalizing low with
  | nil => exact stands.high_eq.symm
  | cons piece more ih =>
      obtain ⟨mid, own, others⟩ := stands.split _
      rw [stopFrom_cons, Piece.stop_eq own, ih others]

/-- **A statement stands at its extent.** -/
theorem stands_extent (stands : Stands text low ((first :: more).flatMap Piece.lexemes) high) :
    low ≤ first.head.start ∧ extent first more = ⟨first.head.start, high⟩ ∧
      Stands text first.head.start (passage first more) high := by
  obtain ⟨mid, front, behind⟩ := stands.split first.lexemes
  have stop : (extent first more).stop = high := by
    rw [extent, Piece.stop_eq front, stopFrom_eq behind]
  rw [List.flatMap_cons, Piece.lexemes_eq, List.append_assoc] at stands
  obtain ⟨start, lead, own⟩ := stands.split _
  obtain ⟨inside, shape⟩ := first.exists_own
  have same : first.head.start = start := by
    rw [shape] at own
    exact own.start_eq
  rw [same]
  refine ⟨lead.low_le_high, ?_, own⟩
  rw [← stop, ← same]
  rfl

end Places

section Division

variable {text : Text}

theorem IsPlaced.low_le_high {low high : Nat} {outline : Outline}
    (placed : outline.IsPlaced text low high) : low ≤ high := by
  induction outline generalizing low high with
  | nil => exact placed
  | node statement span inside rest inner later =>
      obtain ⟨behind, _, within, others⟩ := placed
      have := inner within
      have := later others
      omega
  | warning found rest later =>
      have := later placed.2
      have := placed.1
      omega

theorem IsPlaced.mono {low low' high high' : Nat} {outline : Outline}
    (placed : outline.IsPlaced text low high) (less : low' ≤ low) (more : high ≤ high') :
    outline.IsPlaced text low' high' := by
  induction outline generalizing low low' with
  | nil => exact Nat.le_trans less (Nat.le_trans placed more)
  | node statement span inside rest _ later =>
      obtain ⟨behind, stands, within, others⟩ := placed
      exact ⟨Nat.le_trans less behind, stands, within, later others (Nat.le_refl _)⟩
  | warning found rest later =>
      exact ⟨Nat.le_trans less placed.1, later placed.2 (Nat.le_refl _)⟩

/-- Pieces where they stand in a text. -/
structure ArePlaced (text : Text) (low : Nat) (pieces : List Piece) (high : Nat) : Prop where
  stands : Stands text low (pieces.flatMap Piece.lexemes) high
  sound : ∀ piece ∈ pieces, piece.IsSound (Text.bytes text)

theorem ArePlaced.split {low high : Nat} {others : List Piece} (pieces : List Piece)
    (placed : ArePlaced text low (pieces ++ others) high) :
    ∃ mid, ArePlaced text low pieces mid ∧ ArePlaced text mid others high := by
  obtain ⟨stands, sound⟩ := placed
  rw [List.flatMap_append] at stands
  obtain ⟨mid, first, second⟩ := stands.split _
  obtain ⟨soundFirst, soundSecond⟩ := List.forall_mem_append.1 sound
  exact ⟨mid, ⟨first, soundFirst⟩, ⟨second, soundSecond⟩⟩

/-- The pieces of a forest stand where its tokens do. -/
theorem arePlaced_pieces {low high : Nat} {forest : Forest}
    (stands : Stands text low forest.lexemes high) (sound : forest.IsSound (Text.bytes text)) :
    ∃ mid ≤ high, ArePlaced text low forest.pieces mid := by
  obtain ⟨last, whole, _⟩ := forest.lexemes_pieces
  rw [whole] at stands
  obtain ⟨mid, pieces, behind⟩ := stands.split _
  exact ⟨mid, behind.low_le_high, pieces, Forest.isSound_pieces sound⟩

/-- What a block holds stands behind its opening bracket. -/
theorem stands_body {low high : Nat} {block : Piece} {bracket : Bracket}
    (opens : block.token.opens? = some bracket) (placed : ArePlaced text low [block] high) :
    ∃ start stop, low < start ∧ stop ≤ high ∧ Stands text start block.body.lexemes stop ∧
      block.body.IsSound (Text.bytes text) := by
  obtain ⟨stands, sound⟩ := placed
  obtain ⟨close?, own, _, _, inside⟩ :=
    (List.forall_mem_singleton.1 sound).exists_block opens
  rw [List.flatMap_singleton, Piece.lexemes_eq, own] at stands
  obtain ⟨start, lead, rest⟩ := stands.split _
  have positive := rest.bytes_pos
  obtain ⟨stop, body, close⟩ := rest.tail.split _
  refine ⟨_, stop, ?_, close.low_le_high, body, inside⟩
  have := lead.low_le_high
  rw [Lexeme.stop, rest.start_eq]
  omega

section Statements

variable {low high : Nat} {first : Piece} {more others : List Piece} {statement : Statement}

theorem start_lt (stands : Stands text low ((first :: more).flatMap Piece.lexemes) high) :
    low ≤ first.head.start ∧ first.head.start < high := by
  obtain ⟨behind, _, own⟩ := stands_extent stands
  obtain ⟨inside, shape⟩ := first.exists_own
  rw [passage, shape] at own
  have := own.of_mem List.mem_cons_self
  omega

theorem standsAt_extent (stands : Stands text low ((first :: more).flatMap Piece.lexemes) high)
    (written : statement.IsWritten (bareText (first :: more))) :
    statement.StandsAt text (extent first more) := by
  obtain ⟨_, same, own⟩ := stands_extent stands
  rw [same]
  refine ⟨passage first more, ?_, own, ?_⟩
  · rw [passage, first.exists_own.choose_spec]
    exact List.cons_ne_nil _ _
  · rwa [spelling_passage]

/-- An at-rule is written with an at sign. -/
theorem head?_bareText {name : Text} (named : first.token = .atKeyword name)
    (stands : Stands text low ((first :: more).flatMap Piece.lexemes) high) :
    (bareText (first :: more)).head? = some '@' := by
  obtain ⟨_, _, own⟩ := stands_extent stands
  obtain ⟨inside, shape⟩ := first.exists_own
  rw [passage, shape] at own
  obtain ⟨rest, spelled⟩ := own.isSpelled
  rw [show first.head.token = .atKeyword name from named] at spelled
  rw [← spelling_passage, passage, shape, List.cons_append, spelling_cons, List.head?_append,
    show first.head.text.head? = some '@' from spelled]
  rfl

theorem IsLine.isWritten (line : IsLine first more statement)
    (stands : Stands text low ((first :: more).flatMap Piece.lexemes) high) :
    statement.IsWritten (bareText (first :: more)) := by
  cases line with
  | atRule named => exact head?_bareText named stands
  | declaration _ _ => trivial
  | custom _ _ _ => trivial

theorem IsHeader.isWritten (header : IsHeader first more statement)
    (stands : Stands text low ((first :: (more ++ others)).flatMap Piece.lexemes) high) :
    statement.IsWritten (bareText (first :: (more ++ others))) := by
  cases header with
  | atRule named => exact head?_bareText named stands
  | nested _ _ => trivial
  | rule _ =>
      rw [← spelling_passage, ← spelling_passage, passage_append, spelling_append]
      exact List.prefix_append _ _

end Statements

/-- **The statements of pieces stand where the pieces do.** -/
theorem Divides.isPlaced {pieces : List Piece} {outline : Outline}
    (divides : Divides pieces outline) {low high : Nat} (placed : ArePlaced text low pieces high) :
    outline.IsPlaced text low high := by
  induction divides generalizing low high with
  | done => exact placed.stands.low_le_high
  | @gap piece rest _ _ _ ih =>
      obtain ⟨mid, first, others⟩ := placed.split [piece]
      exact (ih others).mono first.stands.low_le_high (Nat.le_refl _)
  | @skipped first more rest found _ skips _ ih =>
      obtain ⟨mid, own, others⟩ := placed.split (first :: more)
      obtain ⟨behind, before⟩ := start_lt own.stands
      rw [← skips.offset_eq] at behind before
      exact ⟨behind, (ih others).mono before (Nat.le_refl _)⟩
  | @line first more rest statement _ line _ ih =>
      obtain ⟨mid, own, others⟩ := placed.split (first :: more)
      obtain ⟨behind, same, _⟩ := stands_extent own.stands
      have standsAt := standsAt_extent own.stands (line.isWritten own.stands)
      have before := (start_lt own.stands).2
      rw [same] at standsAt ⊢
      exact ⟨behind, standsAt, before, ih others⟩
  | @block first block more spaces rest statement _ _ header isBlock _ _ inner later =>
      obtain ⟨mid, own, others⟩ :=
        placed.split (first :: (more ++ spaces ++ [block]))
      obtain ⟨behind, same, _⟩ := stands_extent own.stands
      have stands := own.stands
      rw [List.append_assoc more] at stands
      have written := header.isWritten stands
      rw [← List.append_assoc] at written
      have standsAt := standsAt_extent own.stands written
      obtain ⟨last, front, body⟩ := own.split (first :: (more ++ spaces))
      have before := (start_lt front.stands).2
      obtain ⟨start, stop, low', high', tokens, sound⟩ :=
        stands_body (show block.token.opens? = some .curly by rw [isBlock.1]; rfl) body
      obtain ⟨stop', high'', inside⟩ := arePlaced_pieces tokens sound
      rw [same] at standsAt ⊢
      exact ⟨behind, standsAt, (inner inside).mono (by simp only; omega) (by simp only; omega),
        later others⟩

/-- The outline of a text stands in the blanked text. -/
theorem isPlaced_ofText (source : Text) :
    (ofText source).IsPlaced (blankLineComments source) 0
      (Text.bytes (blankLineComments source)) := by
  obtain ⟨mid, less, pieces⟩ :=
    arePlaced_pieces (Forest.stands_ofText (blankLineComments source)) (Forest.isSound_ofText _)
  exact ((divides_ofPieces _).isPlaced pieces).mono (Nat.le_refl _) less

end Division

end Outline

namespace Stylesheet

/-- The span of a node; an empty one for a number that names no node. -/
def span (sheet : Stylesheet) (id : Nat) : Span :=
  (sheet.get? id).elim ⟨0, 0⟩ (·.span)

/-- Whether a node is a child of another node and stands in a text inside its span. -/
def IsInside (sheet : Stylesheet) (text : Text) (id : Nat) : Prop :=
  ∃ node above parent, sheet.get? id = some node ∧ node.parent = .node above ∧
    sheet.get? above = some parent ∧ id ∈ parent.children ∧
      parent.span.start ≤ node.span.start ∧ node.span.stop ≤ parent.span.stop ∧
        node.statement.StandsAt text node.span

section Held

variable {sheet : Stylesheet} {text : Text} {above next low high : Nat} {outline : Outline}

theorem span_of_get? {id : Nat} {node : StyleNode} (found : sheet.get? id = some node) :
    sheet.span id = node.span := by
  rw [span, found]
  rfl

/-- Children stand one behind the other. -/
theorem Holds.siblings (holds : sheet.Holds above next outline)
    (placed : outline.IsPlaced text low high) :
    (∀ id ∈ outline.childIds next, low ≤ (sheet.span id).start ∧ (sheet.span id).stop ≤ high) ∧
      (outline.childIds next).Pairwise fun first second =>
        (sheet.span first).stop ≤ (sheet.span second).start := by
  induction outline generalizing above next low with
  | nil => exact ⟨List.forall_mem_nil _, .nil⟩
  | node statement span inside rest _ later =>
      obtain ⟨own, _, behind⟩ := holds
      obtain ⟨front, stands, _, others⟩ := placed
      obtain ⟨bounds, ordered⟩ := later behind others
      have same := span_of_get? own
      have nonempty := stands.start_lt_stop
      have before := others.low_le_high
      rw [Outline.childIds, List.forall_mem_cons, List.pairwise_cons, same]
      refine ⟨⟨⟨front, before⟩, fun id member => ?_⟩, fun id member => (bounds id member).1, ordered⟩
      obtain ⟨start, stop⟩ := bounds id member
      exact ⟨by omega, stop⟩
  | warning found rest later =>
      obtain ⟨bounds, ordered⟩ := later holds placed.2
      refine ⟨fun id member => ?_, ordered⟩
      obtain ⟨start, stop⟩ := bounds id member
      have := placed.1
      exact ⟨by omega, stop⟩

/-- The children of all nodes stand one behind the other. -/
theorem Holds.siblings_inside (holds : sheet.Holds above next outline)
    (placed : outline.IsPlaced text low high) (id : Nat) (from' : next ≤ id)
    (upTo : id < next + outline.count) :
    (sheet.children id).Pairwise fun first second =>
      (sheet.span first).stop ≤ (sheet.span second).start := by
  induction outline generalizing above next low high with
  | nil => simp only [Outline.count_nil] at upTo; omega
  | node statement span inside rest inner later =>
      obtain ⟨own, within, behind⟩ := holds
      obtain ⟨_, _, placedInside, others⟩ := placed
      rw [Outline.count_node] at upTo
      by_cases first : id = next
      · subst first
        rw [children_of_get? own]
        exact (within.siblings placedInside).2
      · by_cases inInside : id < next + 1 + inside.count
        · exact inner within placedInside (by omega) (by omega)
        · exact later behind others (by omega) (by omega)
  | warning found rest later => exact later holds placed.2 from' upTo

/-- All nodes below a node stand inside of it. -/
theorem Holds.isInside (holds : sheet.Holds above next outline)
    (placed : outline.IsPlaced text low high) {parent : StyleNode}
    (known : sheet.get? above = some parent)
    (children : ∀ child ∈ outline.childIds next, child ∈ parent.children)
    (start : parent.span.start ≤ low) (stop : high ≤ parent.span.stop) {id : Nat}
    (from' : next ≤ id) (upTo : id < next + outline.count) : sheet.IsInside text id := by
  induction outline generalizing above next low high parent with
  | nil => simp only [Outline.count_nil] at upTo; omega
  | node statement span inside rest inner later =>
      obtain ⟨own, within, behind⟩ := holds
      obtain ⟨front, stands, placedInside, others⟩ := placed
      obtain ⟨isChild, siblings⟩ := List.forall_mem_cons.1 children
      have before := others.low_le_high
      have nonempty := stands.start_lt_stop
      rw [Outline.count_node] at upTo
      by_cases first : id = next
      · subst first
        exact ⟨_, above, parent, own, rfl, known, isChild, by simp only; omega, by simp only; omega,
          stands⟩
      · by_cases inInside : id < next + 1 + inside.count
        · exact inner within placedInside own (fun _ member => member) (Nat.le_succ _)
            (Nat.le_refl _) (by omega) (by omega)
        · exact later behind others known siblings (by omega) stop (by omega) (by omega)
  | warning found rest later =>
      have := placed.1
      exact later holds placed.2 known children (by omega) stop from' upTo

/-- The spans start between the ends of the outline. -/
theorem Holds.bounds (holds : sheet.Holds above next outline)
    (placed : outline.IsPlaced text low high) (id : Nat) (from' : next ≤ id)
    (upTo : id < next + outline.count) :
    low ≤ (sheet.span id).start ∧ (sheet.span id).start < high := by
  induction outline generalizing above next low high with
  | nil => simp only [Outline.count_nil] at upTo; omega
  | node statement span inside rest inner later =>
      obtain ⟨own, within, behind⟩ := holds
      obtain ⟨front, stands, placedInside, others⟩ := placed
      have nonempty := stands.start_lt_stop
      have before := others.low_le_high
      rw [Outline.count_node] at upTo
      by_cases first : id = next
      · subst first
        rw [span_of_get? own]
        exact ⟨front, by simp only; omega⟩
      · by_cases inInside : id < next + 1 + inside.count
        · have := inner within placedInside (by omega) (by omega)
          omega
        · have := later behind others (by omega) (by omega)
          omega
  | warning found rest later =>
      have := later holds placed.2 from' upTo
      have := placed.1
      omega

/-- **The spans start in the order of the numbers.** -/
theorem Holds.ascending (holds : sheet.Holds above next outline)
    (placed : outline.IsPlaced text low high) {id id' : Nat} (from' : next ≤ id) (order : id < id')
    (upTo : id' < next + outline.count) : (sheet.span id).start < (sheet.span id').start := by
  induction outline generalizing above next low high with
  | nil => simp only [Outline.count_nil] at upTo; omega
  | node statement span inside rest inner later =>
      obtain ⟨own, within, behind⟩ := holds
      obtain ⟨front, stands, placedInside, others⟩ := placed
      have nonempty := stands.start_lt_stop
      rw [Outline.count_node] at upTo
      by_cases inInside : id' < next + 1 + inside.count
      · by_cases first : id = next
        · subst first
          have := within.bounds placedInside id' (by omega) (by omega)
          rw [span_of_get? own]
          exact Nat.lt_of_succ_le this.1
        · exact inner within placedInside (by omega) (by omega)
      · by_cases inRest : next + 1 + inside.count ≤ id
        · exact later behind others inRest (by omega)
        · have := behind.bounds others id' (by omega) (by omega)
          by_cases first : id = next
          · subst first
            rw [span_of_get? own]
            exact Nat.lt_of_lt_of_le nonempty this.1
          · have := within.bounds placedInside id (by omega) (by omega)
            omega
  | warning found rest later => exact later holds placed.2 from' upTo

end Held

/-- Whether a node stands where its span says, and begins there as its statement does. -/
def StandsIn (text : Text) (node : StyleNode) : Prop :=
  ∃ before own behind, text = before ++ own ++ behind ∧ own ≠ [] ∧
    node.span = ⟨Text.bytes before, Text.bytes (before ++ own)⟩ ∧
      node.statement.IsWritten own

theorem standsIn_of_standsAt {text : Text} {node : StyleNode}
    (standsAt : node.statement.StandsAt text node.span) : StandsIn text node := by
  obtain ⟨tokens, written, stands, spelled⟩ := standsAt
  obtain ⟨before, behind, whole, start⟩ := stands.exists_text
  have stop : node.span.stop = Text.bytes (before ++ spelling tokens) := by
    rw [Text.bytes_append, start]
    exact stands.high_eq
  refine ⟨before, spelling tokens, behind, whole, ?_, ?_, spelled⟩
  · obtain ⟨lexeme, tokens, rfl⟩ := List.exists_cons_of_ne_nil written
    rw [spelling_cons]
    exact List.append_ne_nil_of_left_ne_nil stands.text_ne_nil _
  · rw [← stop, start]

section Texts

variable (source : Text)

theorem root_ofText : (ofText source).get? 0 =
    some ⟨.root, ⟨0, Text.bytes (blankLineComments source)⟩, .nothing,
      (Outline.ofText source).childIds 1⟩ := by
  rw [Comment.bytes_blankLineComments]
  exact (isLaidOut_ofText source).root

variable {source}

theorem lt_of_get? {id : Nat} {node : StyleNode} (found : (ofText source).get? id = some node) :
    id < 1 + (Outline.ofText source).count := by
  rw [← (isLaidOut_ofText source).size]
  exact (Array.getElem?_eq_some_iff.1 found).1

/-- **Every node but the root stands in the blanked text inside the node above it.** -/
theorem isInside_ofText {id : Nat} {node : StyleNode} (inner : id ≠ 0)
    (found : (ofText source).get? id = some node) :
    (ofText source).IsInside (blankLineComments source) id :=
  (isLaidOut_ofText source).holds.isInside (Outline.isPlaced_ofText source) (root_ofText source)
    (fun _ member => member) (Nat.le_refl _) (Nat.le_refl _) (Nat.pos_of_ne_zero inner)
    (lt_of_get? found)

theorem standsAt_ofText {id : Nat} {node : StyleNode} (inner : id ≠ 0)
    (found : (ofText source).get? id = some node) :
    node.statement.StandsAt (blankLineComments source) node.span := by
  obtain ⟨node', _, _, found', _, _, _, _, _, stands⟩ := isInside_ofText inner found
  rw [found] at found'
  obtain rfl := Option.some.inj found'
  exact stands

theorem standsIn_ofText {id : Nat} {node : StyleNode} (inner : id ≠ 0)
    (found : (ofText source).get? id = some node) : StandsIn (blankLineComments source) node :=
  standsIn_of_standsAt (standsAt_ofText inner found)

theorem descendants_ofText :
    (ofText source).descendants = List.range' 1 (Outline.ofText source).count := by
  rw [Stylesheet.descendants, below_eq, children_of_get? (root_ofText source),
    (isLaidOut_ofText source).holds.below]

theorem siblings_ofText (id : Nat) : ((ofText source).children id).Pairwise fun first second =>
    ((ofText source).span first).stop ≤ ((ofText source).span second).start := by
  have holds := (isLaidOut_ofText source).holds
  have placed := Outline.isPlaced_ofText source
  by_cases inner : id = 0
  · subst inner
    rw [children_of_get? (root_ofText source)]
    exact (holds.siblings placed).2
  · cases found : (ofText source).get? id with
    | none =>
        rw [children, found]
        exact .nil
    | some node =>
        exact holds.siblings_inside placed id (Nat.pos_of_ne_zero inner) (lt_of_get? found)

theorem links_ofText (id child : Nat) :
    child ∈ (ofText source).children id ↔ (ofText source).parent child = .node id := by
  have laidOut := isLaidOut_ofText source
  constructor
  · intro member
    have younger := lt_of_mem_children member
    by_cases inner : id = 0
    · subst inner
      rw [children_of_get? (root_ofText source)] at member
      exact laidOut.holds.parent_childIds child member
    · refine laidOut.holds.parent_children (Nat.pos_of_ne_zero inner) ?_ child member
      rw [← laidOut.size]
      exact Nat.lt_trans younger.1 younger.2
  · intro above
    cases found : (ofText source).get? child with
    | none =>
        rw [parent, found] at above
        exact Parent.noConfusion above
    | some node =>
        have inner : child ≠ 0 := by
          rintro rfl
          rw [parent_of_get? (root_ofText source)] at above
          exact Parent.noConfusion above
        obtain ⟨node', up, parent, found', same, foundParent, member, _⟩ :=
          isInside_ofText inner found
        rw [found] at found'
        obtain rfl := Option.some.inj found'
        rw [parent_of_get? found, same] at above
        obtain rfl := Parent.node.inj above
        rwa [children_of_get? foundParent]

end Texts

end Stylesheet

end ScssLint
