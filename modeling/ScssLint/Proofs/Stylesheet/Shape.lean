import ScssLint.Proofs.Stylesheet.Accounting

/-! # The shape of a tree

A rule, and an at-rule with a block, end where their own block does: right behind the closing
bracket of this block or, if it is not closed, with the text (`Stylesheet.endsWith_ofText`).
Together with the places of the statements this gives the shape of the tree of any text
(`Stylesheet.isOrdered_ofText`): spans nest and ascend as the nodes do, start and end between two
characters of the text also where line comments are blanked, and show there what the nodes stand
for.
-/

namespace ScssLint

open Css

/-! ### Blocks and their ends -/

namespace Css

/-- The pieces of a text at one level: outside of all blocks, or inside of one of them. -/
inductive IsLevel (text : Text) : List Piece → Prop
  | whole : IsLevel text (Forest.ofText text).pieces
  | inside {pieces : List Piece} {block : Piece} : IsLevel text pieces → block ∈ pieces →
      IsLevel text block.body.pieces

/-- Where a block of a text ends: right behind its own closing bracket or, if it has none, at the
end of the text. -/
inductive Piece.EndsAt (text : Text) (block : Piece) : Nat → Prop
  | closed {body : Forest} {close : Lexeme} : block.block? = some (body, some close) →
      close.text = ['\x7D'] → EndsAt text block close.stop
  | unclosed {body : Forest} : block.block? = some (body, none) →
      EndsAt text block (Text.bytes text)

/-- A block in curly brackets ends where it stands. -/
theorem Piece.endsAt_of_stands {text : Text} {low high : Nat} {block : Piece}
    (sound : block.IsSound (Text.bytes text)) (opens : block.token = .opening .curly)
    (stands : Stands text low block.lexemes high) : block.EndsAt text high := by
  obtain ⟨lead, head, block?⟩ := block
  cases block? with
  | none =>
      have opensNone := (sound.single rfl).1
      rw [opens] at opensNone
      exact absurd opensNone (Option.some_ne_none _)
  | some inside =>
      obtain ⟨body, close?⟩ := inside
      obtain ⟨⟨bracket, isOpener, closes⟩, unclosed, _⟩ := sound.block body close? rfl
      rw [opens] at isOpener
      obtain rfl := Option.some.inj isOpener
      obtain ⟨_, _, own⟩ := stands.split lead
      obtain ⟨mid, inner, behind⟩ := own.tail.split body.lexemes
      cases close? with
      | none =>
          have last : high = Text.bytes text := by
            rw [← unclosed rfl, own.tail.high_eq, ← Forest.bytes_text]
            simp only [Option.toList_none, List.append_nil]
            rfl
          rw [last]
          exact .unclosed rfl
      | some close =>
          obtain ⟨rest, spelled⟩ := behind.isSpelled
          rw [Token.eq_closing (closes close rfl)] at spelled
          rw [behind.tail.high_eq]
          exact .closed rfl spelled

end Css

/-- Whether a statement is a rule or an at-rule with a block. -/
def Statement.hasBlock : Statement → Bool
  | rule _ => true
  | atRule _ _ hasBlock => hasBlock
  | _ => false

namespace Stylesheet

/-- Whether a span of a text starts with the pieces `first` and `more` and ends with the block behind
them.  None of these pieces ends a statement, as a semicolon or a block in curly brackets that is no
interpolation would, so the block is the one of the statement that starts there. -/
structure EndsWith (text : Text) (span : Span) (first : Piece) (more : List Piece) (block : Piece) :
    Prop where
  level : ∃ front back, IsLevel text (front ++ first :: more ++ block :: back)
  start : span.start = first.head.start
  carries : Outline.CarriesOn false (first :: more)
  isBlock : Outline.IsBlockBehind (first :: more) block
  stop : block.EndsAt text span.stop

section Blocks

variable {source : Text} {id : Nat} {node : StyleNode} {forest : Forest}

/-- Statements are read from the levels of the blanked text. -/
theorem ReadsBlock.isLevel (reads : ReadsBlock source id forest) :
    IsLevel (blankLineComments source) forest.pieces := by
  induction reads with
  | whole => exact .whole
  | inside _ _ _ _ split _ _ ih =>
      refine .inside ih ?_
      rw [split]
      exact List.mem_append_right _ List.mem_cons_self

theorem not_hasBlock_of_isLone {first : Piece} {taken behind rest : List Piece}
    {statement : Statement} (lone : Outline.IsLone first taken behind rest statement) :
    statement.hasBlock = false := by
  cases lone <;> rfl

/-- **A rule, and an at-rule with a block, end with their block.** -/
theorem endsWith_ofText (inner : id ≠ 0) (found : (ofText source).get? id = some node)
    (hasBlock : node.statement.hasBlock = true) :
    ∃ first more block, EndsWith (blankLineComments source) node.span first more block := by
  obtain ⟨above, forest, _, reads, front, first, taken, behind, rest, split, _, span, standsFor⟩ :=
    exists_isReadFrom inner found
  cases standsFor with
  | lone lone _ _ =>
      rw [not_hasBlock_of_isLone lone] at hasBlock
      exact Bool.noConfusion hasBlock
  | @block more spaces _ block _ stem _ isBlock _ _ _ _ =>
      have passage : forest.pieces = front ++ first :: (more ++ spaces) ++ block :: rest := by
        rw [split, ← List.cons_append, List.append_assoc, List.append_assoc]
        rfl
      obtain ⟨_, _, placed⟩ := reads.arePlaced
      rw [passage, List.append_cons] at placed
      obtain ⟨_, own, _⟩ := placed.split _
      obtain ⟨_, _, last⟩ := own.split _
      have stands := last.stands
      rw [List.flatMap_singleton] at stands
      have ends := Piece.endsAt_of_stands (List.forall_mem_singleton.1 last.sound) isBlock.1 stands
      have stop : node.span.stop = block.stop := by
        rw [span, Outline.extent, Outline.stopFrom_concat]
      refine ⟨first, more ++ spaces, block, ⟨front, rest, ?_⟩, ?_, stem.carries, isBlock, ?_⟩
      · rw [← passage]
        exact reads.isLevel
      · rw [span, Outline.extent]
      · rwa [stop, Piece.stop_eq stands]

end Blocks

/-- The shape of a tree whose spans are ranges of `source`. -/
structure IsOrdered (sheet : Stylesheet) (source : Text) : Prop where
  root : ∃ children, sheet.get? 0 = some ⟨.root, ⟨0, Text.bytes source⟩, .nothing, children⟩
  /-- Every other node has a parent, and its span is a part of its parent's span. -/
  inside : ∀ id node, id ≠ 0 → sheet.get? id = some node → ∃ above parent,
    node.parent = .node above ∧ sheet.get? above = some parent ∧
      parent.span.start ≤ node.span.start ∧ node.span.start < node.span.stop ∧
        node.span.stop ≤ parent.span.stop
  /-- Its span starts and ends between two characters of the source. -/
  boundaries : ∀ id node, id ≠ 0 → sheet.get? id = some node →
    source.IsBoundary node.span.start ∧ source.IsBoundary node.span.stop
  /-- In the blanked text it does so, too, and shows what the node stands for. -/
  stands : ∀ id node, id ≠ 0 → sheet.get? id = some node →
    StandsIn (blankLineComments source) node
  /-- The span of a rule, or of an at-rule with a block, ends with this block. -/
  ends : ∀ id node, id ≠ 0 → sheet.get? id = some node → node.statement.hasBlock = true →
    ∃ first more block, EndsWith (blankLineComments source) node.span first more block
  /-- The children of a node stand one behind the other. -/
  siblings : ∀ id, (sheet.children id).Pairwise fun first second =>
    (sheet.span first).stop ≤ (sheet.span second).start
  /-- A node is the parent of its children and of no other node. -/
  links : ∀ id child, child ∈ sheet.children id ↔ sheet.parent child = .node id
  /-- The descendants are all other nodes in the order of their creation. -/
  descendants : sheet.descendants = List.range' 1 (sheet.size - 1)
  ascending : sheet.descendants.Pairwise fun first second =>
    (sheet.span first).start < (sheet.span second).start
  size : sheet.size = sheet.descendants.length + 1

/-- **The tree of a text is ordered, and its spans are ranges of the text.** -/
theorem isOrdered_ofText (source : Text) : (ofText source).IsOrdered source := by
  have laidOut := isLaidOut_ofText source
  refine
    { root := ⟨_, laidOut.root⟩
      inside := fun id node inner found => ?_
      boundaries := fun id node inner found => ?_
      stands := fun id node => standsIn_ofText
      ends := fun id node => endsWith_ofText
      siblings := siblings_ofText
      links := links_ofText
      descendants := ?_
      ascending := ?_
      size := ?_ }
  · obtain ⟨node', above, parent, found', up, foundParent, _, start, stop, stands⟩ :=
      isInside_ofText inner found
    rw [found] at found'
    obtain rfl := Option.some.inj found'
    exact ⟨above, parent, up, foundParent, start, stands.start_lt_stop, stop⟩
  · obtain ⟨tokens, _, stands, _⟩ := standsAt_ofText inner found
    exact stands.isBoundary
  · rw [descendants_ofText, laidOut.size, Nat.add_sub_cancel_left]
  · rw [descendants_ofText]
    refine List.Pairwise.imp_of_mem (fun {first second} member member' order => ?_)
      List.pairwise_lt_range'
    rw [List.mem_range'_1] at member member'
    exact laidOut.holds.ascending (Outline.isPlaced_ofText source) member.1 order member'.2
  · rw [descendants_ofText, List.length_range', laidOut.size, Nat.add_comm]

end Stylesheet

end ScssLint
