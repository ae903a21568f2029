import ScssLint.Proofs.Css.Respelling
import ScssLint.Proofs.Stylesheet.Mapping

/-! # Statements with a respelled comment

Where a comment is written in another way, the text is read in the same steps
(`Outline.readsBoth_ofText`). A statement keeps its text, or it holds the comment and keeps what
stands in front of the comment and behind it (`Outline.bareText_respelled`).
-/

namespace ScssLint

open Css
open Comment (blockText)

/-- The part of a text between two offsets. -/
def Text.between (start stop : Nat) (text : Text) : Text :=
  takeBytes (stop - start) (dropBytes start text)

theorem Text.between_append (before text behind : Text) :
    between (bytes before) (bytes before + bytes text) (before ++ (text ++ behind)) = text := by
  rw [between, dropBytes_append (Nat.le_refl _), Nat.sub_self, dropBytes_zero,
    Nat.add_sub_cancel_left, takeBytes_append (Nat.le_refl _), Nat.sub_self, takeBytes_zero,
    List.append_nil]

/-- Whether `comment` is written with `body` between its markers, and the token that starts there,
if any, is the whole comment. -/
structure Comment.IsShown (source : Text) (comment : Comment) (body : Text) : Prop where
  text : comment.text = Text.trim body
  stop : comment.span.stop = comment.span.start + Text.bytes (blockText body)
  only : ∀ lexeme ∈ lexemes source, lexeme.start = comment.span.start →
    lexeme.text = blockText body

namespace Outline

/-- The statements at all depths with their spans, in the order of the text. -/
def statements : Outline → List (Statement × Span)
  | nil => []
  | node statement span inside rest => (statement, span) :: (inside.statements ++ rest.statements)
  | warning _ rest => rest.statements

theorem passage_map (change : Lexeme → Lexeme) (first : Piece) (more : List Piece) :
    passage (first.map change) (more.map (.map change)) = (passage first more).map change := by
  have own : (first.map change).own = first.own.map change :=
    Piece.lexemes_map change { first with lead := [] }
  have others : (more.map (.map change)).flatMap Piece.lexemes =
      (more.flatMap Piece.lexemes).map change := by
    rw [List.flatMap_map, List.map_flatMap]
    exact congrArg more.flatMap (funext (Piece.lexemes_map change))
  rw [passage, own, others, ← List.map_append, passage]

/-- Two texts with the same tokens but for their spelling are read in the same steps. -/
theorem readsBoth_ofText {change : Lexeme → Lexeme} (keeps : KeepsTokens change)
    {source source' : Text} (changed : lexemes (blankLineComments source') =
      (lexemes (blankLineComments source)).map change) :
    ReadsBoth change (Forest.ofText (blankLineComments source)).pieces (ofText source)
      (ofText source') := by
  have pieces : (Forest.ofText (blankLineComments source')).pieces =
      (Forest.ofText (blankLineComments source)).pieces.map (.map change) := by
    rw [Forest.ofText, changed, Forest.ofLexemes_map keeps, Forest.pieces_map keeps]
    rfl
  have both := readsBoth_ofPieces keeps (Forest.ofText (blankLineComments source)).pieces
  rwa [← pieces] at both

section Places

variable {source body : Text} {comment : Comment} {low high : Nat} {first : Piece}
  {more : List Piece}

/-- **What stands in front of a comment in a statement stays in front of it.** -/
theorem bareText_respelled (shown : comment.IsShown source body)
    (stands : Stands source low ((first :: more).flatMap Piece.lexemes) high) (text : Text) :
    bareText ((first :: more).map (.map (.respell comment.span.start text))) =
        bareText (first :: more) ∨
      first.head.start ≤ comment.span.start ∧ comment.span.stop ≤ high ∧ ∃ behind,
        bareText (first :: more) =
          source.between first.head.start comment.span.start ++ (blockText body ++ behind) ∧
        bareText ((first :: more).map (.map (.respell comment.span.start text))) =
          source.between first.head.start comment.span.start ++ (text ++ behind) := by
  obtain ⟨_, _, own⟩ := stands_extent stands
  rw [List.map_cons, ← spelling_passage, ← spelling_passage, passage_map, shown.stop]
  refine (own.respelled shown.only text).imp_right ?_
  rintro ⟨stop, before, behind, start, old, new⟩
  obtain ⟨front, rest, whole, place⟩ := own.exists_text
  have inFront : source.between first.head.start comment.span.start = before := by
    rw [whole, old, start, ← place]
    simp only [List.append_assoc, Text.between_append]
  rw [inFront]
  exact ⟨start ▸ Nat.le_add_right _ _, stop, behind, old, new⟩

/-- The parts of a statement with a block. -/
theorem ArePlaced.split_block {block : Piece} {spaces rest : List Piece}
    (placed : ArePlaced source low (first :: more ++ spaces ++ [block] ++ rest) high)
    (opens : block.token = .opening .curly) :
    ∃ stop start mid last, ArePlaced source low (first :: more) stop ∧ stop ≤ block.stop ∧
      ArePlaced source start block.body.pieces mid ∧ ArePlaced source last rest high := by
  obtain ⟨last, front, others⟩ := placed.split (first :: more ++ spaces ++ [block])
  obtain ⟨inner, parts, body⟩ := front.split (first :: more ++ spaces)
  obtain ⟨stop, own, gap⟩ := parts.split (first :: more)
  obtain ⟨start, _, _, _, tokens, sound⟩ :=
    stands_body (show block.token.opens? = some .curly by rw [opens]; rfl) body
  obtain ⟨mid, _, inside⟩ := arePlaced_pieces tokens sound
  have ends : block.stop = last :=
    Piece.stop_eq (by simpa only [List.flatMap_singleton] using body.stands)
  refine ⟨stop, start, mid, last, own, ?_, inside, others⟩
  rw [ends]
  exact Nat.le_trans gap.stands.low_le_high body.stands.low_le_high

end Places

end Outline

end ScssLint
