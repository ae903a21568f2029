import ScssLint.Comment.Blanking
import ScssLint.Css.Forest
import ScssLint.Stylesheet.Store

/-!
# Reading stylesheets

A stylesheet is read in three steps: its line comments are blanked, the text is grouped into tokens
and blocks, and each block is cut into statements.  Reading never fails.  What is no statement is
skipped with a warning, so the result is an outline: the statements and the warnings of a block in
the order of the text.
-/

namespace ScssLint

/-- A passage that is skipped as no statement. -/
inductive ParseWarning where
  /-- A closing bracket that closes nothing. -/
  | unmatchedBrace (offset : Nat)
  | blockWithoutSelector (offset : Nat)
  /-- Neither a rule nor a declaration. -/
  | unknownStatement (offset : Nat) (statement : Text)
deriving DecidableEq, Repr

namespace ParseWarning

/-- The warning in words. -/
def message : ParseWarning → String
  | unmatchedBrace _ => "unmatched '\x7D'"
  | blockWithoutSelector _ => "block without a selector"
  | unknownStatement _ _ => "skipping statement that is neither a rule nor a declaration"

/-- Where the skipped passage starts. -/
def offset : ParseWarning → Nat
  | unmatchedBrace offset => offset
  | blockWithoutSelector offset => offset
  | unknownStatement offset _ => offset

end ParseWarning

/-- The statements and the warnings of a block in order. -/
inductive Outline where
  | nil
  /-- A statement, what its block holds, and what follows it. -/
  | node (statement : Statement) (span : Span) (inside rest : Outline)
  | warning (warning : ParseWarning) (rest : Outline)
deriving DecidableEq, Repr

namespace Outline

open Css

/-- What ends a statement. -/
inductive Ending where
  /-- A block in curly brackets. -/
  | block (piece : Piece)
  | semicolon (piece : Piece)
  /-- The end of the enclosing block or of the text. -/
  | nothing
deriving DecidableEq, Repr

/-- A statement cut off from what follows it. -/
structure Cut where
  before : List Piece
  ending : Ending
  rest : List Piece
deriving DecidableEq, Repr

/-- Cut behind the first statement.  A block in curly brackets that is glued to `#` is an
interpolation, which ends no statement. -/
def cutStatement (behindHash : Bool) : List Piece → Cut
  | [] => ⟨[], .nothing, []⟩
  | piece :: rest =>
      if piece.token = .semicolon then
        ⟨[], .semicolon piece, rest⟩
      else if piece.token = .opening .curly ∧ behindHash = false then
        ⟨[], .block piece, rest⟩
      else
        let cut := cutStatement (piece.token == .delim '#') rest
        ⟨piece :: cut.before, cut.ending, cut.rest⟩

namespace Ending

/-- The piece that ends a statement. -/
def pieces : Ending → List Piece
  | block piece => [piece]
  | semicolon piece => [piece]
  | nothing => []

end Ending

/-- The cut loses no piece. -/
theorem cutStatement_append (behindHash : Bool) (pieces : List Piece) :
    (cutStatement behindHash pieces).before ++ (cutStatement behindHash pieces).ending.pieces ++
      (cutStatement behindHash pieces).rest = pieces := by
  induction pieces generalizing behindHash with
  | nil => rfl
  | cons piece rest ih =>
      unfold cutStatement
      split
      · rfl
      · split
        · rfl
        · simpa using ih (piece.token == .delim '#')

theorem weight_cutStatement (behindHash : Bool) (pieces : List Piece) :
    weight (cutStatement behindHash pieces).ending.pieces +
      weight (cutStatement behindHash pieces).rest ≤ weight pieces := by
  induction pieces generalizing behindHash with
  | nil => simp [cutStatement, Ending.pieces]
  | cons piece rest ih =>
      unfold cutStatement
      split
      · simp [Ending.pieces]
      · split
        · simp [Ending.pieces]
        · have := ih (piece.token == .delim '#')
          simp only [weight_cons]
          omega

theorem weight_rest_cutStatement_le (behindHash : Bool) (pieces : List Piece) :
    weight (cutStatement behindHash pieces).rest ≤ weight pieces := by
  have := weight_cutStatement behindHash pieces
  omega

/-- A cut takes at least the first piece. -/
theorem weight_rest_cutStatement_lt (behindHash : Bool) (piece : Piece) (rest : List Piece) :
    weight (cutStatement behindHash (piece :: rest)).rest < weight (piece :: rest) := by
  unfold cutStatement
  split
  · simp [Piece.weight]
  · split
    · simp [Piece.weight]
    · exact Nat.lt_of_le_of_lt (weight_rest_cutStatement_le ..) (weight_lt_cons piece rest)

/-- The block that ends a statement holds less than the text from the statement on. -/
theorem weight_body_cutStatement_lt {behindHash : Bool} {pieces : List Piece} {block : Piece}
    (hending : (cutStatement behindHash pieces).ending = .block block) :
    weight block.body.pieces < weight pieces := by
  have hcut := weight_cutStatement behindHash pieces
  have hbody := Forest.weight_pieces_body_lt block
  simp only [hending, Ending.pieces, weight_cons, weight_nil] at hcut
  omega

/-- The pieces without the white space behind them. -/
def withoutTrailingSpace (pieces : List Piece) : List Piece :=
  (pieces.reverse.dropWhile (·.token == .whitespace)).reverse

/-- The text of some pieces without the comments in front of the first one. -/
def bareText : List Piece → Text
  | [] => []
  | piece :: rest => Piece.text { piece with lead := [] } ++ piecesText rest

/-- The offset behind some pieces that start at `start`. -/
def stopFrom (start : Nat) (pieces : List Piece) : Nat :=
  (pieces.getLast?.map (·.stop)).getD start

/-- The statement that `text` and a block make, and whether statements are read from the block.

A custom property takes the block as its value.  A property without a value groups the
declarations of the block.  Anything else is the selector of a rule. -/
def blockStatement (text : Text) (block : Piece) : Statement × Bool :=
  match splitDeclaration? text with
  | none => (.rule text, true)
  | some (property, value) =>
      if isCustomProperty property then
        (.declaration property (bareText [block]), false)
      else if value.isEmpty then
        (.declaration property [], true)
      else
        (.rule text, true)

/-- The statements and warnings of some pieces. -/
def ofPieces (pieces : List Piece) : Outline :=
  match pieces with
  | [] => nil
  | piece :: rest =>
      let start := piece.head.start
      match piece.token with
      | .whitespace | .semicolon => ofPieces rest
      | .closing .curly => warning (.unmatchedBrace start) (ofPieces rest)
      | .atKeyword name =>
          let cut := cutStatement false rest
          let parts := withoutTrailingSpace cut.before
          let params := Text.trim (piecesText parts)
          match _hending : cut.ending with
          | .block block =>
              node (.atRule name params true) ⟨start, block.stop⟩ (ofPieces block.body.pieces)
                (ofPieces cut.rest)
          | _ =>
              node (.atRule name params false) ⟨start, stopFrom piece.stop parts⟩ nil
                (ofPieces cut.rest)
      | _ =>
          let cut := cutStatement false (piece :: rest)
          let parts := withoutTrailingSpace cut.before
          let text := bareText parts
          match _hending : cut.ending with
          | .block block =>
              if parts.isEmpty then
                warning (.blockWithoutSelector start) (ofPieces cut.rest)
              else
                let (statement, opened) := blockStatement text block
                node statement ⟨start, block.stop⟩
                  (if opened then ofPieces block.body.pieces else nil) (ofPieces cut.rest)
          | _ =>
              match splitDeclaration? text with
              | some (property, value) =>
                  node (.declaration property value) ⟨start, stopFrom start parts⟩ nil
                    (ofPieces cut.rest)
              | none => warning (.unknownStatement start text) (ofPieces cut.rest)
termination_by weight pieces
decreasing_by
  · exact weight_lt_cons piece rest
  · exact weight_lt_cons piece rest
  · exact Nat.lt_trans (weight_body_cutStatement_lt _hending) (weight_lt_cons piece rest)
  · exact Nat.lt_of_le_of_lt (weight_rest_cutStatement_le false rest) (weight_lt_cons piece rest)
  · exact Nat.lt_of_le_of_lt (weight_rest_cutStatement_le false rest) (weight_lt_cons piece rest)
  · exact weight_rest_cutStatement_lt false piece rest
  · exact weight_body_cutStatement_lt _hending
  · exact weight_rest_cutStatement_lt false piece rest
  · exact weight_rest_cutStatement_lt false piece rest
  · exact weight_rest_cutStatement_lt false piece rest

/-- The outline of a stylesheet. -/
def ofText (source : Text) : Outline :=
  ofPieces (Forest.ofText (blankLineComments source)).pieces

/-- The warnings at all depths in the order of the text. -/
def warnings : Outline → List ParseWarning
  | nil => []
  | node _ _ inside rest => inside.warnings ++ rest.warnings
  | warning found rest => found :: rest.warnings

end Outline

namespace Stylesheet

/-- Add the statements of an outline under a node. -/
def appendOutline (sheet : Stylesheet) (above : Nat) : Outline → Stylesheet
  | .nil => sheet
  | .node statement span inside rest =>
      let added := sheet.append above statement span
      (added.appendOutline sheet.size inside).appendOutline above rest
  | .warning _ rest => sheet.appendOutline above rest

/-- The tree of a stylesheet. -/
def ofText (source : Text) : Stylesheet :=
  (empty (Text.bytes source)).appendOutline 0 (Outline.ofText source)

end Stylesheet

end ScssLint
