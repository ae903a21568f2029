import ScssLint.Stylesheet.Outline

/-! # How pieces divide into statements

`Outline.Divides` says without recursion on cuts what an outline makes of some pieces: gaps,
passages that are skipped with a warning, statements on a line of their own and statements with a
block. What an outline says of its pieces is shown by induction on a division.
-/

namespace ScssLint

namespace Outline

open Css

/-- Whether a piece may stand between two statements. -/
def isGap (piece : Piece) : Bool :=
  piece.token == .whitespace || piece.token == .semicolon

/-- Whether no piece ends a statement. -/
def CarriesOn (behindHash : Bool) : List Piece → Prop
  | [] => True
  | piece :: rest =>
      piece.token ≠ .semicolon ∧ (piece.token = .opening .curly → behindHash = true) ∧
        CarriesOn (piece.token == .delim '#') rest

/-- Whether `first` and the pieces `more` behind it make a statement without statements inside. -/
inductive IsLine (first : Piece) : List Piece → Statement → Prop
  | atRule {name : Text} {more : List Piece} : first.token = .atKeyword name →
      IsLine first more (.atRule name (Text.trim (piecesText more)) false)
  | declaration {property value : Text} {more : List Piece} : CarriesOn false (first :: more) →
      splitDeclaration? (bareText (first :: more)) = some (property, value) →
      IsLine first more (.declaration property value)
  /-- A custom property takes the block as its value. -/
  | custom {property value : Text} {more spaces : List Piece} {block : Piece} :
      block.token = .opening .curly →
      splitDeclaration? (bareText (first :: more)) = some (property, value) →
      isCustomProperty property = true →
      IsLine first (more ++ spaces ++ [block]) (.declaration property (bareText [block]))

/-- Whether `first` and the pieces `more` behind it make a statement whose block holds
statements. -/
inductive IsHeader (first : Piece) (more : List Piece) : Statement → Prop
  | atRule {name : Text} : first.token = .atKeyword name →
      IsHeader first more (.atRule name (Text.trim (piecesText more)) true)
  | nested {property : Text} :
      splitDeclaration? (bareText (first :: more)) = some (property, []) →
      isCustomProperty property = false → IsHeader first more (.declaration property [])
  | rule : (∀ property value, splitDeclaration? (bareText (first :: more)) = some (property, value) →
        isCustomProperty property = false ∧ value ≠ []) →
      IsHeader first more (.rule (bareText (first :: more)))

/-- Whether `first` and the pieces `more` behind it are skipped with a warning. -/
inductive Skips (first : Piece) : List Piece → ParseWarning → Prop
  | stray : first.token = .closing .curly → Skips first [] (.unmatchedBrace first.head.start)
  | bare : first.token = .opening .curly → Skips first [] (.blockWithoutSelector first.head.start)
  | unknown {more : List Piece} : splitDeclaration? (bareText (first :: more)) = none →
      Skips first more (.unknownStatement first.head.start (bareText (first :: more)))

/-- A warning names the place where the skipped passage starts. -/
theorem Skips.offset_eq {first : Piece} {more : List Piece} {found : ParseWarning}
    (skips : Skips first more found) : found.offset = first.head.start := by
  cases skips <;> rfl

/-- The range of `first` without the comments in front of it, and of the pieces behind it. -/
def extent (first : Piece) (more : List Piece) : Span :=
  ⟨first.head.start, stopFrom first.stop more⟩

/-- Whether `block` is a block in curly brackets behind the pieces `front`, and no part of an
interpolation. -/
def IsBlockBehind (front : List Piece) (block : Piece) : Prop :=
  block.token = .opening .curly ∧ ∀ piece ∈ front.getLast?, piece.token ≠ .delim '#'

/-- Whether an outline holds what some pieces divide into. -/
inductive Divides : List Piece → Outline → Prop
  | done : Divides [] nil
  | gap {piece : Piece} {rest : List Piece} {outline : Outline} : isGap piece = true →
      Divides rest outline → Divides (piece :: rest) outline
  | skipped {first : Piece} {more rest : List Piece} {found : ParseWarning} {outline : Outline} :
      Skips first more found → Divides rest outline →
      Divides (first :: more ++ rest) (warning found outline)
  | line {first : Piece} {more rest : List Piece} {statement : Statement} {outline : Outline} :
      IsLine first more statement → Divides rest outline →
      Divides (first :: more ++ rest) (node statement (extent first more) nil outline)
  | block {first block : Piece} {more spaces rest : List Piece} {statement : Statement}
      {inside outline : Outline} :
      IsHeader first more statement → IsBlockBehind (first :: (more ++ spaces)) block →
      Divides block.body.pieces inside → Divides rest outline →
      Divides (first :: (more ++ spaces ++ [block]) ++ rest)
        (node statement (extent first (more ++ spaces ++ [block])) inside outline)

theorem Divides.gaps {gaps rest : List Piece} {outline : Outline}
    (between : ∀ piece ∈ gaps, isGap piece = true) (divides : Divides rest outline) :
    Divides (gaps ++ rest) outline := by
  induction gaps with
  | nil => exact divides
  | cons piece gaps ih =>
      obtain ⟨first, others⟩ := List.forall_mem_cons.1 between
      exact .gap first (ih others)

theorem carriesOn_before (behindHash : Bool) (pieces : List Piece) :
    CarriesOn behindHash (cutStatement behindHash pieces).before := by
  induction pieces generalizing behindHash with
  | nil => trivial
  | cons piece rest ih =>
      unfold cutStatement
      split
      · trivial
      · rename_i noSemicolon
        split
        · trivial
        · rename_i noBlock
          refine ⟨noSemicolon, fun opens => ?_, ih _⟩
          cases behindHash with
          | true => rfl
          | false => exact absurd ⟨opens, rfl⟩ noBlock

theorem CarriesOn.append_left {behindHash : Bool} {pieces more : List Piece}
    (carries : CarriesOn behindHash (pieces ++ more)) : CarriesOn behindHash pieces := by
  induction pieces generalizing behindHash with
  | nil => trivial
  | cons piece pieces ih => exact ⟨carries.1, carries.2.1, ih carries.2.2⟩

/-- Only the white space at the end is dropped. -/
theorem exists_trailingSpace (pieces : List Piece) :
    ∃ spaces, pieces = withoutTrailingSpace pieces ++ spaces ∧
      ∀ piece ∈ spaces, piece.token = .whitespace := by
  refine ⟨(pieces.reverse.takeWhile (·.token == .whitespace)).reverse, ?_, fun piece member => ?_⟩
  · rw [withoutTrailingSpace, ← List.reverse_append, List.takeWhile_append_dropWhile,
      List.reverse_reverse]
  · rw [List.mem_reverse] at member
    exact beq_iff_eq.1 (List.all_eq_true.1 List.all_takeWhile piece member)

/-- A block in curly brackets that does not end a statement is glued to a `#`. -/
theorem CarriesOn.behindHash {behindHash : Bool} {front : List Piece} {block : Piece}
    (carries : CarriesOn behindHash (front ++ [block])) (opens : block.token = .opening .curly) :
    front = [] ∧ behindHash = true ∨ ∃ hash ∈ front.getLast?, hash.token = .delim '#' := by
  induction front generalizing behindHash with
  | nil => exact .inl ⟨rfl, carries.2.1 opens⟩
  | cons piece front ih =>
      refine .inr ?_
      rcases ih carries.2.2 with ⟨rfl, glued⟩ | ⟨hash, last, isHash⟩
      · exact ⟨piece, rfl, beq_iff_eq.1 glued⟩
      · refine ⟨hash, ?_, isHash⟩
        rw [List.getLast?_cons, Option.mem_def.1 last]
        rfl

theorem isBlockBehind_cons {first block : Piece} {front : List Piece}
    (isBlock : IsBlockBehind front block) (apart : front = [] → first.token ≠ .delim '#') :
    IsBlockBehind (first :: front) block := by
  refine ⟨isBlock.1, fun last member => ?_⟩
  cases front with
  | nil =>
      obtain rfl := Option.some.inj member
      exact apart rfl
  | cons piece front =>
      rw [List.getLast?_cons_cons] at member
      exact isBlock.2 last member

/-- The block that ends a statement is not glued to a `#`. -/
theorem isBlockBehind_cutStatement {behindHash : Bool} {pieces : List Piece} {block : Piece}
    (ending : (cutStatement behindHash pieces).ending = .block block) :
    IsBlockBehind (cutStatement behindHash pieces).before block ∧
      ((cutStatement behindHash pieces).before = [] → behindHash = false) := by
  induction pieces generalizing behindHash with
  | nil => exact Ending.noConfusion ending
  | cons piece rest ih =>
      unfold cutStatement at ending ⊢
      split at ending
      · exact Ending.noConfusion ending
      · rename_i noSemicolon
        rw [if_neg noSemicolon]
        split at ending
        · rename_i opens
          obtain rfl := Ending.block.inj ending
          rw [if_pos opens]
          exact ⟨⟨opens.1, fun _ member => absurd member (Option.not_mem_none _)⟩, fun _ => opens.2⟩
        · rename_i carries
          rw [if_neg carries]
          obtain ⟨isBlock, first⟩ := ih ending
          exact ⟨isBlockBehind_cons isBlock fun empty => beq_eq_false_iff_ne.1 (first empty),
            fun empty => absurd empty (List.cons_ne_nil _ _)⟩

/-- Only what stands behind the first piece that is no white space can be dropped. -/
theorem withoutTrailingSpace_cons {piece : Piece} (dark : piece.token ≠ .whitespace)
    (rest : List Piece) :
    withoutTrailingSpace (piece :: rest) = piece :: withoutTrailingSpace rest := by
  have kept : (rest.reverse ++ [piece]).dropWhile (·.token == .whitespace) =
      rest.reverse.dropWhile (·.token == .whitespace) ++ [piece] := by
    rw [List.dropWhile_append]
    split
    · rename_i vanished
      rw [List.isEmpty_iff.1 vanished, List.dropWhile_cons_of_neg (by simp [dark])]
      rfl
    · rfl
  rw [withoutTrailingSpace, List.reverse_cons, kept, List.reverse_append]
  rfl

theorem isGap_of_space {piece : Piece} (blank : piece.token = .whitespace) :
    isGap piece = true := by
  simp [isGap, blank]

theorem stopFrom_cons (start : Nat) (first : Piece) (more : List Piece) :
    stopFrom start (first :: more) = stopFrom first.stop more := by
  rw [stopFrom, stopFrom, List.getLast?_cons]
  cases more.getLast? <;> rfl

theorem stopFrom_concat (start : Nat) (pieces : List Piece) (last : Piece) :
    stopFrom start (pieces ++ [last]) = last.stop := by
  rw [stopFrom, List.getLast?_concat]
  rfl

/-- A statement, the white space behind it, what ends it and what follows. -/
theorem exists_spaces (pieces : List Piece) :
    ∃ spaces, (∀ piece ∈ spaces, piece.token = .whitespace) ∧
      (cutStatement false pieces).before =
        withoutTrailingSpace (cutStatement false pieces).before ++ spaces ∧
      withoutTrailingSpace (cutStatement false pieces).before ++ spaces ++
        (cutStatement false pieces).ending.pieces ++ (cutStatement false pieces).rest = pieces := by
  obtain ⟨spaces, split, blank⟩ := exists_trailingSpace (cutStatement false pieces).before
  refine ⟨spaces, blank, split, ?_⟩
  rw [← split]
  exact cutStatement_append false pieces

/-- The parts of a statement start with its first piece. -/
theorem exists_parts {first : Piece} {rest : List Piece} (dark : first.token ≠ .whitespace)
    (written : (cutStatement false (first :: rest)).before ≠ []) :
    ∃ more, withoutTrailingSpace (cutStatement false (first :: rest)).before = first :: more := by
  obtain ⟨piece, others, shape⟩ := List.exists_cons_of_ne_nil written
  have whole := cutStatement_append false (first :: rest)
  rw [shape, List.cons_append, List.cons_append] at whole
  obtain rfl := (List.cons.inj whole).1
  rw [shape]
  exact ⟨_, withoutTrailingSpace_cons dark others⟩

theorem before_ne_nil {first : Piece} {rest : List Piece} (noSemicolon : first.token ≠ .semicolon)
    (noBlock : ∀ block, (cutStatement false (first :: rest)).ending ≠ .block block) :
    (cutStatement false (first :: rest)).before ≠ [] := by
  unfold cutStatement at noBlock ⊢
  rw [if_neg noSemicolon] at noBlock ⊢
  by_cases opens : first.token = .opening .curly ∧ false = false
  · rw [if_pos opens] at noBlock
    exact absurd rfl (noBlock first)
  · rw [if_neg opens]
    exact List.cons_ne_nil _ _

theorem before_eq_nil {first : Piece} {rest : List Piece} (dark : first.token ≠ .whitespace)
    (noParts : withoutTrailingSpace (cutStatement false (first :: rest)).before = []) :
    (cutStatement false (first :: rest)).before = [] := by
  by_cases written : (cutStatement false (first :: rest)).before = []
  · exact written
  · obtain ⟨more, kept⟩ := exists_parts dark written
    rw [kept] at noParts
    exact absurd noParts (List.cons_ne_nil _ _)

end Outline

end ScssLint
