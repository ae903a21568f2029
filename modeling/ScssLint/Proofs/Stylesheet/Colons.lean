import ScssLint.Proofs.Css.Sealing
import ScssLint.Proofs.Stylesheet.Declarations
import ScssLint.Proofs.Stylesheet.Strays

/-! # Where declarations are split

A declaration is split at the first colon of its text (`Outline.SplitsAtFirst`), and that can be a
colon inside a block, a string, an escape or a comment. Its text can also be split at the first of
its colon tokens (`Outline.SplitsAtColon`), which stand outside all of these. The two give the same
property if and only if the first colon of all is such a token (`Outline.splitsAtColon_iff`). Which
text is split and where the value comes from is told for all declarations of a tree
(`Stylesheet.splits_ofText`).
-/

namespace ScssLint

open Css

namespace Outline

/-- Whether a text is split into a property and a value at its first colon. -/
def SplitsAtFirst (text property value : Text) : Prop :=
  ∃ before after, text = before ++ ':' :: after ∧ ':' ∉ before ∧
    property = Text.trim before ∧ value = Text.trim after

theorem splitsAtFirst_of_splitDeclaration? {text property value : Text}
    (declares : splitDeclaration? text = some (property, value)) :
    SplitsAtFirst text property value := by
  obtain ⟨before, after, rfl, _⟩ := exists_of_splitDeclaration? declares
  have colon : ':' ∈ before ++ ':' :: after := List.mem_append_right _ List.mem_cons_self
  obtain ⟨first, rest, whole, noColon⟩ := List.eq_append_cons_of_mem colon
  rw [whole, splitDeclaration?_append_colon noColon] at declares
  split at declares
  · exact absurd declares.symm (Option.some_ne_none _)
  · obtain ⟨rfl, rfl⟩ := Prod.mk.inj (Option.some.inj declares)
    exact ⟨first, rest, whole, noColon, rfl, rfl⟩

/-- The text of some pieces and of the comments in front of the next piece. -/
def textBefore (front : List Piece) (piece : Piece) : Text :=
  match front with
  | [] => []
  | first :: more => bareText (first :: more) ++ spelling piece.lead

/-- Whether some pieces are split into a property and a value at the first colon token. -/
def SplitsAtColon (told : List Piece) (property value : Text) : Prop :=
  ∃ front colon behind, told = front ++ colon :: behind ∧ colon.token = .colon ∧
    (∀ piece ∈ front, piece.token ≠ .colon) ∧ property = Text.trim (textBefore front colon) ∧
      value = Text.trim (piecesText behind)

/-- Whether no other colon stands in front of the first colon token. -/
def IsColonFirst (told : List Piece) : Prop :=
  ∃ front colon behind, told = front ++ colon :: behind ∧ colon.token = .colon ∧
    ':' ∉ textBefore front colon

theorem first_colon_unique {before before' after after' : Text} (noColon : ':' ∉ before)
    (noColon' : ':' ∉ before') (same : before ++ ':' :: after = before' ++ ':' :: after') :
    before = before' ∧ after = after' := by
  have split := Text.splitWhere_char noColon after
  rw [same, Text.splitWhere_char noColon'] at split
  obtain ⟨rfl, others⟩ := Prod.mk.inj (Option.some.inj split)
  exact ⟨rfl, (List.cons.inj others).2.symm⟩

theorem colon_mem_trim {text : Text} (member : ':' ∈ text) : ':' ∈ Text.trim text := by
  obtain ⟨before, after, whole⟩ := List.append_of_mem member
  have inside : [':'] <:+: text := ⟨before, after, by rw [whole, List.append_assoc]; rfl⟩
  have kept := Text.infix_trim (List.cons_ne_nil _ _) (fun c first => Option.some.inj first ▸ rfl)
    (fun c last => Option.some.inj last ▸ rfl) inside
  exact kept.subset List.mem_cons_self

theorem mem_of_mem_trim {c : Char} {text : Text} (member : c ∈ Text.trim text) : c ∈ text :=
  (Text.infix_of_infix_trim (List.infix_refl (Text.trim text))).subset member

section Pieces

variable {told front behind : List Piece} {colon : Piece} {property value : Text}

/-- A colon token is spelled with a colon. -/
def ColonsAreSpelled (told : List Piece) : Prop :=
  ∀ piece ∈ told, piece.token = .colon → spelling piece.own = [':']

theorem text_eq (piece : Piece) : piece.text = spelling piece.lead ++ spelling piece.own := by
  rw [← spelling_append, ← Piece.lexemes_eq]
  rfl

theorem bareText_colon (isColon : spelling colon.own = [':']) :
    bareText (front ++ colon :: behind) = textBefore front colon ++ ':' :: piecesText behind := by
  cases front with
  | nil =>
      change spelling colon.own ++ piecesText behind = _
      rw [isColon]
      rfl
  | cons first front =>
      change spelling first.own ++ piecesText (front ++ colon :: behind) =
        spelling first.own ++ piecesText front ++ spelling colon.lead ++ ':' :: piecesText behind
      rw [piecesText, List.flatMap_append, List.flatMap_cons, text_eq, isColon]
      simp only [piecesText, List.append_assoc, List.cons_append, List.nil_append]

/-- A colon token is a part of the text in front of what follows it. -/
theorem colon_mem_textBefore {piece : Piece} (spelled : ColonsAreSpelled front)
    (member : piece ∈ front) (isColon : piece.token = .colon) : ':' ∈ textBefore front colon := by
  have inside : ':' ∈ bareText front := by
    obtain ⟨before, after, split⟩ := List.append_of_mem member
    rw [split, bareText_colon (spelled piece member isColon)]
    exact List.mem_append_right _ List.mem_cons_self
  cases front with
  | nil => exact absurd member List.not_mem_nil
  | cons first more => exact List.mem_append_left _ inside

/-- **Pieces are split at the first colon of their text as at their first colon token** if and only
if that is the first colon of all. -/
theorem splitsAtColon_iff (spelled : ColonsAreSpelled told)
    (splits : SplitsAtFirst (bareText told) property value) (other : Text) :
    SplitsAtColon told property other ↔ IsColonFirst told ∧ other = value := by
  obtain ⟨before, after, text, noColon, rfl, rfl⟩ := splits
  constructor
  · rintro ⟨front, colon, behind, rfl, isColon, _, sameProperty, rfl⟩
    have here := spelled colon (List.mem_append_right _ List.mem_cons_self) isColon
    have first : ':' ∉ textBefore front colon := fun member =>
      noColon (mem_of_mem_trim (sameProperty ▸ colon_mem_trim member))
    rw [bareText_colon here] at text
    obtain ⟨_, rfl⟩ := first_colon_unique first noColon text
    exact ⟨⟨front, colon, behind, rfl, isColon, first⟩, rfl⟩
  · rintro ⟨⟨front, colon, behind, rfl, isColon, first⟩, rfl⟩
    have here := spelled colon (List.mem_append_right _ List.mem_cons_self) isColon
    rw [bareText_colon here] at text
    obtain ⟨rfl, rfl⟩ := first_colon_unique first noColon text
    refine ⟨front, colon, behind, rfl, isColon, fun piece member another => ?_, rfl, rfl⟩
    exact first (colon_mem_textBefore
      (fun piece member => spelled piece (List.mem_append_left _ member)) member another)

end Pieces

/-- How the value of a declaration with the pieces `first :: more` in front of what ends it follows
from the text `told` behind its colon: a declaration on a line of its own has that text as its
value, a custom property has the block instead, and nested properties need that there is no such
text. -/
inductive IsDeclaration (first : Piece) (more : List Piece) (property told : Text) :
    (taken behind rest : List Piece) → (value : Text) → Prop
  | line {spaces ending rest : List Piece} : IsStem first more spaces → IsEnding ending rest →
      IsDeclaration first more property told more (spaces ++ ending) rest told
  | custom {spaces rest : List Piece} {block : Piece} : IsStem first more spaces →
      IsBlockBehind (first :: (more ++ spaces)) block → isCustomProperty property = true →
      IsDeclaration first more property told (more ++ spaces ++ [block]) [] rest (bareText [block])
  | nested {spaces rest : List Piece} {block : Piece} : IsStem first more spaces →
      IsBlockBehind (first :: (more ++ spaces)) block → isCustomProperty property = false →
      told = [] → IsDeclaration first more property told (more ++ spaces ++ [block]) [] rest []

end Outline

namespace Stylesheet

open Outline (IsBetween IsDeclaration SplitsAtFirst SplitsAtColon IsColonFirst)

section Trees

variable {source : Text}

theorem ReadsBlock.colonsAreSpelled {id : Nat} {forest : Forest} {told : List Piece}
    (reads : ReadsBlock source id forest) (among : told ⊆ forest.pieces) :
    Outline.ColonsAreSpelled told := by
  intro piece member isColon
  obtain ⟨_, _, placed⟩ := reads.arePlaced
  have single := (placed.sound piece (among member)).own_of_opensNone (by rw [isColon]; rfl)
  obtain ⟨front, back, whole⟩ := List.append_of_mem (reads.head_mem_lexemes (among member))
  have cut := areCut_lexemes (blankLineComments source)
  rw [whole] at cut
  have made := cut.isMade.2
  rw [show piece.head.token = .colon from isColon] at made
  rw [single, spelling_cons, show piece.head.text = [':'] from made]
  rfl

theorem StandsFor.isDeclaration {warnings : List ParseWarning} {child : Nat} {node : StyleNode}
    {first : Piece} {taken behind rest : List Piece} {property value : Text}
    (standsFor : StandsFor (ofText source) warnings child node first taken behind rest)
    (declares : node.statement = .declaration property value) :
    ∃ more told, first :: more <+: first :: taken ∧
      splitDeclaration? (Outline.bareText (first :: more)) = some (property, told) ∧
      IsDeclaration first more property told taken behind rest value := by
  cases standsFor with
  | lone lone _ _ =>
      rw [declares] at lone
      cases lone with
      | declaration stem ends split =>
          exact ⟨taken, value, List.prefix_rfl, split, .line stem ends⟩
      | @custom _ told more spaces _ block stem isBlock split custom =>
          refine ⟨more, told, ?_, split, .custom stem isBlock custom⟩
          rw [List.append_assoc]
          exact List.prefix_append (first :: more) _
  | @block more spaces _ block _ stem header isBlock _ _ _ _ =>
      rw [declares] at header
      cases header with
      | nested split other =>
          refine ⟨more, [], ?_, split, .nested stem isBlock other rfl⟩
          rw [List.append_assoc]
          exact List.prefix_append (first :: more) _

end Trees

/-- **A declaration is split at the first colon of its text**, from its first piece up to a
semicolon, a block or the end. That is its first colon token if and only if no colon stands in front
of it inside a block, a string, an escape or a comment; otherwise no split at a colon token gives
the property. -/
theorem splits_ofText (source : Text) (id : Nat) (node : StyleNode) (property value : Text)
    (found : (ofText source).get? id = some node)
    (declares : node.statement = .declaration property value) :
    ∃ above forest front first more taken behind rest told,
      id ∈ (ofText source).children above ∧ ReadsBlock source above forest ∧
      forest.pieces = front ++ (first :: taken ++ (behind ++ rest)) ∧ IsBetween front ∧
      node.span = Outline.extent first taken ∧
      IsDeclaration first more property told taken behind rest value ∧
      SplitsAtFirst (Outline.bareText (first :: more)) property told ∧
      ∀ other, SplitsAtColon (first :: more) property other ↔
        IsColonFirst (first :: more) ∧ other = told := by
  have inner : id ≠ 0 := by
    rintro rfl
    rw [root_ofText] at found
    obtain rfl := Option.some.inj found
    exact Statement.noConfusion declares
  obtain ⟨above, forest, isChild, reads, front, first, taken, behind, rest, split, between, span,
    standsFor⟩ := exists_isReadFrom inner found
  obtain ⟨more, told, start, splits, isDeclaration⟩ := standsFor.isDeclaration declares
  have among : first :: more ⊆ forest.pieces := fun piece member => by
    rw [split]
    exact List.mem_append_right _ (List.mem_append_left _ (start.subset member))
  have atFirst := Outline.splitsAtFirst_of_splitDeclaration? splits
  exact ⟨above, forest, front, first, more, taken, behind, rest, told, isChild, reads, split,
    between, span, isDeclaration, atFirst, Outline.splitsAtColon_iff (reads.colonsAreSpelled among) atFirst⟩

/-- A variable whose value holds another colon. -/
theorem splits_ofText_map :
    ((ofText "$a: (b: c);".toList).get? 1 =
        some ⟨.declaration "$a".toList "(b: c)".toList, ⟨0, 10⟩, .node 0, []⟩) ∧
      ∃ above forest front first more taken behind rest told,
        1 ∈ (ofText "$a: (b: c);".toList).children above ∧
        ReadsBlock "$a: (b: c);".toList above forest ∧
        forest.pieces = front ++ (first :: taken ++ (behind ++ rest)) ∧ IsBetween front ∧
        ⟨0, 10⟩ = Outline.extent first taken ∧
        IsDeclaration first more "$a".toList told taken behind rest "(b: c)".toList ∧
        SplitsAtFirst (Outline.bareText (first :: more)) "$a".toList told ∧
        ∀ other, SplitsAtColon (first :: more) "$a".toList other ↔
          IsColonFirst (first :: more) ∧ other = told := by
  have found : (ofText "$a: (b: c);".toList).get? 1 =
      some ⟨.declaration "$a".toList "(b: c)".toList, ⟨0, 10⟩, .node 0, []⟩ := by
    decide +kernel
  exact ⟨found, splits_ofText "$a: (b: c);".toList 1 _ "$a".toList "(b: c)".toList found rfl⟩

/-- No statement is read from the root's block but from the whole text. -/
theorem ReadsBlock.eq_whole {source : Text} {forest : Forest} (reads : ReadsBlock source 0 forest) :
    forest = Forest.ofText (blankLineComments source) := by
  cases reads with
  | whole => rfl
  | inside _ member _ _ _ _ _ => exact absurd (lt_of_mem_children member).1 (Nat.not_lt_zero _)

/-- Not every declaration is split at a colon token: `a#{b:c};` holds none. -/
theorem not_splitsAtColon_interpolated :
    ¬ ∀ source id node property value, (ofText source).get? id = some node →
      node.statement = .declaration property value →
      ∃ above forest front first more back told, id ∈ (ofText source).children above ∧
        ReadsBlock source above forest ∧ forest.pieces = front ++ (first :: more ++ back) ∧
        SplitsAtColon (first :: more) property told := by
  intro splits
  have found : (ofText "a#\x7Bb:c\x7D;".toList).get? 1 =
      some ⟨.declaration "a#\x7Bb".toList "c\x7D".toList, ⟨0, 7⟩, .node 0, []⟩ := by
    decide +kernel
  have noColon : ∀ piece ∈ (Forest.ofText (blankLineComments "a#\x7Bb:c\x7D;".toList)).pieces,
      piece.token ≠ .colon := by
    decide +kernel
  obtain ⟨above, forest, front, first, more, back, told, isChild, reads, split, _, colon, _, inside,
    isColon, _⟩ := splits _ _ _ _ _ found rfl
  obtain rfl : above = 0 := by
    have up := (links_ofText above 1).1 isChild
    rw [parent_of_get? found] at up
    exact (Parent.node.inj up).symm
  rw [reads.eq_whole] at split
  refine noColon colon ?_ isColon
  rw [split, inside]
  exact List.mem_append_right _ (List.mem_append_left _
    (List.mem_append_right _ List.mem_cons_self))

end Stylesheet

end ScssLint
