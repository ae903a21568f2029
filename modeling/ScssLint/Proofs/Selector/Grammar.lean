import Mathlib.Data.List.Lex
import ScssLint.Selector.Parser

/-! # The grammar of selector lists

A selector list is cut into segments at its commas, and each of them has to hold something. A dot or a
percent sign needs a name right behind it, and one colon or two need the name of a pseudo-class or
pseudo-element. The same is asked of the argument of a pseudo-class that takes selectors, and nothing
of any other block (`SelectorList.IsGrammatical`).

What is wrong has a place, the indices of pieces from the outermost list inwards, so that the order
of places is the order in the text (`SelectorList.Violates`). A list is grammatical if nothing in it
is wrong (`SelectorList.isGrammatical_iff`).
-/

namespace ScssLint

namespace SelectorList

open Css

/-- Whether an identifier comes next, or the sign and the block of an interpolation. -/
def StartsName : List Piece → Prop
  | [] => False
  | piece :: rest =>
      (∃ name, piece.token = .ident name) ∨
        piece.token = .delim '#' ∧ ∃ block ∈ rest.head?, block.token = .opening .curly

/-- Whether an identifier or a function comes next. -/
def StartsPseudoName (pieces : List Piece) : Prop :=
  ∃ piece ∈ pieces.head?, ∃ name, piece.token = .ident name ∨ piece.token = .function name

def EndsInColon (pieces : List Piece) : Prop :=
  ∃ piece ∈ pieces.getLast?, piece.token = .colon

/-- Whether the block of a piece that stands behind `before` holds selectors: a function that takes
them stands behind a single colon. -/
def IsArgument (before : List Piece) (piece : Piece) : Prop :=
  (∃ front colon, before = front ++ [colon] ∧ colon.token = .colon ∧ ¬ EndsInColon front) ∧
    ∃ name, piece.token = .function name ∧ takesSelectors name = true

/-- Whether some pieces stand next to each other among others, without a comma, from one comma or end
to the next. -/
def IsSegment (pieces segment : List Piece) : Prop :=
  ∃ before rest, pieces = before ++ (segment ++ rest) ∧
    (∀ comma ∈ before.getLast?, comma.token = .comma) ∧
    (∀ comma ∈ rest.head?, comma.token = .comma) ∧ ∀ piece ∈ segment, piece.token ≠ .comma

/-- The grammar of selector lists. -/
inductive IsGrammatical : List Piece → Prop
  | intro {pieces : List Piece}
      (segments : ∀ segment, IsSegment pieces segment → ∃ piece ∈ segment, piece.token ≠ .whitespace)
      (names : ∀ before piece rest, pieces = before ++ piece :: rest →
        piece.token = .delim '.' ∨ piece.token = .delim '%' → StartsName rest)
      (pseudoNames : ∀ before piece rest, pieces = before ++ piece :: rest → piece.token = .colon →
        StartsPseudoName rest ∨
          ∃ colon more, rest = colon :: more ∧ colon.token = .colon ∧ StartsPseudoName more)
      (arguments : ∀ before piece rest, pieces = before ++ piece :: rest → IsArgument before piece →
        IsGrammatical piece.body.pieces) :
      IsGrammatical pieces

/-- Whether nothing but white space stands behind the last comma. -/
def EndsBlank (pieces : List Piece) : Prop :=
  ∃ front blank, pieces = front ++ blank ∧ (∀ comma ∈ front.getLast?, comma.token = .comma) ∧
    ∀ piece ∈ blank, piece.token = .whitespace

/-- What can be wrong with a sign between `before` and `rest`. -/
inductive SignFault (before : List Piece) (sign : Piece) (rest : List Piece) : SelectorFault → Prop
  | className : sign.token = .delim '.' → ¬ StartsName rest →
      SignFault before sign rest .missingClassName
  | placeholder : sign.token = .delim '%' → ¬ StartsName rest →
      SignFault before sign rest .missingPlaceholderName
  | pseudoClass : sign.token = .colon → ¬ StartsPseudoName rest →
      (∀ next ∈ rest.head?, next.token ≠ .colon) →
      SignFault before sign rest .missingPseudoClassName
  | pseudoElement {colon : Piece} {more : List Piece} : sign.token = .colon → rest = colon :: more →
      colon.token = .colon → ¬ StartsPseudoName more →
      SignFault before sign rest .missingPseudoElementName
  | segment : sign.token = .comma → EndsBlank before →
      SignFault before sign rest .emptySelectorInList

/-- What can be wrong at the end of a list. -/
inductive EndFault (pieces : List Piece) : SelectorFault → Prop
  | only : (∀ piece ∈ pieces, piece.token = .whitespace) → EndFault pieces .emptySelector
  | last : (∃ comma ∈ pieces, comma.token = .comma) → EndsBlank pieces →
      EndFault pieces .trailingComma

/-- Whether something is wrong at a place of a selector list. -/
inductive Violates : List Piece → List Nat → SelectorFault → Prop
  | sign {before rest : List Piece} {sign : Piece} {fault : SelectorFault} :
      SignFault before sign rest fault → Violates (before ++ sign :: rest) [before.length] fault
  | ending {pieces : List Piece} {fault : SelectorFault} : EndFault pieces fault →
      Violates pieces [pieces.length] fault
  | argument {before rest : List Piece} {function : Piece} {place : List Nat}
      {fault : SelectorFault} : IsArgument before function →
      Violates function.body.pieces place fault →
      Violates (before ++ function :: rest) (before.length :: place) fault

/-- Whether something is wrong with a list, and nothing in front of it is. -/
def IsFirstViolation (pieces : List Piece) (fault : SelectorFault) : Prop :=
  ∃ place, Violates pieces place fault ∧
    ∀ place' fault', Violates pieces place' fault' → place ≤ place'

namespace Violates

variable {pieces before rest : List Piece} {piece : Piece} {index : Nat} {place : List Nat}
  {fault fault' : SelectorFault}

theorem exists_index (violates : Violates pieces place fault) :
    ∃ index inner, place = index :: inner ∧ index ≤ pieces.length := by
  cases violates with
  | sign _ => exact ⟨_, _, rfl, by simp⟩
  | ending _ => exact ⟨_, _, rfl, Nat.le_refl _⟩
  | argument _ _ => exact ⟨_, _, rfl, by simp⟩

/-- What is wrong at the place of a piece is wrong with the piece or inside of its block. -/
theorem of_split (violates : Violates pieces (before.length :: place) fault)
    (split : pieces = before ++ piece :: rest) :
    place = [] ∧ SignFault before piece rest fault ∨
      IsArgument before piece ∧ Violates piece.body.pieces place fault := by
  generalize index : before.length :: place = whole at violates
  cases violates with
  | sign wrong =>
      obtain ⟨length, rfl⟩ := List.cons.inj index
      obtain ⟨rfl, same⟩ := List.append_inj split length.symm
      obtain ⟨rfl, rfl⟩ := List.cons.inj same
      exact .inl ⟨rfl, wrong⟩
  | ending _ =>
      have length := (List.cons.inj index).1
      rw [split, List.length_append, List.length_cons] at length
      omega
  | argument isArgument inside =>
      obtain ⟨length, rfl⟩ := List.cons.inj index
      obtain ⟨rfl, same⟩ := List.append_inj split length.symm
      obtain ⟨rfl, rfl⟩ := List.cons.inj same
      exact .inr ⟨isArgument, inside⟩

/-- What is wrong behind all pieces is wrong with the end. -/
theorem of_length (violates : Violates pieces (pieces.length :: place) fault) :
    place = [] ∧ EndFault pieces fault := by
  generalize index : pieces.length :: place = whole at violates
  cases violates with
  | ending wrong => exact ⟨(List.cons.inj index).2, wrong⟩
  | sign _ | argument _ _ =>
      have length := (List.cons.inj index).1
      rw [List.length_append, List.length_cons] at length
      omega

end Violates

theorem SignFault.unique {before rest : List Piece} {sign : Piece} {fault fault' : SelectorFault}
    (wrong : SignFault before sign rest fault) (wrong' : SignFault before sign rest fault') :
    fault = fault' := by
  cases wrong with
  | className isDot _ =>
      cases wrong' with
      | className _ _ => rfl
      | placeholder other _ | pseudoClass other _ _ | pseudoElement other _ _ _ | segment other _ =>
          rw [isDot] at other
          exact absurd other (by decide)
  | placeholder isPercent _ =>
      cases wrong' with
      | placeholder _ _ => rfl
      | className other _ | pseudoClass other _ _ | pseudoElement other _ _ _ | segment other _ =>
          rw [isPercent] at other
          exact absurd other (by decide)
  | pseudoClass isColon _ single =>
      cases wrong' with
      | pseudoClass _ _ _ => rfl
      | pseudoElement _ double isSecond _ =>
          subst double
          exact absurd isSecond (single _ rfl)
      | className other _ | placeholder other _ | segment other _ =>
          rw [isColon] at other
          exact Token.noConfusion other
  | pseudoElement isColon double isSecond _ =>
      cases wrong' with
      | pseudoElement _ _ _ _ => rfl
      | pseudoClass _ _ single =>
          subst double
          exact absurd isSecond (single _ rfl)
      | className other _ | placeholder other _ | segment other _ =>
          rw [isColon] at other
          exact Token.noConfusion other
  | segment isComma _ =>
      cases wrong' with
      | segment _ _ => rfl
      | className other _ | placeholder other _ | pseudoClass other _ _
      | pseudoElement other _ _ _ =>
          rw [isComma] at other
          exact Token.noConfusion other

theorem EndFault.unique {pieces : List Piece} {fault fault' : SelectorFault}
    (wrong : EndFault pieces fault) (wrong' : EndFault pieces fault') : fault = fault' := by
  have apart (blank : ∀ piece ∈ pieces, piece.token = .whitespace)
      (comma : ∃ comma ∈ pieces, comma.token = .comma) : False := by
    obtain ⟨piece, member, isComma⟩ := comma
    have isBlank := blank piece member
    rw [isComma] at isBlank
    exact Token.noConfusion isBlank
  cases wrong with
  | only blank =>
      cases wrong' with
      | only _ => rfl
      | last comma _ => exact (apart blank comma).elim
  | last comma _ =>
      cases wrong' with
      | only blank => exact (apart blank comma).elim
      | last _ _ => rfl

/-- At one place one thing is wrong. -/
theorem Violates.unique {pieces : List Piece} {place : List Nat} {fault fault' : SelectorFault}
    (violates : Violates pieces place fault) (violates' : Violates pieces place fault') :
    fault = fault' := by
  induction violates with
  | sign wrong =>
      rcases violates'.of_split rfl with ⟨_, wrong'⟩ | ⟨_, inside⟩
      · exact wrong.unique wrong'
      · obtain ⟨_, _, empty, _⟩ := inside.exists_index
        exact absurd empty.symm (List.cons_ne_nil _ _)
  | ending wrong => exact wrong.unique violates'.of_length.2
  | argument _ inside ih =>
      rcases violates'.of_split rfl with ⟨empty, _⟩ | ⟨_, inside'⟩
      · obtain ⟨_, _, same, _⟩ := inside.exists_index
        exact absurd (same.symm.trans empty) (List.cons_ne_nil _ _)
      · exact ih inside'

theorem IsFirstViolation.unique {pieces : List Piece} {fault fault' : SelectorFault}
    (first : IsFirstViolation pieces fault) (first' : IsFirstViolation pieces fault') :
    fault = fault' := by
  obtain ⟨place, violates, least⟩ := first
  obtain ⟨place', violates', least'⟩ := first'
  have same := le_antisymm (least place' fault' violates') (least' place fault violates)
  subst same
  exact violates.unique violates'

/-- A segment is blank if white space alone stands behind the comma in front of it. -/
theorem segments_iff {pieces : List Piece} :
    (∀ segment, IsSegment pieces segment → ∃ piece ∈ segment, piece.token ≠ .whitespace) ↔
      (∀ before comma rest, pieces = before ++ comma :: rest → comma.token = .comma →
        ¬ EndsBlank before) ∧ ¬ EndsBlank pieces := by
  have noComma {blank : List Piece} (all : ∀ piece ∈ blank, piece.token = .whitespace) :
      ∀ piece ∈ blank, piece.token ≠ .comma := fun piece member isComma =>
    Token.noConfusion (isComma.symm.trans (all piece member))
  constructor
  · intro filled
    refine ⟨?_, ?_⟩
    · rintro before comma rest rfl isComma ⟨front, blank, rfl, starts, all⟩
      have ends : ∀ first ∈ (comma :: rest).head?, first.token = .comma := fun first isFirst =>
        Option.some.inj isFirst ▸ isComma
      obtain ⟨piece, member, dark⟩ :=
        filled blank ⟨front, comma :: rest, List.append_assoc .., starts, ends, noComma all⟩
      exact dark (all piece member)
    · rintro ⟨front, blank, rfl, starts, all⟩
      obtain ⟨piece, member, dark⟩ := filled blank
        ⟨front, [], by rw [List.append_nil], starts,
          fun _ none => absurd none (Option.not_mem_none _), noComma all⟩
      exact dark (all piece member)
  · rintro ⟨commas, last⟩ segment ⟨before, rest, whole, starts, ends, _⟩
    apply Classical.byContradiction
    intro blank
    have all : ∀ piece ∈ segment, piece.token = .whitespace := fun piece member =>
      Classical.byContradiction fun dark => blank ⟨piece, member, dark⟩
    cases rest with
    | nil => exact last ⟨before, segment, by rw [whole, List.append_nil], starts, all⟩
    | cons comma rest =>
        exact commas (before ++ segment) comma rest (by rw [whole, List.append_assoc])
          (ends comma rfl) ⟨before, segment, rfl, starts, all⟩

theorem EndFault.endsBlank {pieces : List Piece} {fault : SelectorFault}
    (wrong : EndFault pieces fault) : EndsBlank pieces := by
  cases wrong with
  | only blank => exact ⟨[], pieces, rfl, fun _ none => absurd none (Option.not_mem_none _), blank⟩
  | last _ blank => exact blank

theorem exists_endFault {pieces : List Piece} (blank : EndsBlank pieces) :
    ∃ fault, EndFault pieces fault := by
  by_cases comma : ∃ comma ∈ pieces, comma.token = .comma
  · exact ⟨_, .last comma blank⟩
  · obtain ⟨front, blank, rfl, starts, all⟩ := blank
    cases last : front.getLast? with
    | none =>
        rw [List.getLast?_eq_none_iff.1 last]
        exact ⟨_, .only all⟩
    | some piece =>
        have member := List.mem_append_left blank (List.mem_of_getLast? last)
        exact absurd ⟨piece, member, starts piece last⟩ comma

/-- Nothing is wrong with a grammatical list. -/
theorem IsGrammatical.not_violates {pieces : List Piece} (grammatical : IsGrammatical pieces)
    (place : List Nat) (fault : SelectorFault) : ¬ Violates pieces place fault := by
  intro violates
  induction violates with
  | sign wrong =>
      obtain ⟨segments, names, pseudoNames, _⟩ := grammatical
      cases wrong with
      | className isDot unnamed => exact unnamed (names _ _ _ rfl (.inl isDot))
      | placeholder isPercent unnamed => exact unnamed (names _ _ _ rfl (.inr isPercent))
      | pseudoClass isColon unnamed single =>
          rcases pseudoNames _ _ _ rfl isColon with named | ⟨colon, more, rfl, second, _⟩
          · exact unnamed named
          · exact single colon rfl second
      | pseudoElement isColon double second unnamed =>
          subst double
          rcases pseudoNames _ _ _ rfl isColon with
            ⟨piece, first, name, named⟩ | ⟨_, _, same, _, named⟩
          · obtain rfl := Option.some.inj first
            rw [second] at named
            rcases named with named | named <;> exact Token.noConfusion named
          · obtain ⟨rfl, rfl⟩ := List.cons.inj same
            exact unnamed named
      | segment isComma blank => exact (segments_iff.1 segments).1 _ _ _ rfl isComma blank
  | ending wrong =>
      obtain ⟨segments, _, _, _⟩ := grammatical
      exact (segments_iff.1 segments).2 wrong.endsBlank
  | argument isArgument _ ih =>
      obtain ⟨_, _, _, arguments⟩ := grammatical
      exact ih (arguments _ _ _ rfl isArgument)

theorem IsGrammatical.of_not_violates {pieces : List Piece}
    (clean : ∀ place fault, ¬ Violates pieces place fault) : IsGrammatical pieces := by
  induction left : weight pieces using Nat.strongRecOn generalizing pieces with
  | _ count ih =>
    subst left
    refine .intro (segments_iff.2 ⟨?_, ?_⟩) ?_ ?_ ?_
    · rintro before comma rest rfl isComma blank
      exact clean _ _ (.sign (.segment isComma blank))
    · intro blank
      obtain ⟨fault, wrong⟩ := exists_endFault blank
      exact clean _ _ (.ending wrong)
    · rintro before sign rest rfl (isDot | isPercent)
      · exact Classical.byContradiction fun unnamed => clean _ _ (.sign (.className isDot unnamed))
      · exact Classical.byContradiction fun unnamed =>
          clean _ _ (.sign (.placeholder isPercent unnamed))
    · rintro before colon rest rfl isColon
      apply Classical.byContradiction
      intro neither
      obtain ⟨unnamed, noElement⟩ := not_or.1 neither
      by_cases double : ∃ second ∈ rest.head?, second.token = .colon
      · obtain ⟨second, first, isSecond⟩ := double
        obtain ⟨more, rfl⟩ := List.head?_eq_some_iff.1 first
        exact clean _ _ (.sign (.pseudoElement isColon rfl isSecond fun named =>
          noElement ⟨second, more, rfl, isSecond, named⟩))
      · exact clean _ _ (.sign (.pseudoClass isColon unnamed fun next first isNext =>
          double ⟨next, first, isNext⟩))
    · rintro before piece rest rfl isArgument
      exact ih _ (weight_body_lt (List.mem_append_right _ List.mem_cons_self))
        (fun place fault violates => clean _ _ (.argument isArgument violates)) rfl

/-- **A list is grammatical if and only if nothing is wrong with it.** -/
theorem isGrammatical_iff {pieces : List Piece} :
    IsGrammatical pieces ↔ ∀ place fault, ¬ Violates pieces place fault :=
  ⟨IsGrammatical.not_violates, IsGrammatical.of_not_violates⟩

end SelectorList

end ScssLint
