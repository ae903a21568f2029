import Mathlib.Data.List.Chain
import ScssLint.Proofs.Selector.Order

/-! # The shape of a selector list

What is read as a selector list holds no empty selector and no empty list in an argument, and the
combinator that white space stands for stands between simple selectors only
(`SelectorList.isShaped_of_readSelectors`). The nodes start at characters of the text, each behind
the one that a walk visits before it (`SelectorList.isWellFormed_of_parse`).
-/

namespace ScssLint

open Css

/-- Whether a node is the combinator that white space stands for. -/
def SelectorNode.IsGap (node : SelectorNode) : Prop :=
  node.component = .combinator .descendant

/-- Whether of two nodes neither is the combinator that white space stands for next to a
combinator. -/
structure SelectorNode.MayPrecede (node next : SelectorNode) : Prop where
  notBehind : ¬ (node.IsGap ∧ next.component.isCombinator = true)
  notInFront : ¬ (node.component.isCombinator = true ∧ next.IsGap)

/-- Whether the combinator that white space stands for is neither at an end of a selector nor next to
another combinator. -/
structure Selector.IsSpaced (selector : Selector) : Prop where
  first : ∀ node ∈ selector.head?, ¬ node.IsGap
  last : ∀ node ∈ selector.getLast?, ¬ node.IsGap
  apart : selector.IsChain SelectorNode.MayPrecede

/-- Whether a list is another one or, at any depth, the argument of a node of that. -/
inductive SelectorList.IsWithin (inner : SelectorList) : SelectorList → Prop
  | refl : IsWithin inner inner
  | argument {list argument : SelectorList} {selector : Selector} {node : SelectorNode}
      {name : Text} : selector ∈ list → node ∈ selector →
      node.component = .pseudoClass name (.selectors argument) → IsWithin inner argument →
      IsWithin inner list

/-- Whether there is a selector in a list, and a node in each of its selectors, and white space
stands for combinators between simple selectors only. -/
structure SelectorList.IsShaped (list : SelectorList) : Prop where
  written : list ≠ []
  selectors : ∀ selector ∈ list, selector ≠ [] ∧ Selector.IsSpaced selector

/-- Whether a list and the lists in its arguments have the shape of what is read, and a walk finds
their nodes in order at characters of the text. -/
structure SelectorList.IsWellFormed (text : Text) (list : SelectorList) : Prop where
  shaped : ∀ inner : SelectorList, inner.IsWithin list → inner.IsShaped
  ascending : (list.walk.map (·.offset)).Pairwise (· < ·)
  inside : ∀ ref ∈ list.walk, ref.offset < Text.bytes text ∧ text.IsBoundary ref.offset

namespace SelectorList

section Components

variable {piece : Piece} {rest : List Piece} {component : Component} {count : Nat}

theorem ReadsComponent.not_isGap (reads : ReadsComponent piece rest component count)
    (offset : Nat) : ¬ SelectorNode.IsGap ⟨component, offset⟩ := by
  intro isGap
  cases reads with
  | argument _ => exact Component.noConfusion isGap
  | simple plain _ =>
      rw [show component = .combinator .descendant from isGap] at plain
      exact Bool.noConfusion plain

/-- The argument of a pseudo-class is read as a list of its own. -/
theorem ReadsComponent.readSelectors {name : Text} {list : SelectorList}
    (reads : ReadsComponent piece rest component count)
    (isFunction : component = .pseudoClass name (.selectors list)) :
    ∃ pieces, readSelectors true pieces = .ok list := by
  subst isFunction
  cases reads with
  | argument readList => exact ⟨_, readList⟩
  | simple plain _ => exact Bool.noConfusion plain

end Components

/-- A node that is no combinator of white space, in front of others. A combinator of white space
follows simple selectors only. -/
theorem isSpaced_cons {node : SelectorNode} {later : Selector} (own : ¬ node.IsGap)
    (first : ∀ next ∈ later.head?, next.IsGap → node.component.isCombinator = false)
    (last : ∀ next ∈ later.getLast?, ¬ next.IsGap)
    (apart : later.IsChain SelectorNode.MayPrecede) :
    Selector.IsSpaced (node :: later) := by
  refine ⟨fun found isFirst => ?_, fun found isLast => ?_, ?_⟩
  · obtain rfl := Option.some.inj isFirst
    exact own
  · rw [List.getLast?_cons] at isLast
    obtain rfl := Option.some.inj isLast
    cases end? : later.getLast? with
    | none => exact own
    | some found => exact last found end?
  · refine List.isChain_cons.2 ⟨fun next isNext => ⟨fun both => own both.1, fun both => ?_⟩, apart⟩
    have simple := first next isNext both.2
    rw [both.1] at simple
    exact Bool.noConfusion simple

/-- **White space stands for combinators between simple selectors.** It can do so at the start of
some nodes if a simple selector is in front of them. -/
theorem isSpaced_of_readNodes {behindSimple : Bool} {gap? : Option Nat} {pieces : List Piece}
    {nodes : Selector} (pending : gap?.isSome = true → behindSimple = true)
    (read : readNodes behindSimple gap? pieces = .ok nodes) :
    (∀ node ∈ nodes.head?, node.IsGap → behindSimple = true) ∧
      (∀ node ∈ nodes.getLast?, ¬ node.IsGap) ∧
      nodes.IsChain SelectorNode.MayPrecede := by
  induction read using induct_readNodes with
  | nil =>
      exact ⟨fun node none => absurd none (Option.not_mem_none node),
        fun node none => absurd none (Option.not_mem_none node), .nil⟩
  | @space behindSimple gap? _ _ _ _ _ ih =>
      refine ih fun more => ?_
      obtain ⟨gap, known⟩ := Option.isSome_iff_exists.1 more
      rcases mem_pending known with earlier | ⟨simple, _⟩
      · exact pending (Option.isSome_iff_exists.2 ⟨gap, earlier⟩)
      · exact simple
  | @component behindSimple _ piece _ component _ later reads _ _ _ behind =>
      obtain ⟨first, last, apart⟩ := behind fun none => Bool.noConfusion none
      have spaced : Selector.IsSpaced (⟨component, piece.start⟩ :: later) :=
        isSpaced_cons (reads.not_isGap _)
          (fun next isNext isGap => by simpa using first next isNext isGap) last apart
      have first : ∀ node ∈ (⟨component, piece.start⟩ :: later : Selector).head?, node.IsGap →
          behindSimple = true := fun node isFirst isGap => absurd isGap (spaced.first node isFirst)
      unfold behindGap
      split
      · exact ⟨first, spaced.last, spaced.apart⟩
      · rename_i gap
        split
        · exact ⟨first, spaced.last, spaced.apart⟩
        · rename_i simple
          refine ⟨fun _ _ _ => pending rfl, spaced.last, List.isChain_cons.2
            ⟨fun next isNext => ⟨fun both => ?_, fun both => spaced.first next isNext both.2⟩,
              spaced.apart⟩⟩
          obtain rfl := Option.some.inj isNext
          exact simple both.2

/-- A list that is read has the shape of what is read. -/
theorem isShaped_of_readSelectors {first : Bool} {pieces : List Piece} {list : SelectorList}
    (read : readSelectors first pieces = .ok list) : list.IsShaped := by
  obtain ⟨_, selector, others, rfl, _⟩ := exists_first read
  refine ⟨List.cons_ne_nil _ _, fun selector member => ?_⟩
  obtain ⟨segment, _, written, readSegment⟩ := exists_segment read selector member
  obtain ⟨first, last, apart⟩ :=
    isSpaced_of_readNodes (fun none => Bool.noConfusion none) readSegment
  exact ⟨written, fun node isFirst isGap => Bool.noConfusion (first node isFirst isGap), last, apart⟩

/-- The argument of a node is read from some pieces. -/
theorem exists_read_of_mem {behindSimple : Bool} {gap? : Option Nat} {pieces : List Piece}
    {nodes : Selector} (read : readNodes behindSimple gap? pieces = .ok nodes) {node : SelectorNode}
    (member : node ∈ nodes) {name : Text} {argument : SelectorList}
    (isFunction : node.component = .pseudoClass name (.selectors argument)) :
    ∃ pieces, readSelectors true pieces = .ok argument := by
  induction read using induct_readNodes with
  | nil => exact absurd member List.not_mem_nil
  | space _ _ ih => exact ih member
  | component reads _ _ _ behind =>
      rcases List.mem_append.1 member with inFirst | inLater
      · rcases eq_of_mem_behindGap inFirst with rfl | ⟨gap, _, rfl⟩
        · exact reads.readSelectors isFunction
        · exact Component.noConfusion isFunction
      · exact behind inLater

/-- The lists in arguments are read from some pieces, too. -/
theorem exists_read_of_isWithin {first : Bool} {pieces : List Piece} {inner list : SelectorList}
    (read : readSelectors first pieces = .ok list) (within : inner.IsWithin list) :
    ∃ first pieces, readSelectors first pieces = .ok inner := by
  induction within generalizing first pieces with
  | refl => exact ⟨first, pieces, read⟩
  | argument listed member isFunction _ ih =>
      obtain ⟨segment, _, _, readSegment⟩ := exists_segment read _ listed
      obtain ⟨pieces, readArgument⟩ := exists_read_of_mem readSegment member isFunction
      exact ih readArgument

/-- A node that starts where a piece does starts at a character. -/
theorem StartsPiece.isBoundary {text : Text} {node : SelectorNode}
    (starts : StartsPiece text node) : text.IsBoundary node.offset := by
  obtain ⟨piece, ⟨low, high, placed⟩, start, _⟩ := starts
  have stands := placed.stands
  rw [List.flatMap_singleton] at stands
  obtain ⟨before, behind, whole, bytes⟩ := stands.exists_text
  refine ⟨before, spelling piece.lexemes ++ behind, ?_, ?_⟩
  · rw [whole, List.append_assoc]
  · rw [bytes, ← Piece.start_eq stands, start]

/-- **What is read as a selector list is well formed.** -/
theorem isWellFormed_of_parse {text : Text} {list : SelectorList} (read : parse text = .ok list) :
    list.IsWellFormed text := by
  have climbs := climbs_walk read
  refine ⟨fun inner within => ?_, climbs.ascending, fun ref walked => ⟨?_, ?_⟩⟩
  · obtain ⟨_, _, readInner⟩ := exists_read_of_isWithin (parse_eq_ok_iff.1 read) within
    exact isShaped_of_readSelectors readInner
  · exact (climbs.inside ref.offset (List.mem_map_of_mem walked)).2
  · exact (startsPiece_of_mem_walk read walked).isBoundary

/-- White space around a comma, around and in place of combinators, and inside of an argument. -/
theorem isWellFormed_spaced :
    ∃ list, parse " .é  > a b , &:not( c /**/ d )".toList = .ok list ∧
      list.walk.map (·.offset) = [1, 6, 8, 9, 10, 14, 15, 21, 22, 28] ∧
        list.IsWellFormed " .é  > a b , &:not( c /**/ d )".toList := by
  have offsets : (parse " .é  > a b , &:not( c /**/ d )".toList).toOption.map
      (·.walk.map (·.offset)) = some [1, 6, 8, 9, 10, 14, 15, 21, 22, 28] := by
    decide +kernel
  cases read : parse " .é  > a b , &:not( c /**/ d )".toList with
  | error fault =>
      rw [read] at offsets
      exact absurd offsets.symm (Option.some_ne_none _)
  | ok list =>
      rw [read] at offsets
      exact ⟨list, rfl, Option.some.inj offsets, isWellFormed_of_parse read⟩

end SelectorList

end ScssLint
