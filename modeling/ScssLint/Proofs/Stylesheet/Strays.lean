import ScssLint.Proofs.Css.Outside
import ScssLint.Proofs.Stylesheet.Accounting

/-! # Stray closing brackets

A closing bracket of the blanked text that closes no block (`Stylesheet.strays`) can stand between
the statements of a block (`Stylesheet.StandsBetween`) or anywhere else. Where it stands between
statements, the reader says so once and goes on behind it (`Outline.Sections.warned`). No other
bracket is warned of, since every warning comes from such a place (`Stylesheet.exists_place`). Both
directions are put together in `Stylesheet.strays_ofText`.
-/

namespace ScssLint

namespace Css

namespace Forest

/-- The tokens at all depths that neither open nor close a block. -/
def singles : Forest → List Lexeme
  | nil => []
  | leaf lexeme rest => lexeme :: rest.singles
  | block _ body _ rest => body.singles ++ rest.singles

theorem singles_subset (forest : Forest) : forest.singles ⊆ forest.lexemes := by
  induction forest with
  | nil => exact List.Subset.refl _
  | leaf lexeme rest ih => exact List.cons_subset_cons lexeme ih
  | block opener body close? rest inner later =>
      intro lexeme member
      rw [lexemes]
      rcases List.mem_append.1 member with inBody | inRest
      · exact List.mem_append_left _
          (List.mem_append_left _ (List.mem_cons_of_mem _ (inner inBody)))
      · exact List.mem_append_right _ (later inRest)

/-- A piece without a block is a single token, and a block holds single tokens of its forest. -/
theorem singles_of_mem {lead : List Lexeme} {forest : Forest} :
    ∀ piece ∈ forest.piecesBehind lead,
      (piece.block? = none → piece.head ∈ forest.singles) ∧
        piece.body.singles ⊆ forest.singles := by
  induction forest generalizing lead with
  | nil => exact List.forall_mem_nil _
  | leaf lexeme rest ih =>
      have later {lead : List Lexeme} : ∀ piece ∈ rest.piecesBehind lead,
          (piece.block? = none → piece.head ∈ (leaf lexeme rest).singles) ∧
            piece.body.singles ⊆ (leaf lexeme rest).singles := fun piece member =>
        ⟨fun single => List.mem_cons_of_mem _ ((ih piece member).1 single),
          fun _ inside => List.mem_cons_of_mem _ ((ih piece member).2 inside)⟩
      unfold piecesBehind
      split
      · exact later
      · exact List.forall_mem_cons.2
          ⟨⟨fun _ => List.mem_cons_self, fun _ inside => absurd inside List.not_mem_nil⟩, later⟩
  | block opener body close? rest _ ih =>
      refine List.forall_mem_cons.2 ⟨⟨fun single => absurd single (Option.some_ne_none _),
        fun _ inside => List.mem_append_left _ inside⟩, fun piece member => ?_⟩
      exact ⟨fun single => List.mem_append_right _ ((ih piece member).1 single),
        fun _ inside => List.mem_append_right _ ((ih piece member).2 inside)⟩

end Forest

namespace Stands

variable {source : Text} {low high : Nat} {tokens : List Lexeme} {lexeme : Lexeme}

/-- A token that starts inside a passage belongs to it. -/
theorem mem_of_start (stands : Stands source low tokens high) (listed : lexeme ∈ lexemes source)
    (above : low ≤ lexeme.start) (below : lexeme.start < high) : lexeme ∈ tokens := by
  obtain ⟨front, back, whole, rfl, rfl⟩ := stands
  have placed := stands_lexemes source
  rw [whole] at placed listed
  obtain ⟨mid, inFront, behind⟩ := placed.split (front ++ tokens)
  have stop := inFront.high_eq
  obtain ⟨mid', inStart, _⟩ := inFront.split front
  have start := inStart.high_eq
  rcases List.mem_append.1 listed with listed | inBack
  · rcases List.mem_append.1 listed with ahead | member
    · have := inStart.of_mem ahead
      omega
    · exact member
  · have := behind.of_mem inBack
    omega

end Stands

end Css

open Css

namespace Outline

/-! ### Brackets between statements are warned of -/

section Warned

variable {first stray : Piece} {more spaces ending taken behind rest front back : List Piece}
  {statement : Statement}

/-- A bracket in a statement does not stand between statements. -/
theorem IsStem.not_isBetween_of_closing (stem : IsStem first more spaces)
    (ends : ∀ piece ∈ ending, piece.token ≠ .closing .curly)
    (split : first :: (more ++ spaces) ++ ending = front ++ stray :: back)
    (closes : stray.token = .closing .curly) : ¬ IsBetween front := by
  rcases List.append_eq_append_iff.1 split with ⟨front', _, atEnd⟩ | ⟨back', inStem, others⟩
  · exact absurd closes (ends stray (atEnd ▸ List.mem_append_right _ List.mem_cons_self))
  · cases back' with
    | nil =>
        rw [List.nil_append] at others
        exact absurd closes (ends stray (others ▸ List.mem_cons_self))
    | cons piece back' =>
        obtain ⟨rfl, _⟩ := List.cons.inj others
        refine stem.not_isBetween inStem ?_
        rintro rfl
        exact stem.noBrace ((List.cons.inj inStem).1 ▸ closes)

theorem IsEnding.noClosing (ends : IsEnding ending rest) :
    ∀ piece ∈ ending, piece.token ≠ .closing .curly := by
  cases ends with
  | semicolon ends => exact List.forall_mem_singleton.2 fun closes =>
      Token.noConfusion (ends.symm.trans closes)
  | nothing => exact List.forall_mem_nil _

theorem IsBlockBehind.noClosing {block : Piece} (isBlock : IsBlockBehind front block) :
    ∀ piece ∈ [block], piece.token ≠ .closing .curly :=
  List.forall_mem_singleton.2 fun closes =>
    Token.noConfusion (isBlock.1.symm.trans closes)

theorem IsLone.not_isBetween_of_closing (lone : IsLone first taken behind rest statement)
    (split : first :: taken ++ behind = front ++ stray :: back)
    (closes : stray.token = .closing .curly) : ¬ IsBetween front := by
  cases lone with
  | atRule _ stem ends | declaration stem ends _ =>
      rw [← List.append_assoc] at split
      exact stem.not_isBetween_of_closing ends.noClosing split closes
  | custom stem isBlock _ _ =>
      rw [List.append_nil] at split
      exact stem.not_isBetween_of_closing isBlock.noClosing split closes

/-- A place between statements that is not in the first of some pieces is in the others. -/
theorem IsBetween.exists_behind {passed : List Piece} (between : IsBetween front)
    (split : passed ++ rest = front ++ stray :: back)
    (apart : ∀ front back, passed = front ++ stray :: back → ¬ IsBetween front) :
    ∃ front', rest = front' ++ stray :: back ∧ IsBetween front' := by
  rcases List.append_eq_append_iff.1 split with ⟨front', rfl, others⟩ | ⟨back', inPassed, others⟩
  · exact ⟨front', others, between.of_append⟩
  · cases back' with
    | nil => exact ⟨[], others.symm, .start⟩
    | cons piece back' =>
        obtain ⟨rfl, _⟩ := List.cons.inj others
        exact absurd between (apart front back' inPassed)

theorem not_isBetween_of_single {piece : Piece} (other : piece.token ≠ .closing .curly)
    (closes : stray.token = .closing .curly) :
    ∀ front back, [piece] = front ++ stray :: back → ¬ IsBetween front := by
  intro front back split
  have listed : stray ∈ [piece] := split ▸ List.mem_append_right _ List.mem_cons_self
  exact absurd (List.mem_singleton.1 listed ▸ closes) other

end Warned

/-- **A closing bracket between statements is warned of.** -/
theorem Sections.warned {pieces : List Piece} {outline : Outline}
    (sections : Sections pieces outline) {front back : List Piece} {stray : Piece} (split : pieces = front ++ stray :: back)
    (between : IsBetween front) (closes : stray.token = .closing .curly) :
    .unmatchedBrace stray.head.start ∈ outline.warnings := by
  induction sections generalizing front with
  | done => exact absurd split.symm (List.append_ne_nil_of_right_ne_nil _ (List.cons_ne_nil _ _))
  | @gap piece rest _ gap _ ih =>
      have other : piece.token ≠ .closing .curly := fun same => by
        rw [isGap, same] at gap
        exact Bool.noConfusion gap
      obtain ⟨front', split, between⟩ := between.exists_behind
        (show [piece] ++ rest = front ++ stray :: back from split)
        (not_isBetween_of_single other closes)
      exact ih split between
  | @stray piece rest _ _ _ ih =>
      cases front with
      | nil =>
          obtain ⟨rfl, _⟩ := List.cons.inj split
          exact List.mem_cons_self
      | cons _ front =>
          obtain ⟨rfl, others⟩ := List.cons.inj split
          have between : IsBetween ([piece] ++ front) := between
          exact List.mem_cons_of_mem _ (ih others between.of_append)
  | @bare piece rest _ opens _ ih =>
      have other : piece.token ≠ .closing .curly := fun same =>
        Token.noConfusion (opens.symm.trans same)
      obtain ⟨front', split, between⟩ := between.exists_behind
        (show [piece] ++ rest = front ++ stray :: back from split)
        (not_isBetween_of_single other closes)
      exact List.mem_cons_of_mem _ (ih split between)
  | @unknown first more spaces ending rest _ stem ends _ _ ih =>
      rw [← List.append_assoc, ← List.append_assoc] at split
      obtain ⟨front', split, between⟩ := between.exists_behind split fun _ _ split =>
        stem.not_isBetween_of_closing ends.noClosing split closes
      exact List.mem_cons_of_mem _ (ih split between)
  | @lone first taken behind rest statement _ lone _ ih =>
      rw [← List.append_assoc] at split
      obtain ⟨front', split, between⟩ := between.exists_behind split fun _ _ split =>
        lone.not_isBetween_of_closing split closes
      exact ih split between
  | @block first block more spaces rest statement inside _ stem _ isBlock _ _ _ ih =>
      obtain ⟨front', split, between⟩ := between.exists_behind split fun _ _ split =>
        stem.not_isBetween_of_closing isBlock.noClosing split closes
      exact List.mem_append_right _ (ih split between)

end Outline

namespace Stylesheet

/-! ### Warnings come from places between statements -/

/-- Whether a warning is about a piece that stands between the statements of a block. -/
def IsAboutPlace (source : Text) (found : ParseWarning) : Prop :=
  ∃ id forest front first back, ReadsBlock source id forest ∧
    forest.pieces = front ++ first :: back ∧ Outline.IsBetween front ∧
      found.offset = first.head.start ∧
        (found = .unmatchedBrace first.head.start ↔ first.token = .closing .curly)

/-- **Every warning is about a piece between statements.** -/
theorem exists_place {source : Text} {pieces : List Piece} {outline : Outline}
    (sections : Outline.Sections pieces outline) {id next : Nat} {forest : Forest}
    {start : List Piece} (reads : ReadsBlock source id forest)
    (split : forest.pieces = start ++ pieces) (between : pieces ≠ [] → Outline.IsBetween start)
    (holds : (ofText source).Holds id next outline)
    (children : ∀ child ∈ outline.childIds next, child ∈ (ofText source).children id) :
    ∀ found ∈ outline.warnings, IsAboutPlace source found := by
  induction sections generalizing id next forest start with
  | done => exact List.forall_mem_nil _
  | @gap piece rest _ gap _ ih =>
      rw [List.append_cons] at split
      have between := between (List.cons_ne_nil _ _)
      exact ih reads split (fun _ => between.append (Outline.isBetween_of_isGap gap)) holds children
  | @stray piece rest _ closes _ ih =>
      have between := between (List.cons_ne_nil _ _)
      refine List.forall_mem_cons.2 ⟨⟨id, forest, start, piece, rest, reads, split, between, rfl,
        iff_of_true rfl closes⟩, ?_⟩
      rw [List.append_cons] at split
      exact ih reads split (fun _ => .gap (.inr closes) between) holds children
  | @bare piece rest _ opens _ ih =>
      have between := between (List.cons_ne_nil _ _)
      refine List.forall_mem_cons.2 ⟨⟨id, forest, start, piece, rest, reads, split, between, rfl,
        iff_of_false ParseWarning.noConfusion fun same =>
          Token.noConfusion (opens.symm.trans same)⟩, ?_⟩
      rw [List.append_cons] at split
      refine ih reads split (fun _ => between.append ?_) holds children
      exact (@Outline.isBetween_concat [] piece).2 (.inr (.inr (Outline.isBlockBehind_nil opens)))
  | @unknown first more spaces ending rest _ stem ends _ _ ih =>
      have between := between (List.append_ne_nil_of_left_ne_nil (List.cons_ne_nil _ _) _)
      refine List.forall_mem_cons.2 ⟨⟨id, forest, start, first, _, reads, split, between, rfl,
        iff_of_false ParseWarning.noConfusion stem.noBrace⟩, ?_⟩
      rw [← List.append_assoc, ← List.append_assoc, ← List.append_assoc] at split
      exact ih reads split (fun some => ends.isBetween some _) holds children
  | @lone first taken behind rest statement _ lone _ ih =>
      have between := between (List.append_ne_nil_of_left_ne_nil (List.cons_ne_nil _ _) _)
      rw [← List.append_assoc (first :: taken), ← List.append_assoc] at split
      exact ih reads split (fun some => between.append (lone.isBetween some)) holds.2.2
        (List.forall_mem_cons.1 children).2
  | @block first block more spaces rest statement inside _ stem header isBlock _ _ inner later =>
      have between := between (List.append_ne_nil_of_left_ne_nil (List.cons_ne_nil _ _) _)
      obtain ⟨own, within, holdsRest⟩ := holds
      obtain ⟨isChild, siblings⟩ := List.forall_mem_cons.1 children
      have readsInside := reads.ofHeader isChild own header isBlock split rfl
      refine List.forall_mem_append.2 ⟨?_, ?_⟩
      · refine inner readsInside (List.nil_append _).symm (fun _ => .start) within
          fun child member => ?_
        rwa [children_of_get? own]
      · rw [← List.append_assoc] at split
        have passed : Outline.IsBetween (first :: (more ++ spaces ++ [block])) := .block isBlock
        exact later reads split (fun _ => between.append passed) holdsRest siblings

/-! ### Which brackets are warned of -/

/-- The closing brackets of a text that close no block, once its line comments are blanked. -/
def strays (source : Text) : List Lexeme :=
  (Forest.ofText (blankLineComments source)).singles.filter (·.token = .closing .curly)

/-- Whether a token stands between the statements of a block from which statements are read. -/
def StandsBetween (source : Text) (lexeme : Lexeme) : Prop :=
  ∃ id forest front piece back, ReadsBlock source id forest ∧
    forest.pieces = front ++ piece :: back ∧ Outline.IsBetween front ∧ piece.head = lexeme

section Brackets

variable {source : Text}

theorem ReadsBlock.singles_subset {id : Nat} {forest : Forest}
    (reads : ReadsBlock source id forest) :
    forest.singles ⊆ (Forest.ofText (blankLineComments source)).singles := by
  induction reads with
  | whole => exact List.Subset.refl _
  | @inside _ _ _ forest front back block _ _ _ _ split _ _ ih =>
      have listed : block ∈ forest.pieces := split ▸ List.mem_append_right _ List.mem_cons_self
      exact List.Subset.trans (Forest.singles_of_mem block listed).2 ih

theorem ReadsBlock.head_mem_lexemes {id : Nat} {forest : Forest} {piece : Piece}
    (reads : ReadsBlock source id forest) (listed : piece ∈ forest.pieces) :
    piece.head ∈ lexemes (blankLineComments source) := by
  obtain ⟨_, _, placed⟩ := reads.arePlaced
  refine placed.stands.subset (List.mem_flatMap.2 ⟨piece, listed, ?_⟩)
  exact List.mem_append_right _ List.mem_cons_self

/-- A closing bracket among the pieces of a block is a stray one. -/
theorem ReadsBlock.head_mem_strays {id : Nat} {forest : Forest} {piece : Piece}
    (reads : ReadsBlock source id forest) (listed : piece ∈ forest.pieces)
    (closes : piece.token = .closing .curly) : piece.head ∈ strays source := by
  obtain ⟨_, _, placed⟩ := reads.arePlaced
  have single : piece.block? = none := by
    cases shape : piece.block? with
    | none => rfl
    | some block =>
        obtain ⟨⟨_, opens, _⟩, _⟩ := (placed.sound piece listed).block block.1 block.2 shape
        rw [closes] at opens
        exact absurd opens.symm (Option.some_ne_none _)
  refine List.mem_filter.2 ⟨?_, decide_eq_true closes⟩
  exact reads.singles_subset ((Forest.singles_of_mem piece listed).1 single)

theorem mem_lexemes_of_stray {stray : Lexeme} (isStray : stray ∈ strays source) :
    stray ∈ lexemes (blankLineComments source) := by
  have listed := Forest.singles_subset _ (List.mem_filter.1 isStray).1
  rwa [Forest.ofText, Forest.lexemes_ofLexemes] at listed

/-- A closing bracket is a single byte. -/
theorem stop_of_stray {stray : Lexeme} (isStray : stray ∈ strays source) :
    stray.stop = stray.start + 1 := by
  obtain ⟨front, back, whole⟩ := List.append_of_mem (mem_lexemes_of_stray isStray)
  obtain ⟨_, _, spelled⟩ := placed_lexemesFrom whole
  rw [of_decide_eq_true (List.mem_filter.1 isStray).2] at spelled
  rw [Lexeme.stop, show stray.text = ['\x7D'] from spelled]
  rfl

theorem StandsBetween.warned {stray : Lexeme} (between : StandsBetween source stray)
    (closes : stray.token = .closing .curly) :
    .unmatchedBrace stray.start ∈ (Outline.ofText source).warnings := by
  obtain ⟨id, forest, front, piece, back, reads, split, between, rfl⟩ := between
  obtain ⟨_, _, _, _, isRead⟩ := reads.isRead
  exact isRead.warnings.all _ (isRead.sections.warned split between closes)

/-- What is warned of inside a block belongs to the block. -/
theorem ReadsBlock.mem_of_warned {id : Nat} {forest : Forest} {inside : Outline} {lexeme : Lexeme}
    {found : ParseWarning} (reads : ReadsBlock source id forest)
    (sections : Outline.Sections forest.pieces inside) (member : found ∈ inside.warnings)
    (listed : lexeme ∈ lexemes (blankLineComments source)) (here : lexeme.start = found.offset) :
    lexeme ∈ forest.lexemes := by
  obtain ⟨_, _, low, high, isRead⟩ := reads.isRead
  obtain ⟨mid, less, placed⟩ := Outline.arePlaced_pieces isRead.stands isRead.sound
  have bounds := (warnings_ascend (sections.divides.isPlaced placed)).1 found member
  exact isRead.stands.mem_of_start listed (by omega) (by omega)

/-- **No statement holds a bracket that stands between statements**, but for its block. -/
theorem StandsBetween.isOutside {stray : Lexeme} (between : StandsBetween source stray)
    (isStray : stray ∈ strays source) {id : Nat} {node : StyleNode} (inner : id ≠ 0)
    (found : (ofText source).get? id = some node) :
    stray.IsOutside node.span ∨ ∃ forest, ReadsBlock source id forest ∧ stray ∈ forest.lexemes := by
  by_cases outside : stray.IsOutside node.span
  · exact .inl outside
  obtain ⟨above, forest, isChild, reads, front, first, taken, behind, rest, split, _, span,
    standsFor⟩ := exists_isReadFrom inner found
  have warned := between.warned (of_decide_eq_true (List.mem_filter.1 isStray).2)
  have within : node.span.start ≤ stray.start ∧ stray.start < node.span.stop := by
    rw [Lexeme.IsOutside, stop_of_stray isStray] at outside
    omega
  cases standsFor with
  | lone _ _ none => exact absurd (none.only _ warned within.1 within.2) List.not_mem_nil
  | @block more spaces _ block inside _ header isBlock _ _ sections only =>
      have readsInside := reads.ofHeader isChild found header isBlock split span
      exact .inr ⟨block.body, readsInside, readsInside.mem_of_warned sections
        (only.only _ warned within.1 within.2) (mem_lexemes_of_stray isStray) rfl⟩

end Brackets

/-- **A stray closing bracket is warned of if and only if it stands between statements**, and then
exactly once and as a part of no statement but for its block. -/
theorem strays_ofText (source : Text) :
    (∀ offset, .unmatchedBrace offset ∈ (Outline.ofText source).warnings →
      ∃ stray ∈ strays source, StandsBetween source stray ∧ stray.start = offset) ∧
    ∀ stray ∈ strays source,
      (StandsBetween source stray → IsWarnedOnce source (.unmatchedBrace stray.start) ∧
        ∀ id node, id ≠ 0 → (ofText source).get? id = some node →
          stray.IsOutside node.span ∨
            ∃ forest, ReadsBlock source id forest ∧ stray ∈ forest.lexemes) ∧
      (¬ StandsBetween source stray →
        ∀ found ∈ (Outline.ofText source).warnings, found.offset ≠ stray.start) := by
  have place : ∀ found ∈ (Outline.ofText source).warnings, IsAboutPlace source found := by
    have whole := isRead_whole source
    refine exists_place whole.sections .whole (List.nil_append _).symm (fun _ => .start) whole.holds
      fun child member => ?_
    rwa [whole.children]
  refine ⟨fun offset warned => ?_, fun stray isStray => ⟨fun between => ⟨?_, ?_⟩, ?_⟩⟩
  · obtain ⟨id, forest, front, first, back, reads, split, between, here, closes⟩ := place _ warned
    obtain rfl : offset = first.head.start := here
    have listed : first ∈ forest.pieces := split ▸ List.mem_append_right _ List.mem_cons_self
    exact ⟨first.head, reads.head_mem_strays listed (closes.1 rfl),
      ⟨id, forest, front, first, back, reads, split, between, rfl⟩, rfl⟩
  · exact isWarnedOnce_of_mem (between.warned (of_decide_eq_true (List.mem_filter.1 isStray).2))
  · exact fun id node inner known => between.isOutside isStray inner known
  · intro elsewhere found warned here
    obtain ⟨id, forest, front, first, back, reads, split, between, there, _⟩ := place found warned
    have listed : first ∈ forest.pieces := split ▸ List.mem_append_right _ List.mem_cons_self
    have same : first.head = stray := eq_of_start_eq (reads.head_mem_lexemes listed)
      (mem_lexemes_of_stray isStray) (there.symm.trans here)
    exact elsewhere ⟨id, forest, front, first, back, reads, split, between, same⟩

/-- Not every stray bracket is warned of: `$a: 1 }` is a single declaration. -/
theorem not_warned_inside :
    ¬ ∀ source, ∀ stray ∈ strays source, IsWarnedOnce source (.unmatchedBrace stray.start) := by
  intro warned
  have none : (Outline.ofText "$a: 1 \x7D".toList).warnings = [] := by decide +kernel
  have isStray : ⟨.closing .curly, 6, ['\x7D']⟩ ∈ strays "$a: 1 \x7D".toList := by decide +kernel
  have once := warned _ _ isStray
  rw [IsWarnedOnce, none] at once
  exact List.cons_ne_nil _ _ once.symm

end Stylesheet

end ScssLint
