import Mathlib.Data.List.Induction
import ScssLint.Proofs.Stylesheet.Division

/-! # Where statements start and end

A statement starts at the first piece that stands between statements (`Outline.IsBetween`) and is
more than white space, a semicolon or a stray bracket, and it carries on up to a semicolon, a block
or the end (`Outline.IsStem`). `Outline.Sections` divides pieces in this way, and
`Outline.sections_ofPieces` is the one place that follows the reader through its branches. That the
pieces divide into the statements of their outline is all that is said of it where the ends of the
statements do not matter (`Outline.divides_ofPieces`).
-/

namespace ScssLint

namespace Outline

open Css

/-! ### Places between statements -/

/-- Whether what stands behind the pieces `front` of a block is no part of a statement: nothing
stands in front, or the end of a statement does, or white space or a stray bracket between
statements. -/
inductive IsBetween : List Piece → Prop
  | start : IsBetween []
  | gap {front : List Piece} {piece : Piece} :
      piece.token = .whitespace ∨ piece.token = .closing .curly → IsBetween front →
      IsBetween (front ++ [piece])
  | semicolon {front : List Piece} {piece : Piece} : piece.token = .semicolon →
      IsBetween (front ++ [piece])
  | block {front : List Piece} {piece : Piece} : IsBlockBehind front piece →
      IsBetween (front ++ [piece])

theorem isBetween_concat {front : List Piece} {piece : Piece} :
    IsBetween (front ++ [piece]) ↔
      (piece.token = .whitespace ∨ piece.token = .closing .curly) ∧ IsBetween front ∨
        piece.token = .semicolon ∨ IsBlockBehind front piece := by
  constructor
  · generalize shape : front ++ [piece] = whole
    intro between
    cases between with
    | start => exact absurd shape (List.append_ne_nil_of_right_ne_nil _ (List.cons_ne_nil _ _))
    | gap blank between =>
        obtain ⟨rfl, same⟩ := List.append_inj' shape rfl
        obtain rfl := List.singleton_inj.1 same
        exact .inl ⟨blank, between⟩
    | semicolon ends =>
        obtain ⟨rfl, same⟩ := List.append_inj' shape rfl
        obtain rfl := List.singleton_inj.1 same
        exact .inr (.inl ends)
    | block isBlock =>
        obtain ⟨rfl, same⟩ := List.append_inj' shape rfl
        obtain rfl := List.singleton_inj.1 same
        exact .inr (.inr isBlock)
  · rintro (⟨blank, between⟩ | ends | isBlock)
    · exact .gap blank between
    · exact .semicolon ends
    · exact .block isBlock

namespace IsBetween

variable {start front : List Piece}

/-- A hash is a part of a statement. -/
theorem noHash (between : IsBetween start) :
    ∀ piece ∈ start.getLast?, piece.token ≠ .delim '#' := by
  intro piece last isHash
  cases between with
  | start => exact Option.not_mem_none _ last
  | gap blank _ =>
      rw [List.getLast?_concat] at last
      obtain rfl := Option.some.inj last
      rcases blank with blank | closes
      · exact Token.noConfusion (blank.symm.trans isHash)
      · exact Token.noConfusion (closes.symm.trans isHash)
  | semicolon ends =>
      rw [List.getLast?_concat] at last
      obtain rfl := Option.some.inj last
      exact Token.noConfusion (ends.symm.trans isHash)
  | block isBlock =>
      rw [List.getLast?_concat] at last
      obtain rfl := Option.some.inj last
      exact Token.noConfusion (isBlock.1.symm.trans isHash)

theorem append (before : IsBetween start) (between : IsBetween front) :
    IsBetween (start ++ front) := by
  induction between with
  | start => rwa [List.append_nil]
  | gap blank _ ih =>
      rw [← List.append_assoc]
      exact .gap blank ih
  | semicolon ends =>
      rw [← List.append_assoc]
      exact .semicolon ends
  | @block front piece isBlock =>
      rw [← List.append_assoc]
      refine .block ⟨isBlock.1, fun last member => ?_⟩
      rw [List.getLast?_append, Option.mem_def, Option.or_eq_some_iff] at member
      rcases member with member | ⟨_, member⟩
      · exact isBlock.2 last member
      · exact before.noHash last member

/-- What stands far in front does not matter. -/
theorem of_append (between : IsBetween (start ++ front)) : IsBetween front := by
  induction front using List.reverseRecOn with
  | nil => exact .start
  | append_singleton front piece ih =>
      rw [← List.append_assoc] at between
      rcases isBetween_concat.1 between with ⟨blank, between⟩ | ends | isBlock
      · exact .gap blank (ih between)
      · exact .semicolon ends
      · refine .block ⟨isBlock.1, fun last member => isBlock.2 last ?_⟩
        rw [List.getLast?_append, Option.mem_def.1 member]
        rfl

end IsBetween

theorem isBetween_of_isGap {piece : Piece} (gap : isGap piece = true) : IsBetween [piece] := by
  rw [isGap, Bool.or_eq_true, beq_iff_eq, beq_iff_eq] at gap
  rcases gap with blank | ends
  · exact (@isBetween_concat [] piece).2 (.inl ⟨.inl blank, .start⟩)
  · exact (@isBetween_concat [] piece).2 (.inr (.inl ends))

theorem isBlockBehind_nil {block : Piece} (opens : block.token = .opening .curly) :
    IsBlockBehind [] block :=
  ⟨opens, fun _ member => absurd member (Option.not_mem_none _)⟩

/-! ### Statements up to their ends -/

theorem CarriesOn.noSemicolon {behindHash : Bool} {pieces : List Piece}
    (carries : CarriesOn behindHash pieces) : ∀ piece ∈ pieces, piece.token ≠ .semicolon := by
  induction pieces generalizing behindHash with
  | nil => exact List.forall_mem_nil _
  | cons piece pieces ih => exact List.forall_mem_cons.2 ⟨carries.1, ih carries.2.2⟩

/-- Behind the first pieces of a statement it goes on. -/
theorem CarriesOn.not_isBetween {first : Piece} {more : List Piece}
    (carries : CarriesOn false (first :: more)) (dark : first.token ≠ .whitespace)
    (noBrace : first.token ≠ .closing .curly) : ¬ IsBetween (first :: more) := by
  induction more using List.reverseRecOn with
  | nil =>
      intro between
      rcases (@isBetween_concat [] first).1 between with ⟨blank | closes, _⟩ | ends | isBlock
      · exact dark blank
      · exact noBrace closes
      · exact carries.1 ends
      · exact Bool.noConfusion (carries.2.1 isBlock.1)
  | append_singleton more piece ih =>
      intro between
      rw [← List.cons_append] at between carries
      rcases isBetween_concat.1 between with ⟨_, between⟩ | ends | isBlock
      · exact ih carries.append_left between
      · exact carries.noSemicolon piece (List.mem_append_right _ List.mem_cons_self) ends
      · rcases carries.behindHash isBlock.1 with ⟨empty, _⟩ | ⟨hash, last, isHash⟩
        · exact List.cons_ne_nil _ _ empty
        · exact isBlock.2 hash last isHash

/-- Whether `first` and `more` can be the pieces of a statement up to what ends it, with the white
space `spaces` behind them. -/
structure IsStem (first : Piece) (more spaces : List Piece) : Prop where
  dark : first.token ≠ .whitespace
  noBrace : first.token ≠ .closing .curly
  /-- Nothing in between ends a statement. -/
  carries : CarriesOn false (first :: (more ++ spaces))
  last : ∀ piece ∈ more.getLast?, piece.token ≠ .whitespace
  blank : ∀ piece ∈ spaces, piece.token = .whitespace

/-- Whether a statement without a block ends with the pieces `ending` in front of `rest`. -/
inductive IsEnding : List Piece → List Piece → Prop
  | semicolon {piece : Piece} {rest : List Piece} : piece.token = .semicolon →
      IsEnding [piece] rest
  | nothing : IsEnding [] []

/-- Whether `first` and `taken` make a statement without statements inside, and the pieces `behind`
end it in front of `rest`. -/
inductive IsLone (first : Piece) : (taken behind rest : List Piece) → Statement → Prop
  | atRule {name : Text} {more spaces ending rest : List Piece} : first.token = .atKeyword name →
      IsStem first more spaces → IsEnding ending rest →
      IsLone first more (spaces ++ ending) rest (.atRule name (Text.trim (piecesText more)) false)
  | declaration {property value : Text} {more spaces ending rest : List Piece} :
      IsStem first more spaces → IsEnding ending rest →
      splitDeclaration? (bareText (first :: more)) = some (property, value) →
      IsLone first more (spaces ++ ending) rest (.declaration property value)
  /-- A custom property takes the block as its value. -/
  | custom {property value : Text} {more spaces rest : List Piece} {block : Piece} :
      IsStem first more spaces → IsBlockBehind (first :: (more ++ spaces)) block →
      splitDeclaration? (bareText (first :: more)) = some (property, value) →
      isCustomProperty property = true →
      IsLone first (more ++ spaces ++ [block]) [] rest (.declaration property (bareText [block]))

/-- Whether pieces divide into the statements and the warnings of an outline, each statement from
its first piece up to its end. -/
inductive Sections : List Piece → Outline → Prop
  | done : Sections [] nil
  | gap {piece : Piece} {rest : List Piece} {outline : Outline} : isGap piece = true →
      Sections rest outline → Sections (piece :: rest) outline
  | stray {piece : Piece} {rest : List Piece} {outline : Outline} : piece.token = .closing .curly →
      Sections rest outline →
      Sections (piece :: rest) (warning (.unmatchedBrace piece.head.start) outline)
  | bare {piece : Piece} {rest : List Piece} {outline : Outline} : piece.token = .opening .curly →
      Sections rest outline →
      Sections (piece :: rest) (warning (.blockWithoutSelector piece.head.start) outline)
  | unknown {first : Piece} {more spaces ending rest : List Piece} {outline : Outline} :
      IsStem first more spaces → IsEnding ending rest →
      splitDeclaration? (bareText (first :: more)) = none → Sections rest outline →
      Sections (first :: more ++ (spaces ++ ending ++ rest))
        (warning (.unknownStatement first.head.start (bareText (first :: more))) outline)
  | lone {first : Piece} {taken behind rest : List Piece} {statement : Statement}
      {outline : Outline} :
      IsLone first taken behind rest statement → Sections rest outline →
      Sections (first :: taken ++ (behind ++ rest))
        (node statement (extent first taken) nil outline)
  | block {first block : Piece} {more spaces rest : List Piece} {statement : Statement}
      {inside outline : Outline} :
      IsStem first more spaces → IsHeader first more statement →
      IsBlockBehind (first :: (more ++ spaces)) block → Sections block.body.pieces inside →
      Sections rest outline →
      Sections (first :: (more ++ spaces ++ [block]) ++ rest)
        (node statement (extent first (more ++ spaces ++ [block])) inside outline)

/-- What does not end with a block ends with a semicolon or where the pieces do. -/
theorem isEnding_cutStatement {behindHash : Bool} {pieces : List Piece}
    (noBlock : ∀ block, (cutStatement behindHash pieces).ending ≠ .block block) :
    IsEnding (cutStatement behindHash pieces).ending.pieces
      (cutStatement behindHash pieces).rest := by
  induction pieces generalizing behindHash with
  | nil => exact .nothing
  | cons piece rest ih =>
      unfold cutStatement at noBlock ⊢
      split
      · rename_i ends
        exact .semicolon ends
      · rename_i noSemicolon
        simp only [noSemicolon, ↓reduceIte] at noBlock
        split
        · rename_i opens
          exact absurd (if_pos opens ▸ rfl) (noBlock piece)
        · rename_i carries
          simp only [carries, ↓reduceIte] at noBlock
          exact ih noBlock

/-- No white space is left at the end. -/
theorem last_withoutTrailingSpace (pieces : List Piece) :
    ∀ piece ∈ (withoutTrailingSpace pieces).getLast?, piece.token ≠ .whitespace := by
  intro piece last
  rw [withoutTrailingSpace, List.getLast?_reverse] at last
  have dark := List.head?_dropWhile_not (·.token == .whitespace) pieces.reverse
  rw [Option.mem_def.1 last] at dark
  exact beq_eq_false_iff_ne.1 dark

/-- What follows the name of an at-rule. -/
theorem exists_atStem {first : Piece} {name : Text} (named : first.token = .atKeyword name)
    (rest : List Piece) :
    ∃ spaces, IsStem first (withoutTrailingSpace (cutStatement false rest).before) spaces ∧
      (cutStatement false rest).before =
        withoutTrailingSpace (cutStatement false rest).before ++ spaces ∧
      withoutTrailingSpace (cutStatement false rest).before ++ spaces ++
        (cutStatement false rest).ending.pieces ++ (cutStatement false rest).rest = rest := by
  obtain ⟨spaces, blank, split, whole⟩ := exists_spaces rest
  have other {token : Token} (apart : token ≠ .atKeyword name) : first.token ≠ token :=
    fun same => apart (same.symm.trans named)
  have noHash : (first.token == .delim '#') = false :=
    beq_eq_false_iff_ne.2 (other Token.noConfusion)
  have carries : CarriesOn (first.token == .delim '#') (cutStatement false rest).before := by
    rw [noHash]
    exact carriesOn_before false rest
  rw [split] at carries
  exact ⟨spaces,
    { dark := other Token.noConfusion
      noBrace := other Token.noConfusion
      carries := ⟨other Token.noConfusion, fun opens => absurd opens (other Token.noConfusion),
        carries⟩
      last := last_withoutTrailingSpace _
      blank := blank }, split, whole⟩

/-- What starts a statement other than an at-rule is its first piece. -/
theorem exists_stem {first : Piece} {rest : List Piece} (dark : first.token ≠ .whitespace)
    (noBrace : first.token ≠ .closing .curly)
    (written : (cutStatement false (first :: rest)).before ≠ []) :
    ∃ more spaces,
      withoutTrailingSpace (cutStatement false (first :: rest)).before = first :: more ∧
      IsStem first more spaces ∧
      (cutStatement false (first :: rest)).before = first :: (more ++ spaces) ∧
      first :: more ++ spaces ++ (cutStatement false (first :: rest)).ending.pieces ++
        (cutStatement false (first :: rest)).rest = first :: rest := by
  obtain ⟨spaces, blank, split, whole⟩ := exists_spaces (first :: rest)
  obtain ⟨more, kept⟩ := exists_parts dark written
  have carries := carriesOn_before false (first :: rest)
  have last := last_withoutTrailingSpace (cutStatement false (first :: rest)).before
  rw [kept] at last
  rw [kept] at split whole
  rw [split] at carries
  refine ⟨more, spaces, kept, ⟨dark, noBrace, carries, fun piece member => last piece ?_, blank⟩,
    split, whole⟩
  rw [List.getLast?_cons, Option.mem_def.1 member]
  rfl

/-- Where nothing stands in front of a block, the block is the first piece. -/
theorem bare_cutStatement {first block : Piece} {rest : List Piece}
    (dark : first.token ≠ .whitespace)
    (noParts : (withoutTrailingSpace (cutStatement false (first :: rest)).before).isEmpty = true)
    (ends : (cutStatement false (first :: rest)).ending = .block block) :
    first.token = .opening .curly ∧ (cutStatement false (first :: rest)).rest = rest := by
  have whole := cutStatement_append false (first :: rest)
  rw [before_eq_nil dark (List.isEmpty_iff.1 noParts), ends] at whole
  obtain ⟨same, others⟩ := List.cons.inj whole
  have opens := (isBlockBehind_cutStatement ends).1.1
  rw [same] at opens
  exact ⟨opens, others⟩

/-- A statement with a block that is not empty. -/
theorem Sections.ofBlock {first block : Piece} {more spaces rest : List Piece}
    {statement : Statement} {opened : Bool} {inside outline : Outline}
    (made : blockStatement (bareText (first :: more)) block = (statement, opened))
    (stem : IsStem first more spaces) (isBlock : IsBlockBehind (first :: (more ++ spaces)) block)
    (inner : Sections block.body.pieces inside) (sections : Sections rest outline) :
    Sections (first :: (more ++ spaces ++ [block]) ++ rest)
      (node statement (extent first (more ++ spaces ++ [block])) (if opened then inside else nil)
        outline) := by
  unfold blockStatement at made
  split at made
  · rename_i declaresNone
    obtain ⟨rfl, rfl⟩ := Prod.mk.inj made
    refine .block stem (.rule fun property value declares => ?_) isBlock inner sections
    rw [declaresNone] at declares
    exact absurd declares.symm (Option.some_ne_none _)
  · rename_i property value declares
    split at made
    · rename_i custom
      obtain ⟨rfl, rfl⟩ := Prod.mk.inj made
      exact .lone (.custom stem isBlock declares custom) sections
    · rename_i noCustom
      split at made
      · rename_i noValue
        obtain ⟨rfl, rfl⟩ := Prod.mk.inj made
        rw [List.isEmpty_iff.1 noValue] at declares
        exact .block stem (.nested declares (Bool.eq_false_iff.2 noCustom)) isBlock inner sections
      · rename_i someValue
        obtain ⟨rfl, rfl⟩ := Prod.mk.inj made
        refine .block stem (.rule fun property' value' declares' => ?_) isBlock inner sections
        rw [declares] at declares'
        obtain ⟨rfl, rfl⟩ := Prod.mk.inj (Option.some.inj declares')
        exact ⟨Bool.eq_false_iff.2 noCustom, fun empty => someValue (List.isEmpty_iff.2 empty)⟩

/-- **Pieces divide into the statements of their outline, each up to its end.** -/
theorem sections_ofPieces (pieces : List Piece) : Sections pieces (ofPieces pieces) := by
  fun_induction ofPieces pieces with
  | case1 => exact .done
  | case2 piece rest blank ih => exact .gap (isGap_of_space blank) ih
  | case3 piece rest semicolon ih => exact .gap (by simp [isGap, semicolon]) ih
  | case4 piece rest start closes ih => exact .stray closes ih
  | case5 piece rest start name named cut parts params block ending inner later =>
      obtain ⟨spaces, stem, split,
        (whole : parts ++ spaces ++ cut.ending.pieces ++ cut.rest = rest)⟩ :=
        exists_atStem named rest
      have isBlock : IsBlockBehind (piece :: (parts ++ spaces)) block := by
        have behind := (isBlockBehind_cutStatement ending).1
        rw [split] at behind
        refine isBlockBehind_cons behind fun _ glued => ?_
        rw [named] at glued
        exact Token.noConfusion glued
      have sections := Sections.block stem (.atRule named) isBlock inner later
      rw [extent, stopFrom_concat] at sections
      rw [ending] at whole
      rw [← whole]
      exact sections
  | case6 piece rest start name named cut parts params noBlock later =>
      obtain ⟨spaces, stem, _, (whole : parts ++ spaces ++ cut.ending.pieces ++ cut.rest = rest)⟩ :=
        exists_atStem named rest
      have sections := Sections.lone (.atRule named stem (isEnding_cutStatement noBlock)) later
      rw [← List.append_assoc, ← List.append_assoc, List.cons_append, List.cons_append,
        List.cons_append, whole] at sections
      exact sections
  | case7 piece rest start cut parts block ending noParts noSpace _ _ _ later =>
      obtain ⟨opens, (behind : cut.rest = rest)⟩ := bare_cutStatement noSpace noParts ending
      rw [behind] at later ⊢
      exact .bare opens later
  | case8 piece rest start cut parts text block ending someParts statement opened made noSpace _
      noBrace _ inner later =>
      have written : cut.before ≠ [] := fun noBefore =>
        someParts (List.isEmpty_iff.2 (congrArg withoutTrailingSpace noBefore))
      obtain ⟨more, spaces, (kept : parts = piece :: more), stem, split,
        (whole : piece :: more ++ spaces ++ cut.ending.pieces ++ cut.rest = _)⟩ :=
        exists_stem noSpace noBrace written
      have isBlock : IsBlockBehind (piece :: (more ++ spaces)) block := by
        rw [← split]
        exact (isBlockBehind_cutStatement ending).1
      rw [ending] at whole
      rw [show text = bareText (piece :: more) from congrArg bareText kept] at made
      have sections := Sections.ofBlock made stem isBlock inner later
      rw [extent, stopFrom_concat] at sections
      rw [← whole]
      exact sections
  | case9 piece rest start cut parts text property value declares noSpace noSemicolon noBrace _
      noBlock later =>
      obtain ⟨more, spaces, (kept : parts = piece :: more), stem, _,
        (whole : piece :: more ++ spaces ++ cut.ending.pieces ++ cut.rest = _)⟩ :=
        exists_stem noSpace noBrace (before_ne_nil noSemicolon noBlock)
      rw [show text = bareText (piece :: more) from congrArg bareText kept] at declares
      have sections :=
        Sections.lone (.declaration stem (isEnding_cutStatement noBlock) declares) later
      rw [← List.append_assoc, ← List.append_assoc, whole] at sections
      rw [kept, stopFrom_cons]
      exact sections
  | case10 piece rest start cut parts text noDeclaration noSpace noSemicolon noBrace _ noBlock
      later =>
      obtain ⟨more, spaces, (kept : parts = piece :: more), stem, _,
        (whole : piece :: more ++ spaces ++ cut.ending.pieces ++ cut.rest = _)⟩ :=
        exists_stem noSpace noBrace (before_ne_nil noSemicolon noBlock)
      have same : text = bareText (piece :: more) := congrArg bareText kept
      rw [same] at noDeclaration ⊢
      have sections :=
        Sections.unknown stem (isEnding_cutStatement noBlock) noDeclaration later
      rw [← List.append_assoc, ← List.append_assoc, whole] at sections
      exact sections

/-! ### What the sections are -/

section Parts

variable {first : Piece} {more spaces taken ending behind rest : List Piece} {statement : Statement}

theorem IsEnding.isGap (ends : IsEnding ending rest) : ∀ piece ∈ ending, isGap piece = true := by
  cases ends with
  | semicolon ends => exact List.forall_mem_singleton.2 (by simp [Outline.isGap, ends])
  | nothing => exact List.forall_mem_nil _

/-- What is read behind a statement stands between statements. -/
theorem IsEnding.isBetween (ends : IsEnding ending rest) (some : rest ≠ []) (front : List Piece) :
    IsBetween (front ++ ending) := by
  cases ends with
  | semicolon ends => exact .semicolon ends
  | nothing => exact absurd rfl some

theorem IsStem.isGap (stem : IsStem first more spaces) (ends : IsEnding ending rest) :
    ∀ piece ∈ spaces ++ ending, Outline.isGap piece = true :=
  List.forall_mem_append.2
    ⟨fun piece member => isGap_of_space (stem.blank piece member), ends.isGap⟩

theorem IsLone.isGap (lone : IsLone first taken behind rest statement) :
    ∀ piece ∈ behind, Outline.isGap piece = true := by
  cases lone with
  | atRule _ stem ends => exact stem.isGap ends
  | declaration stem ends _ => exact stem.isGap ends
  | custom _ _ _ _ => exact List.forall_mem_nil _

theorem IsLone.isLine (lone : IsLone first taken behind rest statement) :
    IsLine first taken statement := by
  cases lone with
  | atRule named _ _ => exact .atRule named
  | declaration stem _ declares =>
      have carries := stem.carries
      rw [← List.cons_append] at carries
      exact .declaration carries.append_left declares
  | custom _ isBlock declares custom => exact .custom isBlock.1 declares custom

theorem IsLone.exists_stem (lone : IsLone first taken behind rest statement) :
    ∃ more spaces, IsStem first more spaces := by
  cases lone with
  | atRule _ stem _ => exact ⟨_, _, stem⟩
  | declaration stem _ _ => exact ⟨_, _, stem⟩
  | custom stem _ _ _ => exact ⟨_, _, stem⟩

/-- Within a statement nothing stands between statements. -/
theorem IsStem.not_isBetween {front back : List Piece} {piece : Piece}
    (stem : IsStem first more spaces) (split : first :: (more ++ spaces) = front ++ piece :: back)
    (some : front ≠ []) : ¬ IsBetween front := by
  obtain ⟨head, front, rfl⟩ := List.exists_cons_of_ne_nil some
  obtain rfl := (List.cons.inj split).1
  have carries := stem.carries
  rw [split] at carries
  exact carries.append_left.not_isBetween stem.dark stem.noBrace

theorem IsLone.isBetween (lone : IsLone first taken behind rest statement) (some : rest ≠ []) :
    IsBetween (first :: taken ++ behind) := by
  cases lone with
  | atRule _ _ ends | declaration _ ends _ =>
      rw [← List.append_assoc]
      exact ends.isBetween some _
  | custom _ isBlock _ _ =>
      rw [List.append_nil]
      exact .block isBlock

end Parts

theorem Sections.divides {pieces : List Piece} {outline : Outline}
    (sections : Sections pieces outline) : Divides pieces outline := by
  induction sections with
  | done => exact .done
  | gap isGap _ ih => exact .gap isGap ih
  | stray closes _ ih => exact .skipped (.stray closes) ih
  | bare opens _ ih => exact .skipped (.bare opens) ih
  | unknown stem ends noDeclaration _ ih =>
      exact .skipped (.unknown noDeclaration) (.gaps (stem.isGap ends) ih)
  | lone lone _ ih => exact .line lone.isLine (.gaps lone.isGap ih)
  | block _ header isBlock _ _ inner later => exact .block header isBlock inner later

/-- **Pieces divide into the statements of their outline.** -/
theorem divides_ofPieces (pieces : List Piece) : Divides pieces (ofPieces pieces) :=
  (sections_ofPieces pieces).divides

end Outline

end ScssLint
