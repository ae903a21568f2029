import ScssLint.Proofs.Linter.Markup
import ScssLint.Proofs.Rule.Flags
import ScssLint.Proofs.Stylesheet.Declarations
import ScssLint.Proofs.Stylesheet.Respelling

/-! # Block comments and variables

What the rule `scss/dollar-variable-default` says of a statement depends on how its text is split
into a property and a value, and a comment in the value matters by the flag in it alone
(`DollarVariableDefault.splitsLike_hollowed`). So with spaces in a block comment the rule reports
the same (`DollarVariableDefault.lintSource_hollow`), unless the comment is taken for a part of a
property or holds a flag (`DollarVariableDefault.lintSource_hollow_ne`).
-/

namespace ScssLint

open Css
open Comment (blockText)

namespace DollarVariableDefault

/-- Whether a comment makes no difference to a declaration that starts at `start` and holds it. If
the property is a variable or a custom property, the comment stands behind the colon, and if it is a
variable, no flag stands in the comment. -/
structure IsInert (source : Text) (comment : Comment) (property : Text) (start : Nat) : Prop where
  behindColon : isVariable property = true ∨ isCustomProperty property = true →
    ':' ∈ source.between start comment.span.start
  noFlag : isVariable property = true → hasFlag comment.text = false

/-- Whether a comment makes no difference to each declaration that holds it. -/
def IsInertIn (source : Text) (comment : Comment) (outline : Outline) : Prop :=
  ∀ property value span, (.declaration property value, span) ∈ outline.statements →
    span.start ≤ comment.span.start → comment.span.stop ≤ span.stop →
      IsInert source comment property span.start

section Remarks

open Outline

variable {ignoreLocal : Bool} {property value value' : Text}

/-- What is said of a declaration that starts at `start`, if there is one. -/
def said (ignoreLocal isTop : Bool) (start : Nat) : Option (Text × Text) → List Finding
  | some (property, value) => remark ignoreLocal none isTop (.declaration property value) start
  | none => []

/-- What is said of what stands in front of a block: only a property without a value is a
declaration there. -/
def saidOfBlock (ignoreLocal isTop : Bool) (start : Nat) : Option (Text × Text) → List Finding
  | some (property, []) => remark ignoreLocal none isTop (.declaration property []) start
  | _ => []

/-- Whether statements are read from the block behind a text. -/
def opensBlock : Option (Text × Text) → Bool
  | some (property, _) => !isCustomProperty property
  | none => true

theorem remark_congr (same : isVariable property = true → hasFlag value' = hasFlag value)
    (isTop : Bool) (start : Nat) :
    remark ignoreLocal none isTop (.declaration property value') start =
      remark ignoreLocal none isTop (.declaration property value) start := by
  simp only [remark]
  cases isVar : isVariable property with
  | false => rfl
  | true => rw [same isVar]

theorem remark_of_not_variable (other : isVariable property = false) (enclosing? : Option Text)
    (isTop : Bool) (start : Nat) :
    remark ignoreLocal enclosing? isTop (.declaration property value) start = [] := by
  simp only [remark, other]
  rfl

theorem not_variable_of_custom (custom : isCustomProperty property = true) :
    isVariable property = false := by
  obtain ⟨rest, rfl⟩ := List.isPrefixOf_iff_prefix.1 custom
  rfl

/-- The selectors around a variable do not matter. -/
theorem remarks_enclosing (outline : Outline) (enclosing? : Option Text) (isTop : Bool) :
    outline.remarks (remark ignoreLocal) enclosing? isTop =
      outline.remarks (remark ignoreLocal) none isTop := by
  induction outline generalizing enclosing? isTop with
  | nil => rfl
  | node statement span inside rest inner later =>
      have own : remark ignoreLocal enclosing? isTop statement span.start =
          remark ignoreLocal none isTop statement span.start := rfl
      rw [Outline.remarks, Outline.remarks, own, inner, later,
        inner (statement.selector? <|> none)]
  | warning found rest later => exact later enclosing? isTop

theorem remarks_ofLine (first : Piece) (more : List Piece) (rest : Outline) (isTop : Bool) :
    (ofLine first more rest).remarks (remark ignoreLocal) none isTop =
      said ignoreLocal isTop first.head.start (splitDeclaration? (bareText (first :: more))) ++
        rest.remarks (remark ignoreLocal) none isTop := by
  unfold ofLine said
  cases splitDeclaration? (bareText (first :: more)) with
  | none => rfl
  | some found => exact congrArg (· ++ _) (List.append_nil _)

theorem remarks_ofBlock (first : Piece) (more : List Piece) (block : Piece)
    (inside rest : Outline) (isTop : Bool) :
    (ofBlock first more block inside rest).remarks (remark ignoreLocal) none isTop =
      saidOfBlock ignoreLocal isTop first.head.start
          (splitDeclaration? (bareText (first :: more))) ++
        (if opensBlock (splitDeclaration? (bareText (first :: more))) then
          inside.remarks (remark ignoreLocal) none false else []) ++
        rest.remarks (remark ignoreLocal) none isTop := by
  unfold ofBlock blockStatement
  cases splitDeclaration? (bareText (first :: more)) with
  | none =>
      dsimp only
      rw [Outline.remarks, remarks_enclosing]
      rfl
  | some found =>
      obtain ⟨property, value⟩ := found
      cases custom : isCustomProperty property with
      | true =>
          have silent (value : Text) := @remark_of_not_variable ignoreLocal property value
            (not_variable_of_custom custom) none isTop first.head.start
          cases value <;> simp [custom, Outline.remarks, silent, saidOfBlock, opensBlock]
      | false =>
          have silent (selector : Text) :
            remark ignoreLocal none isTop (.rule selector) first.head.start = [] := rfl
          cases value <;>
            simp [custom, Outline.remarks, remarks_enclosing, silent, saidOfBlock, opensBlock]

end Remarks

section Hollowing

open Outline

variable {source body : Text} {comment : Comment} {low high start stop : Nat}

/-- The token with spaces in the comment. -/
def hollowed (comment : Comment) (count : Nat) : Lexeme → Lexeme :=
  .respell comment.span.start (blockText (List.replicate (count + 1) ' '))

/-- A flag stands beside a comment that holds none. -/
theorem hasFlag_hollowed (shown : comment.IsShown source body)
    (noFlag : hasFlag comment.text = false) (count : Nat) (middle behind : Text) :
    hasFlag (Text.trim (middle ++ (blockText (List.replicate count ' ') ++ behind))) =
      hasFlag (Text.trim (middle ++ (blockText body ++ behind))) := by
  rw [shown.text, hasFlag_trim] at noFlag
  rw [hasFlag_trim, hasFlag_trim, hasFlag_blockText, hasFlag_blockText, noFlag, hasFlag_spaces]

/-- How a statement from `start` to `stop` is split into a declaration with the text of the comment
and with spaces in place of it. -/
inductive SplitsLike (source : Text) (comment : Comment) (start stop : Nat) :
    Option (Text × Text) → Option (Text × Text) → Prop
  | same (split : Option (Text × Text)) : SplitsLike source comment start stop split split
  | inValue {property value value' : Text} : start ≤ comment.span.start → comment.span.stop ≤ stop →
      value ≠ [] → value' ≠ [] →
      (hasFlag comment.text = false → hasFlag value' = hasFlag value) →
      SplitsLike source comment start stop (some (property, value)) (some (property, value'))
  | inProperty {split : Option (Text × Text)} : start ≤ comment.span.start →
      comment.span.stop ≤ stop → ':' ∉ source.between start comment.span.start →
      SplitsLike source comment start stop split none

theorem splitsLike_hollowed {first : Piece} {more : List Piece}
    (shown : comment.IsShown source body)
    (stands : Stands source low ((first :: more).flatMap Piece.lexemes) high) (count : Nat) :
    SplitsLike source comment first.head.start high
      (splitDeclaration? (bareText (first :: more)))
      (splitDeclaration? (bareText ((first :: more).map (.map (hollowed comment count))))) := by
  rcases bareText_respelled shown stands (blockText (List.replicate (count + 1) ' ')) with
    unchanged | ⟨from', upTo, behind, old, new⟩
  · rw [hollowed, unchanged]
    exact .same _
  · rw [hollowed, old, new]
    by_cases colon : ':' ∈ source.between first.head.start comment.span.start
    · obtain ⟨property?, middle, split⟩ := exists_splitDeclaration?_blockText colon behind
      rw [split, split]
      cases property? with
      | none => exact .same none
      | some property =>
          exact .inValue from' upTo (trim_blockText_ne_nil middle body behind)
            (trim_blockText_ne_nil middle _ behind)
            fun noFlag => hasFlag_hollowed shown noFlag (count + 1) middle behind
    · rw [splitDeclaration?_spaces colon]
      exact .inProperty from' upTo colon

namespace SplitsLike

variable {split split' : Option (Text × Text)}
  (like : SplitsLike source comment start stop split split')

include like

theorem said_eq (inert : ∀ property value, split = some (property, value) →
      start ≤ comment.span.start → comment.span.stop ≤ stop → IsInert source comment property start)
    (ignoreLocal isTop : Bool) :
    said ignoreLocal isTop start split' = said ignoreLocal isTop start split := by
  cases like with
  | same => rfl
  | inValue from' upTo _ _ flags =>
      exact remark_congr (fun isVar => flags ((inert _ _ rfl from' upTo).noFlag isVar)) isTop start
  | inProperty from' upTo noColon =>
      cases split with
      | none => rfl
      | some found =>
          have other : isVariable found.1 = false := Bool.eq_false_iff.2 fun isVar =>
            noColon ((inert _ _ rfl from' upTo).behindColon (.inl isVar))
          exact (remark_of_not_variable other none isTop start).symm

theorem block_eq (inert : ∀ property value, split = some (property, value) →
      isCustomProperty property = true ∨ value = [] →
      start ≤ comment.span.start → comment.span.stop ≤ stop → IsInert source comment property start)
    (ignoreLocal isTop : Bool) :
    saidOfBlock ignoreLocal isTop start split' = saidOfBlock ignoreLocal isTop start split ∧
      opensBlock split' = opensBlock split := by
  cases like with
  | same => exact ⟨rfl, rfl⟩
  | @inValue property value value' _ _ written written' _ =>
      obtain ⟨c, value, rfl⟩ := List.exists_cons_of_ne_nil written
      obtain ⟨d, value', rfl⟩ := List.exists_cons_of_ne_nil written'
      exact ⟨rfl, rfl⟩
  | inProperty from' upTo noColon =>
      rcases split with _ | ⟨property, value⟩
      · exact ⟨rfl, rfl⟩
      have noCustom : isCustomProperty property = false := Bool.eq_false_iff.2 fun custom =>
        noColon ((inert _ _ rfl (.inl custom) from' upTo).behindColon (.inr custom))
      refine ⟨?_, by rw [opensBlock, opensBlock, noCustom]; rfl⟩
      cases value with
      | cons c value => rfl
      | nil =>
          have other : isVariable property = false := Bool.eq_false_iff.2 fun isVar =>
            noColon ((inert _ _ rfl (.inr rfl) from' upTo).behindColon (.inl isVar))
          exact (remark_of_not_variable other none isTop start).symm

end SplitsLike

theorem IsInertIn.mono {outline outline' : Outline} (inert : IsInertIn source comment outline)
    (part : outline'.statements ⊆ outline.statements) : IsInertIn source comment outline' :=
  fun property value span member => inert property value span (part member)

theorem statements_ofLine (first : Piece) (more : List Piece) (rest : Outline) :
    rest.statements ⊆ (ofLine first more rest).statements ∧ ∀ property value,
      splitDeclaration? (bareText (first :: more)) = some (property, value) →
        (.declaration property value, extent first more) ∈ (ofLine first more rest).statements := by
  unfold ofLine
  cases splitDeclaration? (bareText (first :: more)) with
  | none => exact ⟨fun _ member => member, fun _ _ none => absurd none.symm (Option.some_ne_none _)⟩
  | some found =>
      refine ⟨fun _ member => List.mem_cons_of_mem _ member, fun property value same => ?_⟩
      obtain rfl := Option.some.inj same
      exact List.mem_cons_self

theorem statements_ofBlock (first : Piece) (more : List Piece) (block : Piece)
    (inside rest : Outline) :
    rest.statements ⊆ (ofBlock first more block inside rest).statements ∧
      (opensBlock (splitDeclaration? (bareText (first :: more))) = true →
        inside.statements ⊆ (ofBlock first more block inside rest).statements) ∧
      ∀ property value, splitDeclaration? (bareText (first :: more)) = some (property, value) →
        isCustomProperty property = true ∨ value = [] → ∃ value',
          (.declaration property value', ⟨first.head.start, block.stop⟩) ∈
            (ofBlock first more block inside rest).statements := by
  unfold ofBlock blockStatement
  cases splitDeclaration? (bareText (first :: more)) with
  | none => simp [statements]
  | some found =>
      obtain ⟨property, value⟩ := found
      cases custom : isCustomProperty property with
      | true => simp [statements, custom, opensBlock]
      | false =>
        cases value with
        | nil => simp [statements, custom, opensBlock]
        | cons c value => simp [statements, custom, opensBlock]

/-- **What is said of the variables stays the same with spaces in a comment.** -/
theorem remarks_hollowed {pieces : List Piece} {outline outline' : Outline} {count : Nat}
    (shown : comment.IsShown source body)
    (both : ReadsBoth (hollowed comment count) pieces outline outline')
    (placed : ArePlaced source low pieces high) (inert : IsInertIn source comment outline)
    (ignoreLocal isTop : Bool) :
    outline'.remarks (remark ignoreLocal) none isTop =
      outline.remarks (remark ignoreLocal) none isTop := by
  induction both generalizing low high isTop with
  | done => rfl
  | @gap piece rest _ _ _ ih =>
      obtain ⟨mid, _, others⟩ := placed.split [piece]
      exact ih others inert isTop
  | @stray piece rest _ _ _ ih | @bare piece rest _ _ _ ih =>
      obtain ⟨mid, _, others⟩ := placed.split [piece]
      exact ih others inert isTop
  | @atRule name first more ending rest _ _ _ ih =>
      obtain ⟨mid, _, others⟩ := placed.split (first :: more ++ ending)
      exact ih others (inert.mono (List.subset_cons_self _ _)) isTop
  | @atBlock name first block more spaces rest _ _ _ _ opens _ _ inner later =>
      obtain ⟨_, _, _, _, _, _, within, others⟩ := placed.split_block opens
      have within := inner within
        (inert.mono (List.subset_cons_of_subset _ (List.subset_append_left _ _))) false
      have others := later others
        (inert.mono (List.subset_cons_of_subset _ (List.subset_append_right _ _))) isTop
      rw [ofAtBlock, ofAtBlock, Outline.remarks, Outline.remarks, remarks_enclosing,
        @remarks_enclosing ignoreLocal, within, others]
      rfl
  | @line first more ending rest outline _ _ ih =>
      obtain ⟨mid, parts, others⟩ := placed.split (first :: more ++ ending)
      obtain ⟨stop, own, _⟩ := parts.split (first :: more)
      obtain ⟨restIn, declared⟩ := statements_ofLine first more outline
      obtain ⟨_, extent, _⟩ := stands_extent own.stands
      rw [extent] at declared
      have same := (splitsLike_hollowed shown own.stands count).said_eq
        (fun property value split => inert property value _ (declared property value split))
        ignoreLocal isTop
      have start : (first.map (hollowed comment count)).head.start = first.head.start :=
        start_respell first.head
      rw [remarks_ofLine, remarks_ofLine, ih others (inert.mono restIn), ← List.map_cons, start,
        same]
  | @block first block more spaces rest inside _ outline _ opens _ _ inner later =>
      obtain ⟨stop, _, _, _, own, upTo, within, others⟩ := placed.split_block opens
      obtain ⟨restIn, insideIn, declared⟩ := statements_ofBlock first more block inside outline
      have inert' : ∀ property value, splitDeclaration? (bareText (first :: more)) =
          some (property, value) → isCustomProperty property = true ∨ value = [] →
          first.head.start ≤ comment.span.start → comment.span.stop ≤ stop →
            IsInert source comment property first.head.start := by
        intro property value split special from' upTo'
        obtain ⟨value', member⟩ := declared property value split special
        exact inert property value' _ member from' (Nat.le_trans upTo' upTo)
      obtain ⟨same, opened⟩ :=
        (splitsLike_hollowed shown own.stands count).block_eq inert' ignoreLocal isTop
      have start : (first.map (hollowed comment count)).head.start = first.head.start :=
        start_respell first.head
      rw [remarks_ofBlock, remarks_ofBlock, later others (inert.mono restIn), ← List.map_cons,
        start, same, opened]
      by_cases opensIt : opensBlock (splitDeclaration? (bareText (first :: more))) = true
      · rw [if_pos opensIt, if_pos opensIt, inner within (inert.mono (insideIn opensIt))]
      · rw [if_neg opensIt, if_neg opensIt]

end Hollowing

/-- **A comment that is read as one, that stands in no property and holds no flag of a variable, may
hold anything else.** -/
theorem findings_hollow {source : Text} {comment : Comment}
    (found : comment ∈ Comment.allComments source) (isBlock : comment.kind = .block)
    (read : ∃ lexeme ∈ lexemes (blankLineComments source), lexeme.start = comment.span.start)
    (inert : IsInertIn (blankLineComments source) comment (Outline.ofText source))
    (ignoreLocal : Bool) :
    (Rule.dollarVariableDefault ignoreLocal).findings (Comment.hollow source comment) =
      (Rule.dollarVariableDefault ignoreLocal).findings source := by
  obtain ⟨front, blanked, body, behind, isFound⟩ : ∃ front blanked body behind,
      Comment.IsFound .code [] source comment front blanked body behind :=
    Comment.Scanner.exists_isFound _ rfl rfl found isBlock
  obtain ⟨later, blanks⟩ := isFound.exists_blanked
  have start : comment.span.start = Text.bytes blanked := by
    rw [isFound.start, isFound.leads.bytes_eq rfl]
    exact Nat.zero_add _
  have noCloser := isFound.noCloser
  cases size : Text.bytes body with
  | zero =>
      obtain rfl : body = [] := by
        by_cases written : body = []
        · exact written
        · exact absurd size (Nat.ne_of_gt (Text.bytes_pos written))
      rw [isFound.hollow_eq, isFound.whole]
      rfl
  | succ count =>
      have noCloser' : ¬ ['*', '/'] <:+: List.replicate (count + 1) ' ' := fun inside =>
        notMem_spaces (by decide) (count + 1) (inside.subset List.mem_cons_self)
      have old := blanks body noCloser
      have new := blanks _ noCloser'
      rw [← isFound.whole] at old
      rw [← size, ← isFound.hollow_eq, size] at new
      rw [old, start] at read
      obtain ⟨respelled, only⟩ := lexemes_respelled read noCloser noCloser'
        ((Comment.Scanner.bytes_spaces _).trans size.symm)
      rw [← new, ← old, ← start] at respelled
      rw [← old, ← start] at only
      have shown : comment.IsShown (blankLineComments source) body :=
        ⟨isFound.text, isFound.stop, only⟩
      have both := Outline.readsBoth_ofText (keepsTokens_respell _ _) respelled
      obtain ⟨mid, _, placed⟩ := Outline.arePlaced_pieces
        (Forest.stands_ofText (blankLineComments source)) (Forest.isSound_ofText _)
      exact remarks_hollowed shown both placed inert ignoreLocal true

/-- **Block comments are inert**: with spaces in a comment the rule reports the same, as long as the
comment is read as one, stands in no property and holds no flag of a variable. -/
theorem lintSource_hollow (path : Path) (isSheet : path.dialect ≠ .markup) {source : Text}
    {comment : Comment} (found : comment ∈ Comment.allComments source)
    (isBlock : comment.kind = .block)
    (read : ∃ lexeme ∈ lexemes (blankLineComments source), lexeme.start = comment.span.start)
    (inert : IsInertIn (blankLineComments source) comment (Outline.ofText source))
    (ignoreLocal : Bool) :
    ((Linter.mk [.dollarVariableDefault ignoreLocal]).lintSource path
        (Comment.hollow source comment)).map Diagnostic.finding =
      ((Linter.mk [.dollarVariableDefault ignoreLocal]).lintSource path source).map
        Diagnostic.finding := by
  have single (text : Text) : (Linter.mk [.dollarVariableDefault ignoreLocal]).findings text =
      (Rule.dollarVariableDefault ignoreLocal).findings text := List.append_nil _
  rw [Linter.map_finding_sheet _ isSheet, Linter.map_finding_sheet _ isSheet, single, single,
    findings_hollow found isBlock read inert]

/-- A variable with its former value in a comment. -/
def formerValue : Text := "$a: /* was 2 */ 1; b \x7B $c: 3 \x7D".toList

/-- The comment in it. -/
def formerValueComment : Comment := ⟨.block, ⟨4, 15⟩, "was 2".toList, true, true⟩

theorem isInertIn_formerValue :
    IsInertIn (blankLineComments formerValue) formerValueComment (Outline.ofText formerValue) := by
  have declared : (Outline.ofText formerValue).statements =
      [(.declaration ['$', 'a'] "/* was 2 */ 1".toList, ⟨0, 17⟩), (.rule ['b'], ⟨19, 30⟩),
        (.declaration ['$', 'c'] ['3'], ⟨23, 28⟩)] := by
    decide +kernel
  intro property value span member from' upTo
  rw [declared] at member
  simp only [List.mem_cons, Prod.mk.injEq, Statement.declaration.injEq, reduceCtorEq, false_and,
    List.not_mem_nil, or_false, false_or] at member
  rcases member with ⟨⟨rfl, rfl⟩, rfl⟩ | ⟨_, rfl⟩
  · exact ⟨fun _ => by decide +kernel, fun _ => by decide +kernel⟩
  · exact absurd from' (by decide)

/-- The comment holds no flag. -/
theorem lintSource_hollow_formerValue :
    formerValueComment ∈ Comment.allComments formerValue ∧ formerValueComment.kind = .block ∧
      (∃ lexeme ∈ lexemes (blankLineComments formerValue),
        lexeme.start = formerValueComment.span.start) ∧
      IsInertIn (blankLineComments formerValue) formerValueComment (Outline.ofText formerValue) ∧
      ((Linter.mk [.dollarVariableDefault false]).lintSource ⟨"a.scss"⟩
          (Comment.hollow formerValue formerValueComment)).map Diagnostic.finding =
        ((Linter.mk [.dollarVariableDefault false]).lintSource ⟨"a.scss"⟩ formerValue).map
          Diagnostic.finding := by
  have found : formerValueComment ∈ Comment.allComments formerValue := by decide +kernel
  have read : ∃ lexeme ∈ lexemes (blankLineComments formerValue),
      lexeme.start = formerValueComment.span.start := by
    decide +kernel
  exact ⟨found, rfl, read, isInertIn_formerValue, lintSource_hollow ⟨"a.scss"⟩ (by decide +kernel)
    found rfl read isInertIn_formerValue false⟩

/-- A flag in a comment counts as a flag. -/
theorem lintSource_hollow_ne :
    ¬ ∀ (source : Text), ∀ comment ∈ Comment.allComments source, comment.kind = .block →
      ∀ ignoreLocal,
        ((Linter.mk [.dollarVariableDefault ignoreLocal]).lintSource ⟨"a.scss"⟩
            (Comment.hollow source comment)).map Diagnostic.finding =
          ((Linter.mk [.dollarVariableDefault ignoreLocal]).lintSource ⟨"a.scss"⟩ source).map
            Diagnostic.finding := by
  intro inert
  have same := inert "$a: /* !default */ 1;".toList
    ⟨.block, ⟨4, 18⟩, "!default".toList, true, true⟩ (by decide +kernel) rfl false
  exact absurd same (by decide +kernel)

end DollarVariableDefault

end ScssLint
