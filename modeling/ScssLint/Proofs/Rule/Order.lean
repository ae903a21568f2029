import ScssLint.Proofs.Comment.Overwriting
import ScssLint.Proofs.Rule.Findings
import ScssLint.Proofs.Selector.Order

/-! # The order of the findings in a text

Every rule finds at most one thing at an offset and finds things in the order of the text
(`Rule.climbs_findings`). What is said of a rule is said inside its selector, which ends in front of
its block, so it is said in front of what is said of the statements inside.
-/

namespace ScssLint

open Css

namespace Comment.Scanner

/-- Line comments start one behind the other. -/
theorem climbs_lines (scanner : Scanner) (outside : scanner.mode.isLine = false) :
    Climbs scanner.offset (scanner.offset + Text.bytes scanner.rest)
      (scanner.lines.map (·.span.start)) := by
  induction scanner, outside using induct_steps with
  | ended scanner outside ended =>
      rw [lines_nil outside ended]
      exact .nil _ _
  | step scanner c rest outside ahead stays ih =>
      have whole := congrArg Text.bytes (List.take_append_drop (scanner.react c rest).more rest)
      rw [Text.bytes_append] at whole
      rw [lines_step outside ahead, ahead, Text.bytes_cons, ← whole]
      refine ih.mono ?_ ?_
      all_goals
        simp only [after, offset, Text.bytes_append, Text.bytes_cons, Text.bytes_reverse]
        omega
  | line blocks before line rest flag whole ih =>
      have slash : '/'.utf8Size = 1 := rfl
      rw [lines_line whole, List.map_cons]
      refine (ih.mono ?_ ?_).cons (Nat.le_refl _) ?_
      all_goals
        simp only [ofLine, offset, Text.bytes_append, Text.bytes_cons, Text.bytes_reverse, slash]
        omega
  | lastLine blocks before line flag whole =>
      have slash : '/'.utf8Size = 1 := rfl
      rw [lines_lastLine whole, List.map_singleton]
      refine .singleton (Nat.le_refl _) ?_
      simp only [ofLine, offset, Text.bytes_cons, slash]
      omega

end Comment.Scanner

/-- Whether a statement is spoken of at its start or, if it is a rule, inside its selector. -/
def Remark.IsLocal (remark : Remark) : Prop :=
  ∀ enclosing? isTop statement start,
    Climbs start (start + max 1 (Text.bytes (statement.selector?.getD [])))
      ((remark enclosing? isTop statement start).map (·.offset))

namespace Outline

variable {text : Text} {remark : Remark}

/-- What a header says of its statement stands in front of the block. -/
theorem IsHeader.width_le {first : Piece} {more : List Piece} {statement : Statement}
    {low high : Nat} (header : IsHeader first more statement)
    (stands : Stands text low ((first :: more).flatMap Piece.lexemes) high) :
    first.head.start + max 1 (Text.bytes (statement.selector?.getD [])) ≤ high := by
  obtain ⟨_, _, own⟩ := stands_extent stands
  have before := (start_lt stands).2
  have length := own.high_eq
  rw [spelling_passage] at length
  cases header with
  | rule _ =>
      change _ + max 1 (Text.bytes (bareText (first :: more))) ≤ _
      omega
  | atRule _ | nested _ _ =>
      change _ + max 1 (Text.bytes []) ≤ _
      rw [Text.bytes_nil]
      omega

/-- **Statements are spoken of in the order of the text.** -/
theorem Divides.climbs_remarks (isLocal : remark.IsLocal) {pieces : List Piece} {outline : Outline}
    (divides : Divides pieces outline) {low high : Nat} (placed : ArePlaced text low pieces high)
    (enclosing? : Option Text) (isTop : Bool) :
    Climbs low high ((outline.remarks remark enclosing? isTop).map (·.offset)) := by
  induction divides generalizing low high enclosing? isTop with
  | done => exact .nil low high
  | @gap piece rest _ _ _ ih =>
      obtain ⟨mid, own, others⟩ := placed.split [piece]
      exact (ih others enclosing? isTop).mono own.stands.low_le_high (Nat.le_refl _)
  | @skipped first more rest _ _ _ _ ih =>
      obtain ⟨mid, own, others⟩ := placed.split (first :: more)
      exact (ih others enclosing? isTop).mono own.stands.low_le_high (Nat.le_refl _)
  | @line first more rest statement _ line _ ih =>
      obtain ⟨mid, own, others⟩ := placed.split (first :: more)
      obtain ⟨behind, before⟩ := start_lt own.stands
      have noSelector : statement.selector? = none := by cases line <;> rfl
      have said := isLocal enclosing? isTop statement first.head.start
      rw [noSelector] at said
      rw [remarks, remarks, List.append_nil, List.map_append]
      refine (said.mono behind ?_).append (ih others enclosing? isTop) own.stands.low_le_high
        others.stands.low_le_high
      exact before
  | @block first block more spaces rest statement _ _ header isBlock _ _ inner later =>
      obtain ⟨stop, own, others⟩ := placed.split (first :: (more ++ spaces ++ [block]))
      obtain ⟨mid, front, body⟩ := own.split (first :: (more ++ spaces))
      obtain ⟨behindHeader, head, gap⟩ := front.split (first :: more)
      obtain ⟨behind, _⟩ := start_lt head.stands
      obtain ⟨start, stop', above, below, inside⟩ := SelectorList.exists_body body
      have said := isLocal enclosing? isTop statement first.head.start
      have width := header.width_le head.stands
      have apart := gap.stands.low_le_high
      rw [remarks, List.map_append, List.map_append]
      have atHeader : Climbs low mid _ := said.mono behind (by omega)
      have inBlock := (inner inside (statement.selector? <|> enclosing?) false).mono above below
      have whole := atHeader.append inBlock front.stands.low_le_high body.stands.low_le_high
      exact whole.append (later others enclosing? isTop) own.stands.low_le_high
        others.stands.low_le_high

theorem climbs_remarks_ofText (isLocal : remark.IsLocal) (source : Text) :
    Climbs 0 (Text.bytes source) (((ofText source).remarks remark none true).map (·.offset)) := by
  obtain ⟨mid, less, pieces⟩ :=
    arePlaced_pieces (Forest.stands_ofText (blankLineComments source)) (Forest.isSound_ofText _)
  rw [Comment.bytes_blankLineComments] at less
  exact ((divides_ofPieces _).climbs_remarks isLocal pieces none true).mono (Nat.le_refl _) less

end Outline

theorem DollarVariableDefault.isLocal_remark (ignoreLocal : Bool) :
    (remark ignoreLocal).IsLocal := by
  intro _ isTop statement start
  unfold remark
  split
  · split
    · exact .singleton (Nat.le_refl _) (by dsimp only; omega)
    · exact .nil _ _
  · exact .nil _ _

namespace SelectorNoUnionClassName

/-- A rule is spoken of at its start or at the references of its selector. -/
theorem climbs_ruleRemark (start : Nat) (enclosing selector : Text) :
    Climbs start (start + max 1 (Text.bytes selector))
      ((ruleRemark start enclosing selector).map (·.offset)) := by
  have atStart : Climbs start (start + max 1 (Text.bytes selector)) [start] :=
    .singleton (Nat.le_refl _) (by omega)
  unfold ruleRemark
  split
  · exact atStart
  · split
    · exact atStart
    · rename_i list read
      have walked := (SelectorList.climbs_walk read).shift start
      rw [List.map_map] at walked ⊢
      refine (walked.mono (Nat.le_refl _) (by omega)).sublist (List.Sublist.map _ ?_)
      exact List.filter_sublist.trans List.filter_sublist

theorem isLocal_remark : Remark.IsLocal remark := by
  intro enclosing? _ statement start
  unfold remark
  split
  · rename_i selector enclosing isSelector
    rw [isSelector]
    split
    · exact climbs_ruleRemark start enclosing selector
    · exact .nil _ _
  · exact .nil _ _

end SelectorNoUnionClassName

/-- A line comment is spoken of at its start, if at all. -/
theorem DoubleSlashCommentInline.sublist_remarks (expectation : Expectation)
    (ignoreCommands : Bool) (comments : List Comment) :
    ((comments.filterMap (remark? expectation ignoreCommands)).map (·.offset)).Sublist
      (comments.map (·.span.start)) := by
  induction comments with
  | nil => exact List.Sublist.slnil
  | cons comment comments ih =>
      cases said : remark? expectation ignoreCommands comment with
      | none =>
          rw [List.filterMap_cons_none said]
          exact ih.cons _
      | some finding =>
          have place : finding.offset = comment.span.start := by
            unfold remark? at said
            split at said
            · exact absurd said.symm (Option.some_ne_none _)
            · obtain ⟨_, _, rfl⟩ := Option.map_eq_some_iff.1 said
              rfl
          rw [List.filterMap_cons_some said, List.map_cons, List.map_cons, place]
          exact ih.cons_cons _

namespace Rule

/-- **A rule finds at most one thing at an offset**, in the order of the offsets. -/
theorem climbs_findings (rule : Rule) (text : Text) :
    Climbs 0 (Text.bytes text) ((rule.findings text).map (·.offset)) := by
  cases rule with
  | dollarVariableDefault ignoreLocal =>
      exact Outline.climbs_remarks_ofText (DollarVariableDefault.isLocal_remark ignoreLocal) text
  | selectorNoUnionClassName =>
      exact Outline.climbs_remarks_ofText SelectorNoUnionClassName.isLocal_remark text
  | doubleSlashCommentInline expectation ignoreCommands =>
      have lines := Comment.Scanner.climbs_lines (.ofText true text) rfl
      rw [← Comment.lineComments_eq_lines, Comment.Scanner.offset] at lines
      exact (lines.mono (Nat.le_refl _) (Nat.le_of_eq (Nat.zero_add _))).sublist
        (DoubleSlashCommentInline.sublist_remarks expectation ignoreCommands _)

end Rule

end ScssLint
