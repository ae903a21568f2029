import Mathlib.Data.List.Basic
import ScssLint.Linter
import ScssLint.Proofs.Stylesheet.Spans

/-! # What rules find in a text

A rule reports what it finds in the text of a stylesheet, moved to where the stylesheet stands in
its file (`Rule.check_ofRoot`). Two of the rules remark on one statement at a time and know, of the
statements around it, the selector of the closest rule and whether there are any
(`Stylesheet.remarks_ofText`).
-/

namespace ScssLint

/-- What is found at an offset of a text. -/
structure Finding where
  rule : String
  message : String
  severity : Severity
  offset : Nat
deriving DecidableEq, Repr

namespace Finding

/-- The same finding in a text with `distance` more bytes in front. -/
def shift (distance : Nat) (finding : Finding) : Finding :=
  { finding with offset := distance + finding.offset }

theorem shift_zero (finding : Finding) : finding.shift 0 = finding := by
  rw [shift, Nat.zero_add]

end Finding

/-- A diagnostic without the file, the line and the column. -/
def Diagnostic.finding (diagnostic : Diagnostic) : Finding :=
  ⟨diagnostic.rule, diagnostic.message, diagnostic.severity, diagnostic.location.offset⟩

namespace Site

/-- What is found in the stylesheet of a site, at its place in the file. -/
def report (site : Site) (finding : Finding) : Diagnostic :=
  ⟨finding.rule, finding.message, finding.severity, site.locate finding.offset⟩

end Site

/-- What is said of a statement, given the selector of the closest rule around it, whether it stands
outside of all others, and its offset. -/
abbrev Remark := Option Text → Bool → Statement → Nat → List Finding

/-- What is said of the statements of an outline. -/
def Outline.remarks (remark : Remark) (enclosing? : Option Text) (isTop : Bool) :
    Outline → List Finding
  | nil => []
  | node statement span inside rest =>
      remark enclosing? isTop statement span.start ++
        inside.remarks remark (statement.selector? <|> enclosing?) false ++
          rest.remarks remark enclosing? isTop
  | warning _ rest => rest.remarks remark enclosing? isTop

theorem Outline.of_mem_remarks {remark : Remark} {good : Finding → Prop}
    (each : ∀ enclosing? isTop statement start,
      ∀ finding ∈ remark enclosing? isTop statement start, good finding)
    {outline : Outline} {enclosing? : Option Text} {isTop : Bool} :
    ∀ finding ∈ outline.remarks remark enclosing? isTop, good finding := by
  induction outline generalizing enclosing? isTop with
  | nil => exact List.forall_mem_nil _
  | node statement span inside rest inner later =>
      rw [remarks, List.forall_mem_append, List.forall_mem_append]
      exact ⟨⟨each enclosing? isTop statement span.start, inner⟩, later⟩
  | warning _ rest later => exact later

namespace Stylesheet

/-- What is said of the statements of a tree. -/
def remarks (sheet : Stylesheet) (remark : Remark) : List Finding :=
  sheet.descendants.flatMap fun id =>
    (sheet.get? id).elim [] fun node =>
      remark (sheet.enclosingSelector? id) (sheet.parent id == .node 0) node.statement
        node.span.start

section Held

variable {sheet : Stylesheet} {above next : Nat} {outline : Outline}

/-- **Remarks on the nodes of an outline follow the outline.** -/
theorem Holds.remarks (holds : sheet.Holds above next outline) (inner : 0 < next)
    (remark : Remark) :
    ((List.range' next outline.count).flatMap fun id =>
      (sheet.get? id).elim [] fun node =>
        remark (sheet.enclosingSelector? id) (sheet.parent id == .node 0) node.statement
          node.span.start) =
      outline.remarks remark (sheet.closestSelector? above) (above == 0) := by
  induction outline generalizing above next with
  | nil => rfl
  | node statement span inside rest within later =>
      obtain ⟨own, below, behind⟩ := holds
      have up := parent_of_get? own
      have enclosing : sheet.enclosingSelector? next = sheet.closestSelector? above := by
        rw [enclosingSelector?, up]
      have isTop : (sheet.parent next == .node 0) = (above == 0) := by
        rw [up, Bool.eq_iff_iff, beq_iff_eq, beq_iff_eq, Parent.node.injEq]
      rw [Outline.count_node, Nat.add_assoc 1, Nat.add_comm 1, List.range'_succ, List.flatMap_cons,
        ← List.range'_append_1, List.flatMap_append, within below (Nat.succ_pos _),
        later behind (by omega), own, Option.elim_some, enclosing, isTop,
        closestSelector?_of_get? own, enclosing, beq_eq_false_iff_ne.2 (Nat.ne_of_gt inner),
        Outline.remarks, List.append_assoc]
  | warning _ rest later => exact later holds inner

theorem remarks_ofText (source : Text) (remark : Remark) :
    (ofText source).remarks remark = (Outline.ofText source).remarks remark none true := by
  have noSelector : (ofText source).closestSelector? 0 = none := by
    rw [closestSelector?_of_get? (root_ofText source), enclosingSelector?,
      parent_of_get? (root_ofText source)]
    rfl
  have held := (isLaidOut_ofText source).holds.remarks Nat.one_pos remark
  rw [noSelector] at held
  rw [remarks, descendants_ofText, held]
  rfl

/-- A choice among the descendants looks at each of them. -/
theorem flatMap_selectDescendants {α β : Type} (sheet : Stylesheet)
    (select? : Statement → Option α) (items : Nat × α → List β) :
    (sheet.selectDescendants select?).flatMap items =
      sheet.descendants.flatMap fun id =>
        (sheet.get? id).elim [] fun node =>
          (select? node.statement).elim [] fun found => items (id, found) := by
  rw [selectDescendants, List.filterMap_eq_flatMap_toList, List.flatMap_assoc]
  refine congrArg sheet.descendants.flatMap (funext fun id => ?_)
  cases sheet.get? id with
  | none => rfl
  | some node =>
      cases found : select? node.statement with
      | none => simp [found]
      | some found' => simp [found]

end Held

end Stylesheet

/-! ### Remarks of the rules -/

namespace DollarVariableDefault

/-- What is said of a variable without the flag. -/
def remark (ignoreLocal : Bool) : Remark := fun _ isTop statement start =>
  match statement with
  | .declaration property value =>
      if isVariable property && !(ignoreLocal && !isTop) && !hasFlag value then
        [⟨name, message property, .error, start⟩]
      else
        []
  | _ => []

theorem check_eq (ignoreLocal : Bool) (site : Site) :
    check ignoreLocal site = (site.sheet.remarks (remark ignoreLocal)).map site.report := by
  rw [check, Stylesheet.declarations, List.filterMap_eq_flatMap_toList,
    Stylesheet.flatMap_selectDescendants, Stylesheet.remarks, List.map_flatMap]
  refine congrArg site.sheet.descendants.flatMap (funext fun id => ?_)
  cases known : site.sheet.get? id with
  | none => rfl
  | some node =>
      obtain ⟨statement, span, parent, children⟩ := node
      cases statement with
      | declaration property value =>
          rw [Option.elim_some, Option.elim_some]
          change (if isMissing ignoreLocal site.sheet id property value then _ else none).toList =
            List.map site.report
              (if isMissing ignoreLocal site.sheet id property value then _ else [])
          by_cases missing : isMissing ignoreLocal site.sheet id property value = true
          · rw [if_pos missing, if_pos missing, known]
            rfl
          · rw [if_neg missing, if_neg missing]
            rfl
      | _ => rfl

end DollarVariableDefault

namespace SelectorNoUnionClassName

/-- What is said of a rule that starts at `start`. -/
def ruleRemark (start : Nat) (enclosing selector : Text) : List Finding :=
  match SelectorList.parse enclosing with
  | .error error => [⟨name, unreadable error, .warning, start⟩]
  | .ok parent =>
      match SelectorList.parse selector with
      | .error error => [⟨name, unreadable error, .warning, start⟩]
      | .ok list =>
          (parent.unionReferences list separateSuccessors).map fun ref =>
            ⟨name, message, .error, start + ref.offset⟩

/-- What is said of a rule inside another one that refers to it. -/
def remark : Remark := fun enclosing? _ statement start =>
  match statement.selector?, enclosing? with
  | some selector, some enclosing =>
      if '&' ∈ selector then ruleRemark start enclosing selector else []
  | _, _ => []

theorem checkRule_eq (site : Site) (start : Nat) (enclosing selector : Text) :
    checkRule site start enclosing selector =
      (ruleRemark start enclosing selector).map site.report := by
  unfold checkRule ruleRemark
  cases SelectorList.parse enclosing with
  | error error => rfl
  | ok parent =>
      cases SelectorList.parse selector with
      | error error => rfl
      | ok list =>
          dsimp only
          rw [List.map_map]
          rfl

theorem rule_of_mem_ruleRemark {start : Nat} {enclosing selector : Text} :
    ∀ finding ∈ ruleRemark start enclosing selector, finding.rule = name := by
  unfold ruleRemark
  split
  · exact List.forall_mem_singleton.2 rfl
  · split
    · exact List.forall_mem_singleton.2 rfl
    · exact List.forall_mem_map.2 fun _ _ => rfl

theorem check_eq (site : Site) :
    check site = (site.sheet.remarks remark).map site.report := by
  rw [check, Stylesheet.rules, Stylesheet.flatMap_selectDescendants, Stylesheet.remarks,
    List.map_flatMap]
  refine congrArg site.sheet.descendants.flatMap (funext fun id => ?_)
  cases known : site.sheet.get? id with
  | none => rfl
  | some node =>
      rw [Option.elim_some, Option.elim_some]
      unfold remark
      cases node.statement.selector? with
      | none => rfl
      | some selector =>
          rw [Option.elim_some]
          dsimp only
          cases site.sheet.enclosingSelector? id with
          | none =>
              rw [known]
              split <;> rfl
          | some enclosing =>
              rw [known]
              by_cases refers : '&' ∈ selector
              · simp only [refers, if_true]
                exact checkRule_eq site node.span.start enclosing selector
              · simp only [refers, if_false]
                rfl

end SelectorNoUnionClassName

namespace DoubleSlashCommentInline

/-- What is said of a line comment. -/
def remark? (expectation : Expectation) (ignoreCommands : Bool) (comment : Comment) :
    Option Finding :=
  if ignoreCommands && Text.startsWith commandStart comment.text then
    none
  else
    (problem? expectation comment.isInline).map fun message =>
      ⟨name, message, .error, comment.span.start⟩

theorem check_eq (expectation : Expectation) (ignoreCommands : Bool) (site : Site) :
    check expectation ignoreCommands site =
      ((Comment.lineComments site.root.text).filterMap
        (remark? expectation ignoreCommands)).map site.report := by
  rw [check, List.map_filterMap]
  refine List.filterMap_congr fun comment _ => ?_
  unfold remark?
  split
  · rfl
  · cases problem? expectation comment.isInline <;> rfl

end DoubleSlashCommentInline

namespace Rule

/-- What a rule finds in the text of a stylesheet. -/
def findings (rule : Rule) (text : Text) : List Finding :=
  match rule with
  | dollarVariableDefault ignoreLocal =>
      (Outline.ofText text).remarks (DollarVariableDefault.remark ignoreLocal) none true
  | doubleSlashCommentInline expectation ignoreCommands =>
      (Comment.lineComments text).filterMap
        (DoubleSlashCommentInline.remark? expectation ignoreCommands)
  | selectorNoUnionClassName =>
      (Outline.ofText text).remarks SelectorNoUnionClassName.remark none true

/-- A rule signs what it finds. -/
theorem rule_of_mem_findings {rule : Rule} {text : Text} :
    ∀ finding ∈ rule.findings text, finding.rule = rule.name := by
  cases rule with
  | dollarVariableDefault ignoreLocal =>
      refine Outline.of_mem_remarks fun _ isTop statement start finding said => ?_
      unfold DollarVariableDefault.remark at said
      split at said
      · split at said
        · rw [List.mem_singleton.1 said]
          rfl
        · exact absurd said List.not_mem_nil
      · exact absurd said List.not_mem_nil
  | doubleSlashCommentInline expectation ignoreCommands =>
      intro finding found
      obtain ⟨comment, _, said⟩ := List.mem_filterMap.1 found
      unfold DoubleSlashCommentInline.remark? at said
      split at said
      · exact absurd said.symm (Option.some_ne_none _)
      · obtain ⟨_, _, rfl⟩ := Option.map_eq_some_iff.1 said
        rfl
  | selectorNoUnionClassName =>
      refine Outline.of_mem_remarks fun enclosing? _ statement start finding said => ?_
      unfold SelectorNoUnionClassName.remark at said
      split at said
      · split at said
        · exact SelectorNoUnionClassName.rule_of_mem_ruleRemark finding said
        · exact absurd said List.not_mem_nil
      · exact absurd said List.not_mem_nil

/-- **What a rule reports depends on the text of the stylesheet alone**, up to its place. -/
theorem check_ofRoot (rule : Rule) (file : String) (source : Text) (root : Root) :
    rule.check (Site.ofRoot file source root) =
      (rule.findings root.text).map (Site.ofRoot file source root).report := by
  cases rule with
  | dollarVariableDefault ignoreLocal =>
      rw [check, DollarVariableDefault.check_eq, findings, ← Stylesheet.remarks_ofText]
      rfl
  | doubleSlashCommentInline expectation ignoreCommands =>
      exact DoubleSlashCommentInline.check_eq expectation ignoreCommands _
  | selectorNoUnionClassName =>
      rw [check, SelectorNoUnionClassName.check_eq, findings, ← Stylesheet.remarks_ofText]
      rfl

end Rule

end ScssLint
