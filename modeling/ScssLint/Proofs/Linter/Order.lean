import Mathlib.Data.List.Perm.Basic
import ScssLint.Proofs.Linter.Sorting
import ScssLint.Proofs.Rule.Order
import ScssLint.Proofs.Source.Roots

/-! # The order of a linter's diagnostics

A linter gives its diagnostics in the order of their offsets. Each rule finds at most one thing at
an offset, so the diagnostics of a rule are told apart by their offsets, and their order does not
depend on the order of the rules (`Linter.inOrder_lintSource`).
-/

namespace ScssLint

namespace Diagnostic

/-- Whether diagnostics stand in the order of their offsets, and no two of a rule at one offset. -/
def InOrder (diagnostics : List Diagnostic) : Prop :=
  diagnostics.Pairwise fun first second =>
    first.location.offset ≤ second.location.offset ∧
      (first.rule, first.location.offset) ≠ (second.rule, second.location.offset)

/-- Whether two lists hold the same diagnostics, those of each rule in the same order, and differ
only in the order of diagnostics at the same offset. -/
structure AgreeByRule (diagnostics others : List Diagnostic) : Prop where
  perm : diagnostics.Perm others
  filter : ∀ name, diagnostics.filter (·.rule = name) = others.filter (·.rule = name)
  offsets : diagnostics.map (·.location.offset) = others.map (·.location.offset)

variable {diagnostics others : List Diagnostic}

/-- The diagnostics of one rule stand at ascending offsets. -/
theorem InOrder.pairwise_filter (inOrder : InOrder diagnostics) (name : String) :
    (diagnostics.filter (·.rule = name)).Pairwise fun first second =>
      first.location.offset < second.location.offset := by
  refine (List.Pairwise.filter _ inOrder).imp_of_mem fun {first second} member member' apart => ?_
  have own := of_decide_eq_true (List.mem_filter.1 member).2
  have own' := of_decide_eq_true (List.mem_filter.1 member').2
  refine Nat.lt_of_le_of_ne apart.1 fun same => apart.2 ?_
  rw [own, own', same]

/-- **Diagnostics in order are told by what they are**, up to rules at the same offset. -/
theorem InOrder.agreeByRule (inOrder : InOrder diagnostics) (inOrder' : InOrder others)
    (perm : diagnostics.Perm others) : AgreeByRule diagnostics others := by
  refine ⟨perm, fun name => ?_, ?_⟩
  · refine List.Perm.eq_of_pairwise (fun first second _ _ before behind => ?_)
      (inOrder.pairwise_filter name) (inOrder'.pairwise_filter name) (perm.filter _)
    exact absurd before (Nat.lt_asymm behind)
  · exact List.Perm.eq_of_pairwise (fun _ _ _ _ => Nat.le_antisymm)
      (List.pairwise_map.2 (inOrder.imp And.left)) (List.pairwise_map.2 (inOrder'.imp And.left))
      (perm.map _)

end Diagnostic

namespace Linter

/-- What a linter finds in the text of a stylesheet, rule by rule. -/
def findings (linter : Linter) (text : Text) : List Finding :=
  linter.rules.flatMap (·.findings text)

/-- What a linter finds in the stylesheets of a file, one after the other. -/
def reports (linter : Linter) (path : Path) (source : Text) : List Diagnostic :=
  (Root.ofSource source path.dialect).flatMap fun root =>
    (linter.findings root.text).map (Site.ofRoot path.spelling source root).report

/-- **A linter sorts what it finds in the stylesheets.** -/
theorem lintSource_eq (linter : Linter) (path : Path) (source : Text) :
    linter.lintSource path source = (linter.reports path source).mergeSort fun first second =>
      first.location.offset ≤ second.location.offset := by
  rw [lintSource, Site.ofSource, List.flatMap_map, reports]
  congr 2
  funext root
  rw [check, findings, List.map_flatMap]
  exact congrArg linter.rules.flatMap
    (funext fun rule => rule.check_ofRoot path.spelling source root)

/-- What is found stands in the text. -/
theorem offset_lt_of_mem_findings {linter : Linter} {text : Text} :
    ∀ finding ∈ linter.findings text, finding.offset < Text.bytes text := by
  intro finding found
  obtain ⟨rule, _, found⟩ := List.mem_flatMap.1 found
  exact ((rule.climbs_findings text).inside _ (List.mem_map_of_mem found)).2

/-- Rules with different names never find the same thing twice. -/
theorem pairwise_findings {linter : Linter} (distinct : (linter.rules.map Rule.name).Nodup)
    (text : Text) :
    (linter.findings text).Pairwise fun first second =>
      (first.rule, first.offset) ≠ (second.rule, second.offset) := by
  refine List.pairwise_flatMap.2 ⟨fun rule _ => ?_, ?_⟩
  · refine (List.pairwise_map.1 (rule.climbs_findings text).ascending).imp fun order same => ?_
    exact Nat.ne_of_lt order (Prod.mk.inj same).2
  · refine (List.pairwise_map.1 distinct).imp
      fun {rule other} apart first found second found' same =>
      apart ?_
    rw [← rule.rule_of_mem_findings first found, ← other.rule_of_mem_findings second found']
    exact (Prod.mk.inj same).1

theorem pairwise_reports {linter : Linter} (distinct : (linter.rules.map Rule.name).Nodup)
    (path : Path) (source : Text) :
    (linter.reports path source).Pairwise fun first second =>
      (first.rule, first.location.offset) ≠ (second.rule, second.location.offset) := by
  refine List.pairwise_flatMap.2 ⟨fun root _ => ?_, ?_⟩
  · refine List.pairwise_map.2 ((pairwise_findings distinct root.text).imp fun apart same => ?_)
    obtain ⟨sameRule, sameOffset⟩ := Prod.mk.inj same
    exact apart (Prod.ext sameRule (Nat.add_left_cancel sameOffset))
  · refine (Root.pairwise_ofSource source path.dialect).imp fun {root other} apart => ?_
    refine List.forall_mem_map.2 fun first found => List.forall_mem_map.2 fun second _ same => ?_
    have inside := offset_lt_of_mem_findings first found
    have place : root.offset + first.offset = other.offset + second.offset := (Prod.mk.inj same).2
    omega

/-- **A linter's diagnostics are in order, and the order of its rules does not matter** except at
one offset. -/
theorem inOrder_lintSource (linter : Linter) (distinct : (linter.rules.map Rule.name).Nodup)
    (path : Path) (source : Text) :
    Diagnostic.InOrder (linter.lintSource path source) ∧
      ∀ other : Linter, other.rules.Perm linter.rules →
        Diagnostic.AgreeByRule (other.lintSource path source) (linter.lintSource path source) := by
  have inOrder {linter : Linter} (distinct : (linter.rules.map Rule.name).Nodup) :
      Diagnostic.InOrder (linter.lintSource path source) := by
    rw [lintSource_eq]
    refine (KeyOrder.isAscending_mergeSort _ _).and
      ((List.mergeSort_perm _ _).symm.pairwise (pairwise_reports distinct path source) ?_)
    exact fun apart => apart.symm
  refine ⟨inOrder distinct, fun other permuted => ?_⟩
  refine (inOrder ((permuted.map Rule.name).nodup_iff.2 distinct)).agreeByRule (inOrder distinct) ?_
  rw [lintSource_eq, lintSource_eq]
  refine (List.mergeSort_perm _ _).trans (.trans ?_ (List.mergeSort_perm _ _).symm)
  exact List.Perm.flatMap_left _ fun root _ => (permuted.flatMap_right _).map _

/-- The rules for variables and for comments in either order. -/
theorem inOrder_lintSource_twoRules :
    let source : Text := "$a: 1; // b\n.c \x7B $d: 2 \x7D // e".toList
    let rules : List Rule := [.dollarVariableDefault false, .doubleSlashCommentInline .never true]
    (rules.map Rule.name).Nodup ∧
      Diagnostic.InOrder ((Linter.mk rules).lintSource ⟨"a.scss"⟩ source) ∧
      Diagnostic.AgreeByRule ((Linter.mk rules.reverse).lintSource ⟨"a.scss"⟩ source)
        ((Linter.mk rules).lintSource ⟨"a.scss"⟩ source) := by
  intro source rules
  have distinct : (rules.map Rule.name).Nodup := by decide
  obtain ⟨inOrder, agree⟩ := inOrder_lintSource ⟨rules⟩ distinct ⟨"a.scss"⟩ source
  exact ⟨distinct, inOrder, agree ⟨rules.reverse⟩ rules.reverse_perm⟩

end Linter

end ScssLint
