import ScssLint.Linter
import ScssLint.Proofs.Selector.Places
import ScssLint.Proofs.Source.Roots

/-! # Where union class names are reported

An error of the rule `scss/selector-no-union-class-name` is reported where the text of a reference
starts, and that text includes the comments in front of the ampersand. So the ampersand stands
behind these comments, and the reported offset is its own only if there are none
(`SelectorNoUnionClassName.ampersand_behind_comments`).
-/

namespace ScssLint

namespace Comment

theorem overwrites_blankLineComments (source : Text) :
    Overwrites 0 source (blankLineComments source)
      ((Scanner.ofText true source).lines.map (·.span)) := by
  rw [blankLineComments_eq_overwritten]
  exact Scanner.overwrites_lines (Scanner.ofText true source) rfl

/-- Blanking writes spaces only. -/
theorem utf8_of_blankLineComments {source : Text} {index : Nat} {b : UInt8}
    (found : (Text.utf8 (blankLineComments source))[index]? = some b) (dark : b ≠ 0x20) :
    (Text.utf8 source)[index]? = some b := by
  rw [overwrites_blankLineComments source index] at found
  split at found
  · exact absurd (Option.some.inj found).symm dark
  · exact found

end Comment

namespace Text

/-- The byte of an ASCII character behind another text. -/
theorem utf8_append_cons {before behind : Text} {c : Char} (ascii : isAscii c = true) :
    (utf8 (before ++ c :: behind))[bytes before]? = some c.toUInt8 := by
  rw [utf8_append, List.getElem?_append_right (Nat.le_of_eq (length_utf8 before)), length_utf8,
    Nat.sub_self, utf8_cons_of_ascii ascii]
  rfl

end Text

/-- The byte of a stylesheet in its file. -/
theorem Root.StandsIn.utf8 {source : Text} {root : Root} (stands : root.StandsIn 0 source)
    {index : Nat} {b : UInt8} (found : (Text.utf8 root.text)[index]? = some b) :
    (Text.utf8 source)[root.offset + index]? = some b := by
  obtain ⟨before, behind, rfl, place⟩ := stands
  have inside := (List.getElem?_eq_some_iff.1 found).1
  rw [place, Nat.zero_add, Text.utf8_append, Text.utf8_append, List.append_assoc,
    List.getElem?_append_right (by rw [Text.length_utf8]; omega), Text.length_utf8,
    Nat.add_sub_cancel_left, List.getElem?_append_left inside]
  exact found

namespace Linter

theorem mem_lintSource {linter : Linter} {path : Path} {source : Text} {found : Diagnostic}
    (member : found ∈ linter.lintSource path source) :
    ∃ rule ∈ linter.rules, ∃ root ∈ Root.ofSource source path.dialect,
      found ∈ rule.check (Site.ofRoot path.spelling source root) := by
  rw [lintSource, List.mem_mergeSort, List.mem_flatMap] at member
  obtain ⟨site, isSite, found⟩ := member
  obtain ⟨root, isRoot, rfl⟩ := List.mem_map.1 isSite
  obtain ⟨rule, isRule, found⟩ := List.mem_flatMap.1 found
  exact ⟨rule, isRule, root, isRoot, found⟩

end Linter

namespace SelectorNoUnionClassName

/-- No other rule bears this name. -/
theorem mem_check {rule : Rule} {site : Site} {found : Diagnostic}
    (member : found ∈ rule.check site) (own : found.rule = name) : found ∈ check site := by
  cases rule with
  | selectorNoUnionClassName => exact member
  | dollarVariableDefault ignoreLocal =>
      obtain ⟨⟨id, property, value⟩, _, found⟩ := List.mem_filterMap.1 member
      dsimp only at found
      split at found
      · obtain ⟨node, _, rfl⟩ := Option.map_eq_some_iff.1 found
        have other : DollarVariableDefault.name ≠ name := by decide
        exact absurd own other
      · exact absurd found.symm (Option.some_ne_none _)
  | doubleSlashCommentInline expectation ignoreCommands =>
      obtain ⟨comment, _, found⟩ := List.mem_filterMap.1 member
      split at found
      · exact absurd found.symm (Option.some_ne_none _)
      · obtain ⟨message, _, rfl⟩ := Option.map_eq_some_iff.1 found
        have other : DoubleSlashCommentInline.name ≠ name := by decide
        exact absurd own other

/-- An error is reported at a reference of a rule's selector. -/
theorem exists_reference {site : Site} {found : Diagnostic} (member : found ∈ check site)
    (severe : found.severity = .error) :
    ∃ id node selector list, (id, selector) ∈ site.sheet.rules ∧ site.sheet.get? id = some node ∧
      SelectorList.parse selector = .ok list ∧ ∃ ref ∈ list.nestingNodes,
        found.location.offset = site.root.offset + (node.span.start + ref.offset) := by
  obtain ⟨⟨id, selector⟩, isRule, found⟩ := List.mem_flatMap.1 member
  dsimp only at found
  split at found
  · split at found
    · rename_i node enclosing known _
      unfold checkRule at found
      split at found
      · rw [List.mem_singleton.1 found] at severe
        exact Severity.noConfusion severe
      · split at found
        · rw [List.mem_singleton.1 found] at severe
          exact Severity.noConfusion severe
        · rename_i parent _ list readList
          obtain ⟨ref, isUnion, rfl⟩ := List.mem_map.1 found
          exact ⟨id, node, selector, list, isRule, known, readList, ref,
            (List.mem_filter.1 isUnion).1, rfl⟩
    · exact absurd found List.not_mem_nil
  · exact absurd found List.not_mem_nil

/-- The selector of a rule stands in the blanked text where the rule starts. -/
theorem standsIn_of_selector? {source selector : Text} {id : Nat} {node : StyleNode}
    (known : (Stylesheet.ofText source).get? id = some node)
    (isSelector : node.statement.selector? = some selector) :
    ∃ before behind, blankLineComments source = before ++ selector ++ behind ∧
      node.span.start = Text.bytes before := by
  have statement : node.statement = .rule selector := by
    cases shape : node.statement with
    | rule written =>
        rw [shape] at isSelector
        exact congrArg Statement.rule (Option.some.inj isSelector)
    | _ =>
        rw [shape] at isSelector
        exact absurd isSelector.symm (Option.some_ne_none _)
  have inner : id ≠ 0 := by
    rintro rfl
    rw [Stylesheet.root_ofText source] at known
    obtain rfl := Option.some.inj known
    exact Statement.noConfusion statement
  obtain ⟨before, own, behind, whole, _, span, written⟩ := Stylesheet.standsIn_ofText inner known
  rw [statement] at written
  obtain ⟨rest, rfl⟩ := written
  refine ⟨before, rest ++ behind, ?_, ?_⟩
  · rw [whole]
    simp only [List.append_assoc]
  · rw [span]

theorem selector_standsIn {source selector : Text} {id : Nat} {node : StyleNode}
    (isRule : (id, selector) ∈ (Stylesheet.ofText source).rules)
    (known : (Stylesheet.ofText source).get? id = some node) :
    ∃ before behind, blankLineComments source = before ++ selector ++ behind ∧
      node.span.start = Text.bytes before := by
  obtain ⟨other, _, found⟩ := List.mem_filterMap.1 isRule
  obtain ⟨node', known', found⟩ := Option.bind_eq_some_iff.1 found
  obtain ⟨selector', isSelector, same⟩ := Option.map_eq_some_iff.1 found
  obtain ⟨rfl, rfl⟩ := Prod.mk.inj same
  rw [known] at known'
  obtain rfl := Option.some.inj known'
  exact standsIn_of_selector? known isSelector

/-- **An error points at the comments in front of an ampersand**, and at the ampersand itself if and
only if there are none. -/
theorem ampersand_behind_comments (linter : Linter) (path : Path) (source : Text)
    (found : Diagnostic) (reported : found ∈ linter.lintSource path source)
    (own : found.rule = name) (severe : found.severity = .error) :
    ∃ root ∈ Root.ofSource source path.dialect, ∃ before comments behind,
      blankLineComments root.text = before ++ comments ++ '&' :: behind ∧ AreComments comments ∧
      found.location.offset = root.offset + Text.bytes before ∧
      (Text.utf8 source)[found.location.offset + Text.bytes comments]? = some '&'.toUInt8 ∧
      ((Text.utf8 source)[found.location.offset]? = some '&'.toUInt8 ↔ comments = []) := by
  obtain ⟨rule, _, root, isRoot, member⟩ := Linter.mem_lintSource reported
  obtain ⟨id, node, selector, list, isRule, known, read, ref, isReference, offset⟩ :=
    exists_reference (mem_check member own) severe
  obtain ⟨front, back, whole, start⟩ := selector_standsIn isRule known
  obtain ⟨before, comments, behind, rfl, areComments, place⟩ :=
    SelectorList.exists_ampersand read isReference
  have text : blankLineComments root.text =
      front ++ before ++ comments ++ '&' :: (behind ++ back) := by
    rw [whole]
    simp only [List.append_assoc, List.cons_append]
  have at' : found.location.offset = root.offset + Text.bytes (front ++ before) := by
    rw [offset, Text.bytes_append, start, place]
    rfl
  have stands := Root.standsIn_ofSource source path.dialect root isRoot
  have ampersand : (Text.utf8 source)[found.location.offset + Text.bytes comments]? =
      some '&'.toUInt8 := by
    rw [at', Nat.add_assoc, ← Text.bytes_append]
    refine stands.utf8 (Comment.utf8_of_blankLineComments ?_ (by decide))
    rw [text]
    exact Text.utf8_append_cons rfl
  refine ⟨root, isRoot, front ++ before, comments, behind ++ back, text, areComments, at',
    ampersand, fun direct => ?_, ?_⟩
  · rcases areComments.eq_nil_or_slash with none | ⟨rest, rfl⟩
    · exact none
    · -- A comment starts with a slash.
      have slash : (Text.utf8 source)[found.location.offset]? = some '/'.toUInt8 := by
        rw [at']
        refine stands.utf8 (Comment.utf8_of_blankLineComments ?_ (by decide))
        rw [text, List.append_assoc]
        exact Text.utf8_append_cons rfl
      rw [slash] at direct
      exact absurd direct (by decide)
  · rintro rfl
    exact ampersand

/-- A stylesheet with a comment in front of a reference. -/
def commentedReference : Text :=
  ".a \x7B .b /*c*/&-d \x7B \x7D \x7D".toList

/-- What is said of it. -/
def commentedFinding : Diagnostic :=
  ⟨name, message, .error, ⟨"a.scss", 1, 9, 8⟩⟩

theorem lintSource_commentedReference :
    (Linter.mk [.selectorNoUnionClassName]).lintSource ⟨"a.scss"⟩ commentedReference =
      [commentedFinding] := by
  decide +kernel

theorem mem_lintSource_commentedReference :
    commentedFinding ∈
      (Linter.mk [.selectorNoUnionClassName]).lintSource ⟨"a.scss"⟩ commentedReference := by
  rw [lintSource_commentedReference]
  exact List.mem_singleton_self _

/-- The finding points at the comment in front of the ampersand. -/
theorem ampersand_behind_comments_commented :
    commentedFinding ∈
        (Linter.mk [.selectorNoUnionClassName]).lintSource ⟨"a.scss"⟩ commentedReference ∧
      ∃ root ∈ Root.ofSource commentedReference (Path.mk "a.scss").dialect,
        ∃ before comments behind,
        blankLineComments root.text = before ++ comments ++ '&' :: behind ∧ AreComments comments ∧
        commentedFinding.location.offset = root.offset + Text.bytes before ∧
        (Text.utf8 commentedReference)[commentedFinding.location.offset + Text.bytes comments]? =
          some '&'.toUInt8 ∧
        ((Text.utf8 commentedReference)[commentedFinding.location.offset]? = some '&'.toUInt8 ↔
          comments = []) :=
  ⟨mem_lintSource_commentedReference,
    ampersand_behind_comments (Linter.mk [.selectorNoUnionClassName]) ⟨"a.scss"⟩ commentedReference
      commentedFinding mem_lintSource_commentedReference rfl rfl⟩

/-- Not every error points at an ampersand. -/
theorem not_at_ampersand_commented :
    ¬ ∀ (linter : Linter) (path : Path) (source : Text), ∀ found ∈ linter.lintSource path source,
      found.rule = name → found.severity = .error →
        (Text.utf8 source)[found.location.offset]? = some '&'.toUInt8 := by
  intro points
  have ampersand := points (Linter.mk [.selectorNoUnionClassName]) ⟨"a.scss"⟩ commentedReference
    commentedFinding mem_lintSource_commentedReference rfl rfl
  have slash : (Text.utf8 commentedReference)[commentedFinding.location.offset]? =
      some '/'.toUInt8 := by
    decide +kernel
  rw [slash] at ampersand
  exact absurd ampersand (by decide)

end SelectorNoUnionClassName

end ScssLint
