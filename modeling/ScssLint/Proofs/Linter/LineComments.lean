import Mathlib.Data.List.Pairwise
import ScssLint.Proofs.Css.Respelling
import ScssLint.Proofs.Linter.Order
import ScssLint.Proofs.Rule.UnionClassName
import ScssLint.Proofs.Stylesheet.Accounting

/-! # No finding in a line comment

The bytes of a line comment are spaces once they are blanked, and nothing that a rule says of a
statement points at a space: a statement starts with a token other than white space
(`Stylesheet.isDark_start`), and a reference starts with an ampersand or with a block comment
(`SelectorNoUnionClassName.isDark_of_mem_remark`). So what these rules report lies outside the line
comments of a file (`Linter.outside_lineComments`).
-/

namespace ScssLint

/-- Whether something else than a space stands at an offset once the line comments of a text are
blanked. -/
def IsDark (source : Text) (offset : Nat) : Prop :=
  ∃ b, (Text.utf8 (blankLineComments source))[offset]? = some b ∧ b ≠ ' '.toUInt8

/-- A line comment is blanked. -/
theorem IsDark.outside {source : Text} {offset : Nat} (dark : IsDark source offset) :
    ∀ comment ∈ Comment.lineComments source,
      offset < comment.span.start ∨ comment.span.stop ≤ offset := by
  intro comment member
  obtain ⟨b, found, noSpace⟩ := dark
  rw [Comment.overwrites_blankLineComments source offset] at found
  split at found
  · exact absurd (Option.some.inj found).symm noSpace
  · rename_i uncovered
    by_contra inside
    rw [Comment.lineComments_eq_lines] at member
    refine uncovered ⟨comment.span, List.mem_map_of_mem member, ?_⟩
    omega

/-- A line comment ends with the text at the latest. -/
theorem Comment.lt_bytes_of_covered {source : Text} {comment : Comment} {offset : Nat}
    (member : comment ∈ lineComments source) (start : comment.span.start ≤ offset)
    (stop : offset < comment.span.stop) : offset < Text.bytes source := by
  have covered := overwrites_blankLineComments source offset
  rw [lineComments_eq_lines] at member
  rw [if_pos ⟨comment.span, List.mem_map_of_mem member, by omega⟩] at covered
  have inside := (List.getElem?_eq_some_iff.1 covered).1
  rwa [Text.length_utf8, bytes_blankLineComments] at inside

theorem isDark_of_append {source before behind : Text} {c : Char}
    (whole : blankLineComments source = before ++ c :: behind) (dark : c ≠ ' ') :
    IsDark source (Text.bytes before) := by
  obtain ⟨b, bytes, encoded, _⟩ := Text.exists_utf8EncodeChar c
  have first : (Text.utf8 (c :: behind)).head? = some b := by
    rw [Text.utf8_cons, encoded]
    rfl
  refine ⟨b, ?_, fun blank => dark ?_⟩
  · rw [whole, Text.utf8_append,
      List.getElem?_append_right (Nat.le_of_eq (Text.length_utf8 before)), Text.length_utf8,
      Nat.sub_self, ← List.head?_eq_getElem?, first]
  · rw [blank, Text.head?_utf8 rfl] at first
    exact Option.some.inj first

namespace Css

/-- What starts with a space is white space. -/
theorem token_of_space {source : Text} {low high : Nat} {tokens : List Lexeme} {lexeme : Lexeme}
    (stands : Stands source low (lexeme :: tokens) high) (space : lexeme.text.head? = some ' ') :
    lexeme.token = .whitespace := by
  obtain ⟨front, back, whole, _, _⟩ := stands
  rw [List.append_assoc] at whole
  have cut := lexemesFrom_split whole
  rw [List.cons_append, spelling_cons] at cut
  obtain ⟨text, spelled⟩ := List.head?_eq_some_iff.1 space
  rw [spelled, List.cons_append, lexemesFrom_cons] at cut
  exact congrArg (fun tokens => (tokens.head?.map Lexeme.token).getD .whitespace) cut

theorem Stands.isDark {source : Text} {low high : Nat} {tokens : List Lexeme} {lexeme : Lexeme}
    (stands : Stands (blankLineComments source) low (lexeme :: tokens) high)
    (dark : lexeme.token ≠ .whitespace) : IsDark source low := by
  obtain ⟨before, behind, whole, rfl⟩ := stands.exists_text
  obtain ⟨c, text, spelled⟩ := List.exists_cons_of_ne_nil stands.text_ne_nil
  rw [spelling_cons, spelled, List.append_assoc, List.cons_append, List.cons_append] at whole
  refine isDark_of_append whole fun blank => dark (token_of_space stands ?_)
  rw [spelled, blank]
  rfl

end Css

namespace Stylesheet

theorem StandsFor.exists_stem {sheet : Stylesheet} {warnings : List ParseWarning} {child : Nat}
    {node : StyleNode} {first : Css.Piece} {taken behind rest : List Css.Piece}
    (standsFor : StandsFor sheet warnings child node first taken behind rest) :
    ∃ more spaces, Outline.IsStem first more spaces := by
  cases standsFor with
  | lone lone _ => exact lone.exists_stem
  | block stem _ _ _ _ _ _ => exact ⟨_, _, stem⟩

/-- **A statement does not start with a space.** -/
theorem isDark_start {source : Text} {id : Nat} {node : StyleNode} (inner : id ≠ 0)
    (found : (ofText source).get? id = some node) : IsDark source node.span.start := by
  obtain ⟨above, forest, _, reads, front, first, taken, behind, rest, split, _, span, standsFor⟩ :=
    exists_isReadFrom inner found
  obtain ⟨low, high, placed⟩ := reads.arePlaced
  obtain ⟨_, _, stem⟩ := standsFor.exists_stem
  rw [split] at placed
  obtain ⟨_, _, placed⟩ := placed.split front
  rw [List.cons_append] at placed
  obtain ⟨_, _, own⟩ := Outline.stands_extent placed.stands
  obtain ⟨inside, shape⟩ := first.exists_own
  rw [Outline.passage, shape] at own
  rw [span]
  exact own.isDark stem.dark

/-- What is said of the statements of a text is said of its nodes. -/
theorem exists_of_mem_remarks {source : Text} {remark : Remark} {finding : Finding}
    (said : finding ∈ (Outline.ofText source).remarks remark none true) :
    ∃ id node enclosing? isTop, id ≠ 0 ∧ (ofText source).get? id = some node ∧
      finding ∈ remark enclosing? isTop node.statement node.span.start := by
  rw [← remarks_ofText] at said
  obtain ⟨id, listed, said⟩ := List.mem_flatMap.1 said
  rw [descendants_ofText, List.mem_range'_1] at listed
  cases known : (ofText source).get? id with
  | none =>
      rw [known] at said
      exact absurd said List.not_mem_nil
  | some node =>
      rw [known] at said
      exact ⟨id, node, _, _, by omega, known, said⟩

end Stylesheet

/-- A variable is spoken of at its start. -/
theorem DollarVariableDefault.offset_of_mem_remark {ignoreLocal isTop : Bool}
    {enclosing? : Option Text} {statement : Statement} {start : Nat} :
    ∀ finding ∈ remark ignoreLocal enclosing? isTop statement start, finding.offset = start := by
  unfold remark
  split
  · split
    · exact List.forall_mem_singleton.2 rfl
    · exact List.forall_mem_nil _
  · exact List.forall_mem_nil _

namespace SelectorNoUnionClassName

/-- A rule is spoken of at its start or at a reference of its selector. -/
theorem exists_of_mem_remark {isTop : Bool} {enclosing? : Option Text} {statement : Statement}
    {start : Nat} {finding : Finding}
    (said : finding ∈ remark enclosing? isTop statement start) :
    finding.offset = start ∨ ∃ selector list, statement.selector? = some selector ∧
      SelectorList.parse selector = .ok list ∧ ∃ ref ∈ list.nestingNodes,
        finding.offset = start + ref.offset := by
  unfold remark at said
  split at said
  · rename_i selector enclosing isSelector
    split at said
    · unfold ruleRemark at said
      split at said
      · exact .inl (List.mem_singleton.1 said ▸ rfl)
      · split at said
        · exact .inl (List.mem_singleton.1 said ▸ rfl)
        · rename_i list read
          obtain ⟨ref, isUnion, rfl⟩ := List.mem_map.1 said
          exact .inr ⟨selector, list, isSelector, read, ref, (List.mem_filter.1 isUnion).1, rfl⟩
    · exact absurd said List.not_mem_nil
  · exact absurd said List.not_mem_nil

/-- **A rule is not spoken of at a space.** -/
theorem isDark_of_mem_remark {source : Text} {id : Nat} {node : StyleNode} {isTop : Bool}
    {enclosing? : Option Text} {finding : Finding} (inner : id ≠ 0)
    (found : (Stylesheet.ofText source).get? id = some node)
    (said : finding ∈ remark enclosing? isTop node.statement node.span.start) :
    IsDark source finding.offset := by
  rcases exists_of_mem_remark said with
    start | ⟨selector, list, isSelector, read, ref, isRef, place⟩
  · rw [start]
    exact Stylesheet.isDark_start inner found
  · obtain ⟨front, back, whole, start⟩ := standsIn_of_selector? found isSelector
    obtain ⟨before, comments, behind, rfl, areComments, offset⟩ :=
      SelectorList.exists_ampersand read isRef
    rw [place, start, ← offset, ← Text.bytes_append]
    rcases areComments.eq_nil_or_slash with rfl | ⟨rest, rfl⟩
    · have whole' : blankLineComments source = front ++ before ++ '&' :: (behind ++ back) := by
        rw [whole]
        simp only [List.append_assoc, List.append_nil, List.cons_append]
      exact isDark_of_append whole' (by decide)
    · have whole' : blankLineComments source =
          front ++ before ++ '/' :: (rest ++ '&' :: (behind ++ back)) := by
        rw [whole]
        simp only [List.append_assoc, List.cons_append]
      exact isDark_of_append whole' (by decide)

end SelectorNoUnionClassName

/-- **The rules for statements do not speak of spaces.** -/
theorem Rule.isDark_of_mem_findings {rule : Rule} {text : Text}
    (spoken : rule.name = DollarVariableDefault.name ∨ rule.name = SelectorNoUnionClassName.name) :
    ∀ finding ∈ rule.findings text, IsDark text finding.offset := by
  intro finding found
  cases rule with
  | dollarVariableDefault ignoreLocal =>
      obtain ⟨id, node, _, _, inner, known, said⟩ := Stylesheet.exists_of_mem_remarks found
      rw [DollarVariableDefault.offset_of_mem_remark finding said]
      exact Stylesheet.isDark_start inner known
  | selectorNoUnionClassName =>
      obtain ⟨id, node, _, _, inner, known, said⟩ := Stylesheet.exists_of_mem_remarks found
      exact SelectorNoUnionClassName.isDark_of_mem_remark inner known said
  | doubleSlashCommentInline expectation ignoreCommands =>
      have other : DoubleSlashCommentInline.name ≠ DollarVariableDefault.name ∧
          DoubleSlashCommentInline.name ≠ SelectorNoUnionClassName.name := by decide
      exact (spoken.elim other.1 other.2).elim

/-- Whether one of two stylesheets of a file ends in front of the other. -/
def Root.AreApart (root root' : Root) : Prop :=
  root.offset + Text.bytes root.text ≤ root'.offset ∨
    root'.offset + Text.bytes root'.text ≤ root.offset

instance : Std.Symm Root.AreApart :=
  ⟨fun _ _ => Or.symm⟩

namespace Linter

/-- Two stylesheets of a file share no offset. -/
theorem root_eq_of_offset {path : Path} {source : Text} {root root' : Root} {offset : Nat}
    (isRoot : root ∈ Root.ofSource source path.dialect)
    (isRoot' : root' ∈ Root.ofSource source path.dialect)
    (inside : root.offset ≤ offset ∧ offset < root.offset + Text.bytes root.text)
    (inside' : root'.offset ≤ offset ∧ offset < root'.offset + Text.bytes root'.text) :
    root = root' := by
  by_contra other
  have apart : (Root.ofSource source path.dialect).Pairwise Root.AreApart :=
    (Root.pairwise_ofSource source path.dialect).imp .inl
  rcases apart.forall isRoot isRoot' other with before | before <;> omega

/-- **What is said of statements stands outside the line comments** of all stylesheets of a file, in
one of these stylesheets. -/
theorem outside_lineComments (linter : Linter) (path : Path) (source : Text) (found : Diagnostic)
    (reported : found ∈ linter.lintSource path source)
    (spoken : found.rule = DollarVariableDefault.name ∨
      found.rule = SelectorNoUnionClassName.name) :
    (∃ root ∈ Root.ofSource source path.dialect, root.offset ≤ found.location.offset ∧
      found.location.offset < root.offset + Text.bytes root.text) ∧
    ∀ root ∈ Root.ofSource source path.dialect, ∀ comment ∈ Comment.lineComments root.text,
      found.location.offset < root.offset + comment.span.start ∨
        root.offset + comment.span.stop ≤ found.location.offset := by
  obtain ⟨rule, isRule, root, isRoot, member⟩ := mem_lintSource reported
  rw [rule.check_ofRoot] at member
  obtain ⟨finding, isFinding, rfl⟩ := List.mem_map.1 member
  have named : finding.rule = rule.name := rule.rule_of_mem_findings finding isFinding
  have dark := Rule.isDark_of_mem_findings (named ▸ spoken) finding isFinding
  have within : root.offset ≤ root.offset + finding.offset ∧
      root.offset + finding.offset < root.offset + Text.bytes root.text := by
    have listed : finding ∈ linter.findings root.text :=
      List.mem_flatMap.2 ⟨rule, isRule, isFinding⟩
    have := offset_lt_of_mem_findings finding listed
    omega
  refine ⟨⟨root, isRoot, within⟩, fun root' isRoot' comment isComment => ?_⟩
  change root.offset + finding.offset < _ ∨ _ ≤ root.offset + finding.offset
  by_contra covered
  have stops : root.offset + finding.offset - root'.offset < Text.bytes root'.text :=
    Comment.lt_bytes_of_covered isComment (by omega) (by omega)
  obtain rfl := root_eq_of_offset isRoot isRoot' within (by omega)
  have := dark.outside comment isComment
  omega

/-- A reference between two line comments that read like a variable and like a reference. -/
def betweenLines : Text :=
  "// $a: 1;\n.b \x7B &-c \x7B \x7D \x7D // &-d".toList

/-- What is said of it. -/
def betweenLinesFinding : Diagnostic :=
  ⟨SelectorNoUnionClassName.name, SelectorNoUnionClassName.message, .error, ⟨"a.scss", 2, 6, 15⟩⟩

theorem mem_lintSource_betweenLines :
    betweenLinesFinding ∈
      (Linter.mk [.dollarVariableDefault false, .selectorNoUnionClassName]).lintSource ⟨"a.scss"⟩
        betweenLines := by
  have only : (Linter.mk [.dollarVariableDefault false, .selectorNoUnionClassName]).lintSource
      ⟨"a.scss"⟩ betweenLines = [betweenLinesFinding] := by
    decide +kernel
  rw [only]
  exact List.mem_singleton_self _

/-- The finding stands behind the first comment and in front of the second one. -/
theorem outside_lineComments_between :
    betweenLinesFinding ∈
        (Linter.mk [.dollarVariableDefault false, .selectorNoUnionClassName]).lintSource ⟨"a.scss"⟩
          betweenLines ∧
      (∃ root ∈ Root.ofSource betweenLines (Path.mk "a.scss").dialect,
        root.offset ≤ betweenLinesFinding.location.offset ∧
          betweenLinesFinding.location.offset < root.offset + Text.bytes root.text) ∧
      ∀ root ∈ Root.ofSource betweenLines (Path.mk "a.scss").dialect,
        ∀ comment ∈ Comment.lineComments root.text,
          betweenLinesFinding.location.offset < root.offset + comment.span.start ∨
            root.offset + comment.span.stop ≤ betweenLinesFinding.location.offset :=
  ⟨mem_lintSource_betweenLines,
    outside_lineComments ⟨[.dollarVariableDefault false, .selectorNoUnionClassName]⟩ ⟨"a.scss"⟩
      betweenLines betweenLinesFinding mem_lintSource_betweenLines (.inr rfl)⟩

end Linter

end ScssLint
