import ScssLint.Proofs.Linter.Markup
import ScssLint.Proofs.Stylesheet.Enclosing

/-! # Union class names inside of at-rules

The rule `scss/selector-no-union-class-name` looks through at-rules: what it finds in the block of a
class selector is what it finds there when the block stands inside of at-rules, moved by what is
written in front of it (`SelectorNoUnionClassName.lintSource_enclose`).
-/

namespace ScssLint

open Css

theorem splitDeclaration?_dot {text property value : Text}
    (split : splitDeclaration? ('.' :: text) = some (property, value)) :
    isCustomProperty property = false := by
  unfold splitDeclaration? at split
  have other : ¬ Text.startsWith [':'] ('.' :: text) = true := Bool.noConfusion
  rw [Text.splitWhere, if_neg other] at split
  cases behind : Text.splitWhere (Text.startsWith [':']) text with
  | none =>
      rw [behind] at split
      exact absurd split.symm (Option.some_ne_none _)
  | some found =>
      obtain ⟨before, after⟩ := found
      rw [behind] at split
      dsimp only [Option.map_some] at split
      rw [Text.trim_cons_of_dark rfl] at split
      split at split
      · exact absurd split.symm (Option.some_ne_none _)
      · obtain ⟨rfl, _⟩ := Prod.mk.inj (Option.some.inj split)
        rfl

/-- The block behind a dot is read. -/
theorem Outline.exists_blockStatement_dot (text : Text) :
    ∃ statement, ∀ block, blockStatement ('.' :: text) block = (statement, true) := by
  unfold blockStatement
  cases split : splitDeclaration? ('.' :: text) with
  | none => exact ⟨_, fun _ => rfl⟩
  | some found =>
      obtain ⟨property, value⟩ := found
      have noCustom := splitDeclaration?_dot split
      dsimp only
      rw [noCustom]
      by_cases empty : value.isEmpty = true
      · exact ⟨.declaration property [], fun _ => if_pos empty⟩
      · exact ⟨.rule ('.' :: text), fun _ => if_neg empty⟩

/-- Whether a text is a dot with an identifier behind it. -/
def IsClassSelector (parent : Text) : Prop :=
  ∃ name, (lexemes parent).map (·.token) = [.delim '.', .ident name]

/-- Whether nothing that a body leaves open, be it a string, a `url(` argument, a comment or a
bracket, takes in the bracket that closes the block around it, and the body does not close that
block itself. -/
def IsClosedBody (body : Text) : Prop :=
  ∃ tokens, (lexemes (blankLineComments (inBraces body))).map (·.token) =
      .opening .curly :: (tokens ++ [.closing .curly]) ∧ isSealed [] tokens = true

namespace IsClassSelector

variable {parent : Text} (isClass : IsClassSelector parent)

include isClass

theorem areWords : ∀ lexeme ∈ lexemes parent, lexeme.token.isWord = true := by
  obtain ⟨name, cut⟩ := isClass
  have each : ∀ token ∈ (lexemes parent).map (·.token), token.isWord = true := by
    rw [cut]
    exact List.forall_mem_cons.2 ⟨rfl, List.forall_mem_singleton.2 rfl⟩
  exact List.forall_mem_map.1 each

/-- **A class selector is read as a dot and words**, also in front of a block. -/
theorem exists_words : ∃ dot words, ReadsWords parent (dot :: words) ∧
    dot.token = .delim '.' ∧ dot.text = ['.'] := by
  obtain ⟨words, spaces, reads, same, _⟩ := exists_readsWords isClass.areWords
  obtain ⟨name, cut⟩ := isClass
  obtain ⟨lexeme, _, whole, named, _⟩ := List.map_eq_cons_iff.1 cut
  rw [whole] at same
  obtain ⟨dot, words, rfl, kind, _⟩ := List.map_eq_cons_iff.1 same
  have kind : dot.token.kind = .delim '.' := kind.trans (congrArg Token.kind named)
  have token : dot.token = .delim '.' := by
    cases token : dot.token <;> rw [token] at kind <;>
      first | exact kind | exact Token.noConfusion kind
  refine ⟨dot, words, reads, token, ?_⟩
  have found := reads.found 0 []
  rw [List.map_cons, List.cons_append] at found
  obtain ⟨_, _, spelled⟩ := @placed_lexemesFrom _ _ [] _ _ found
  have spelled : (Token.delim '.').IsSpelled dot.text _ := token ▸ spelled
  exact spelled

end IsClassSelector

namespace Outline

/-- White space between statements makes no statement. -/
theorem ofTokens_space (start : Nat) (text : Text) (tokens : List Lexeme) :
    ofTokens (⟨.whitespace, start, text⟩ :: tokens) = ofTokens tokens := by
  rw [ofTokens, Forest.ofLexemes_leaf rfl]
  exact (congrArg ofPieces (Forest.piecesBehind_leaf Token.noConfusion)).trans
    (ofPieces_gap (.inl rfl) _)

theorem ofTokens_nil : ofTokens [] = .nil := by
  rw [ofTokens]
  exact ofPieces.eq_1

end Outline

namespace SelectorNoUnionClassName

/-- **An at-rule around a block changes nothing that is said of what the block holds**, but its
place. -/
theorem remarks_enclosedTokens {header text : Text} {first : Lexeme} {words inside : List Lexeme}
    {name : Text} (isBlock : IsBlock text inside) (reads : ReadsWords header (first :: words))
    (named : first.token = .atKeyword name) (enclosing? : Option Text) :
    (Outline.ofTokens (enclosedTokens header text (first :: words) inside)).remarks remark
        enclosing? false =
      ((Outline.ofTokens inside).remarks remark enclosing? false).map
        (.shift (Text.bytes header + 3)) := by
  have areWords : ∀ word ∈ (first :: words).map (Lexeme.shift 2), word.token.isWord = true :=
    List.forall_mem_map.2 reads.areWords
  obtain ⟨params, span, outline⟩ := Outline.ofTokens_atBlock areWords isBlock.isSealed named
    (2 + Text.bytes header + 1)
    [⟨.whitespace, 2 + Text.bytes header + 1 + Text.bytes text, [' ']⟩]
  have place : 2 + Text.bytes header + 1 = Text.bytes header + 3 := by omega
  rw [enclosedTokens, Outline.ofTokens_space, List.map_cons, outline, Outline.ofTokens_space,
    Outline.ofTokens_nil, place]
  exact (List.append_nil _).trans
    (Outline.remarks_shift movesAlong_remark _ enclosing? false _)

/-- The same is said of what a block holds inside of at-rules. -/
theorem exists_isBlock_enclose {block : Text} {inside : List Lexeme}
    (isBlock : IsBlock block inside) {headers : List Text}
    (areHeaders : ∀ header ∈ headers, IsAtHeader header) :
    ∃ outside, IsBlock (enclose headers block) outside ∧ ∀ enclosing?,
      (Outline.ofTokens outside).remarks remark enclosing? false =
        ((Outline.ofTokens inside).remarks remark enclosing? false).map
          (.shift (Text.bytes (openings headers))) := by
  induction headers with
  | nil =>
      refine ⟨inside, isBlock, fun enclosing? => ?_⟩
      exact ((List.map_congr_left fun finding _ => finding.shift_zero).trans (List.map_id _)).symm
  | cons header headers ih =>
      obtain ⟨isHeader, others⟩ := List.forall_mem_cons.1 areHeaders
      obtain ⟨outside, isBlock', same⟩ := ih others
      obtain ⟨first, words, name, reads, named⟩ := isHeader.exists_words
      refine ⟨enclosedTokens header (enclose headers block) (first :: words) outside,
        isBlock'.enclose reads isHeader.head?_eq rfl, fun enclosing? => ?_⟩
      have length : Text.bytes (openings (header :: headers)) =
          Text.bytes header + 3 + Text.bytes (openings headers) := by
        rw [openings, List.flatMap_cons, Text.bytes_append, Text.bytes_append]
        rfl
      rw [remarks_enclosedTokens isBlock' reads named, same, List.map_map, length]
      refine List.map_congr_left fun finding _ => ?_
      simp only [Function.comp, Finding.shift, Nat.add_assoc]

/-- What is said of a class selector's block depends on what the block holds alone. -/
theorem exists_findings_block {parent : Text} (isClass : IsClassSelector parent) :
    ∃ enclosing?, ∀ source text inside, blankLineComments source = parent ++ ' ' :: text →
      IsBlock text inside → Rule.selectorNoUnionClassName.findings source =
        ((Outline.ofTokens inside).remarks remark enclosing? false).map
          (.shift (Text.bytes parent + 1)) := by
  obtain ⟨dot, words, reads, named, spelled⟩ := isClass.exists_words
  have starts : Outline.startsStatement dot.token = true := by
    rw [named]
    rfl
  have written : Outline.bareText (Outline.withoutTrailingSpace
      ((dot :: words).map (⟨[], ·, none⟩))) =
        '.' :: piecesText (Outline.withoutTrailingSpace (words.map (⟨[], ·, none⟩))) := by
    have dark : Piece.token ⟨[], dot, none⟩ ≠ .whitespace := fun same =>
      Token.noConfusion (named.symm.trans same)
    have text : Piece.text ⟨[], dot, none⟩ = ['.'] := (List.append_nil _).trans spelled
    rw [List.map_cons, Outline.withoutTrailingSpace_cons dark, Outline.bareText, text]
    rfl
  obtain ⟨statement, made⟩ := Outline.exists_blockStatement_dot
    (piecesText (Outline.withoutTrailingSpace (words.map (⟨[], ·, none⟩))))
  rw [← written] at made
  refine ⟨statement.selector?, fun source text inside blanked isBlock => ?_⟩
  obtain ⟨span, outline⟩ := Outline.ofTokens_block reads.areWords isBlock.isSealed starts made
    (Text.bytes parent + 1) []
  have cut := isBlock.lexemesFrom_words reads 0 []
  rw [List.append_nil, map_shift_zero, Nat.zero_add, lexemesFrom.eq_1, ← blanked] at cut
  have found : Rule.selectorNoUnionClassName.findings source =
      (Outline.ofTokens (lexemes (blankLineComments source))).remarks remark none true := rfl
  have silent : remark none true statement span.start = [] := by
    unfold remark
    cases statement.selector? <;> rfl
  have enclosing : (statement.selector? <|> none) = statement.selector? := by
    cases statement.selector? <;> rfl
  rw [found, lexemes, cut, outline, Outline.remarks, silent, enclosing, Outline.ofTokens_nil,
    Outline.remarks_shift movesAlong_remark]
  exact List.append_nil _

/-- **What the rule finds in a class selector's block, it finds inside of at-rules, too**, moved by
what is written in front. -/
theorem findings_enclose {parent body : Text} {headers : List Text}
    (isClass : IsClassSelector parent) (areHeaders : ∀ header ∈ headers, IsAtHeader header)
    (isClosed : IsClosedBody body) :
    Rule.selectorNoUnionClassName.findings (parent ++ ' ' :: enclose headers (inBraces body)) =
      (Rule.selectorNoUnionClassName.findings (parent ++ ' ' :: inBraces body)).map
        (.shift (Text.bytes (openings headers))) := by
  obtain ⟨dot, words, reads, _, _⟩ := isClass.exists_words
  obtain ⟨tokens, cut, isSealed⟩ := isClosed
  obtain ⟨inside, isBlock⟩ := exists_isBlock cut isSealed
  obtain ⟨outside, isBlock', same⟩ := exists_isBlock_enclose isBlock areHeaders
  obtain ⟨enclosing?, found⟩ := exists_findings_block isClass
  have keeps := Comment.keepsClosing_inBraces isBlock
  have blanked := Comment.blankLineComments_enclose reads keeps areHeaders
  have blanked' : blankLineComments (parent ++ ' ' :: inBraces body) =
      parent ++ ' ' :: blankLineComments (inBraces body) :=
    Comment.blankLineComments_enclose reads keeps (List.forall_mem_nil IsAtHeader)
  rw [found _ _ _ blanked isBlock', found _ _ _ blanked' isBlock, same, List.map_map, List.map_map]
  refine List.map_congr_left fun finding _ => ?_
  simp only [Function.comp, Finding.shift, Nat.add_left_comm]

/-- **At-rules are transparent**: around the block of a class selector they change no diagnostic but
its place. -/
theorem lintSource_enclose (path : Path) (isSheet : path.dialect ≠ .markup) {parent body : Text}
    {headers : List Text} (isClass : IsClassSelector parent)
    (areHeaders : ∀ header ∈ headers, IsAtHeader header) (isClosed : IsClosedBody body) :
    ((Linter.mk [.selectorNoUnionClassName]).lintSource path
        (parent ++ ' ' :: enclose headers (inBraces body))).map Diagnostic.finding =
      (((Linter.mk [.selectorNoUnionClassName]).lintSource path
        (parent ++ ' ' :: inBraces body)).map Diagnostic.finding).map
          (.shift (Text.bytes (openings headers))) := by
  have single (text : Text) : (Linter.mk [.selectorNoUnionClassName]).findings text =
      Rule.selectorNoUnionClassName.findings text := List.append_nil _
  have moved (first second : Finding) :
      (first.shift (Text.bytes (openings headers))).offset ≤
          (second.shift (Text.bytes (openings headers))).offset ↔
        first.offset ≤ second.offset := Nat.add_le_add_iff_left
  rw [Linter.map_finding_sheet _ isSheet, Linter.map_finding_sheet _ isSheet, single, single,
    findings_enclose isClass areHeaders isClosed]
  exact (KeyOrder.map_mergeSort moved _).symm

/-- A body with rules, a comment and a string in it. -/
def nestedRules : Text :=
  "&-b \x7B c: \"\x7D\" \x7D // &-d \x7B\n @media print \x7B &-e \x7B \x7D \x7D".toList

/-- The body inside of two at-rules. -/
theorem lintSource_enclose_nestedRules :
    let linter : Linter := ⟨[.selectorNoUnionClassName]⟩
    let headers : List Text := ["@media screen".toList, "@include dark mode".toList]
    IsClassSelector ['.', 'a'] ∧ (∀ header ∈ headers, IsAtHeader header) ∧
      IsClosedBody nestedRules ∧
      (linter.lintSource ⟨"a.scss"⟩
          (['.', 'a'] ++ ' ' :: enclose headers (inBraces nestedRules))).map
          Diagnostic.finding =
        ((linter.lintSource ⟨"a.scss"⟩ (['.', 'a'] ++ ' ' :: inBraces nestedRules)).map
          Diagnostic.finding).map (.shift (Text.bytes (openings headers))) := by
  intro linter headers
  have isClass : IsClassSelector ['.', 'a'] := ⟨['a'], by decide +kernel⟩
  have areHeaders : ∀ header ∈ headers, IsAtHeader header := by
    refine List.forall_mem_cons.2 ⟨?_, List.forall_mem_singleton.2 ?_⟩
    · exact ⟨"media".toList, [.whitespace, .ident "screen".toList], by decide +kernel, by simp⟩
    · exact ⟨"include".toList, [.whitespace, .ident "dark".toList, .whitespace,
        .ident "mode".toList], by decide +kernel, by simp⟩
  have isClosed : IsClosedBody nestedRules :=
    ⟨((lexemes (blankLineComments (inBraces nestedRules))).map (·.token)).tail.dropLast,
      by decide +kernel, by decide +kernel⟩
  exact ⟨isClass, areHeaders, isClosed,
    lintSource_enclose ⟨"a.scss"⟩ (by decide +kernel) isClass areHeaders isClosed⟩

end SelectorNoUnionClassName

end ScssLint
