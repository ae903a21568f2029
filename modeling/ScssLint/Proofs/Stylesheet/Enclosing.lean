import ScssLint.Proofs.Comment.Context
import ScssLint.Proofs.Css.Blocks
import ScssLint.Proofs.Stylesheet.Mapping
import ScssLint.Proofs.Stylesheet.Statements

/-! # Blocks inside of at-rules

A block can be put inside of the blocks of any number of at-rules (`enclose`). Blanking does to it
what it does without them (`Comment.blankLineComments_enclose`), it is read as a block inside of
blocks (`Css.IsBlock.enclose`), and each of these is an at-rule that holds the next one
(`Outline.ofTokens_atBlock`).
-/

namespace ScssLint

open Css

/-- A block inside of the blocks of some at-rules, the outermost one first. -/
def enclose : List Text → Text → Text
  | [], block => block
  | header :: headers, block => inBraces (header ++ ' ' :: enclose headers block)

/-- What is written in front of the block, from the first at-rule on. -/
def openings (headers : List Text) : Text :=
  headers.flatMap (· ++ [' ', '\x7B', ' '])

/-- Whether a text is the name of an at-rule with words behind it. -/
def IsAtHeader (header : Text) : Prop :=
  ∃ name words, (lexemes header).map (·.token) = .atKeyword name :: words ∧
    ∀ word ∈ words, word = .whitespace ∨ ∃ name, word = .ident name

theorem exists_enclose_inBraces (headers : List Text) (inner : Text) :
    ∃ rest, enclose headers (inBraces inner) = '\x7B' :: rest := by
  cases headers with
  | nil => exact ⟨_, rfl⟩
  | cons header headers => exact ⟨_, rfl⟩

namespace IsAtHeader

variable {header : Text} (isHeader : IsAtHeader header)

include isHeader

theorem areWords : ∀ lexeme ∈ lexemes header, lexeme.token.isWord = true := by
  obtain ⟨name, words, cut, are⟩ := isHeader
  have each : ∀ token ∈ (lexemes header).map (·.token), token.isWord = true := by
    rw [cut]
    refine List.forall_mem_cons.2 ⟨rfl, fun word member => ?_⟩
    rcases are word member with rfl | ⟨name, rfl⟩ <;> rfl
  exact List.forall_mem_map.1 each

theorem head?_eq : header.head? = some '@' := by
  obtain ⟨name, words, cut, _⟩ := isHeader
  obtain ⟨first, others, whole, named, _⟩ := List.map_eq_cons_iff.1 cut
  obtain ⟨_, _, spelled⟩ := @placed_lexemesFrom _ _ [] _ _ whole
  rw [named] at spelled
  have text := congrArg spelling whole
  rw [lexemes, spelling_lexemesFrom, spelling_cons] at text
  obtain ⟨tail, same⟩ := List.head?_eq_some_iff.1 (show first.text.head? = some '@' from spelled)
  rw [text, same]
  rfl

/-- **A header is read as the name of an at-rule and words**, also in front of a block. -/
theorem exists_words : ∃ first words name, ReadsWords header (first :: words) ∧
    first.token = .atKeyword name := by
  obtain ⟨words, spaces, reads, same, _⟩ := exists_readsWords isHeader.areWords
  obtain ⟨name, others, cut, _⟩ := isHeader
  obtain ⟨lexeme, _, whole, named, _⟩ := List.map_eq_cons_iff.1 cut
  rw [whole] at same
  obtain ⟨first, words, rfl, kind, _⟩ := List.map_eq_cons_iff.1 same
  have kind : first.token.kind = .atKeyword [] := kind.trans (congrArg Token.kind named)
  cases token : first.token with
  | atKeyword name => exact ⟨first, words, name, reads, token⟩
  | _ =>
      rw [token] at kind
      exact Token.noConfusion kind

end IsAtHeader

namespace Comment

open Scanner

/-- A scanner blanks a block inside of at-rules as it blanks the block. -/
theorem overwritten_enclose {inner : Text}
    (keeps : KeepsClosing (Scanner.ofText true (inBraces inner))) {headers : List Text}
    (areHeaders : ∀ header ∈ headers, IsAtHeader header) {before closers : Text} (flag : Bool)
    (noName : nameRun before = []) (noSlash : '/' ∉ closers) :
    (⟨false, before, enclose headers (inBraces inner) ++ closers, .code, flag⟩ :
        Scanner).overwritten =
      enclose headers (blankLineComments (inBraces inner)) ++ closers := by
  induction headers generalizing before closers flag with
  | nil =>
      rw [enclose, enclose, blankLineComments_eq_overwritten]
      exact Alike.overwritten_append noSlash (Scanner.ofText true (inBraces inner)) rfl _
        ⟨rfl, noName⟩ rfl (.inr keeps)
  | cons header headers ih =>
      obtain ⟨isHeader, others⟩ := List.forall_mem_cons.1 areHeaders
      obtain ⟨first, words, name, reads, _⟩ := isHeader.exists_words
      obtain ⟨rest, starts⟩ := exists_enclose_inBraces headers inner
      have order (block : Text) : enclose (header :: headers) block ++ closers =
          (['\x7B', ' '] ++ (header ++ [' '])) ++
            (enclose headers block ++ ' ' :: '\x7D' :: closers) := by
        simp [enclose, inBraces]
      have passes : Passes before (['\x7B', ' '] ++ (header ++ [' ']))
          (enclose headers (inBraces inner) ++ ' ' :: '\x7D' :: closers) := by
        rw [starts]
        exact Leads.append (Leads.of_plain (List.all_eq_true.1 rfl) before _) (reads.passes _ _)
      have noName' : nameRun ((['\x7B', ' '] ++ (header ++ [' '])).reverse ++ before) = [] := by
        rw [← List.append_assoc, List.reverse_append]
        rfl
      have noSlash' : '/' ∉ ' ' :: '\x7D' :: closers := by simpa using noSlash
      obtain ⟨later, overwritten⟩ := passes.overwritten flag
      rw [order, order, overwritten, ih others later noName' noSlash']

/-- **Blanking does to a block inside of at-rules what it does to the block.** -/
theorem blankLineComments_enclose {parent inner : Text} {words : List Lexeme}
    (reads : ReadsWords parent words)
    (keeps : KeepsClosing (Scanner.ofText true (inBraces inner))) {headers : List Text}
    (areHeaders : ∀ header ∈ headers, IsAtHeader header) :
    blankLineComments (parent ++ ' ' :: enclose headers (inBraces inner)) =
      parent ++ ' ' :: enclose headers (blankLineComments (inBraces inner)) := by
  obtain ⟨rest, starts⟩ := exists_enclose_inBraces headers inner
  have passes : Passes [] (parent ++ [' ']) (enclose headers (inBraces inner)) := by
    rw [starts]
    exact reads.passes [] rest
  obtain ⟨later, overwritten⟩ := passes.overwritten false
  have noName : nameRun ((parent ++ [' ']).reverse ++ []) = [] := by
    rw [List.reverse_append]
    rfl
  have block := overwritten_enclose keeps areHeaders later noName List.not_mem_nil
  simp only [List.append_nil] at block overwritten
  rw [List.append_cons, ← overwritten_of_noBlocks, overwritten, block, ← List.append_cons]

/-- The last bracket of a block that is left in the blanked text is left alone. -/
theorem keepsClosing_inBraces {inner : Text} {inside : List Lexeme}
    (isBlock : IsBlock (blankLineComments (inBraces inner)) inside) :
    KeepsClosing (Scanner.ofText true (inBraces inner)) := by
  intro _
  refine ⟨?_, ?_⟩
  · have whole : (Scanner.ofText true (inBraces inner)).rest =
        ('\x7B' :: ' ' :: (inner ++ [' '])) ++ ['\x7D'] := by
      simp [Scanner.ofText, inBraces]
    rw [whole]
    exact List.getLast?_concat
  · rw [← blankLineComments_eq_overwritten, isBlock.text_eq, ← List.cons_append]
    exact List.getLast?_concat

end Comment

namespace Outline

/-- The statements that some tokens make. -/
def ofTokens (tokens : List Lexeme) : Outline :=
  ofPieces (Forest.ofLexemes tokens).pieces

theorem cutStatement_words {words : List Lexeme}
    (areWords : ∀ word ∈ words, word.token.isWord = true) (tail : List Piece) :
    cutStatement false (words.map (⟨[], ·, none⟩) ++ tail) =
      (cutStatement false tail).behind (words.map (⟨[], ·, none⟩)) := by
  induction words with
  | nil => rfl
  | cons word words ih =>
      obtain ⟨first, others⟩ := List.forall_mem_cons.1 areWords
      have passed := @cutStatement_simple ⟨[], word, none⟩ (Token.isSimple_of_isWord first)
      rw [List.map_cons, List.cons_append, passed, ih others]
      rfl

/-- Words are cut off in front of a block. -/
theorem cutStatement_block {words : List Lexeme}
    (areWords : ∀ word ∈ words, word.token.isWord = true) (inside : List Lexeme) (offset : Nat)
    (later : List Piece) :
    cutStatement false (words.map (⟨[], ·, none⟩) ++
        (blockPiece inside).map (.shift offset) :: later) =
      ⟨words.map (⟨[], ·, none⟩), .block ((blockPiece inside).map (.shift offset)), later⟩ := by
  rw [cutStatement_words areWords]
  exact congrArg (Cut.mk · _ _) (List.append_nil _)

/-- The statements of a moved block. -/
theorem ofPieces_body_blockPiece (inside : List Lexeme) (offset : Nat) :
    ofPieces ((blockPiece inside).map (.shift offset)).body.pieces =
      (ofTokens inside).shift offset := by
  have keeps := keepsTokens_shift offset
  rw [Piece.body_map, Forest.pieces_map keeps, ofPieces_shift]
  rfl

section Blocks

variable {first : Lexeme} {words inside : List Lexeme}
  (areWords : ∀ word ∈ first :: words, word.token.isWord = true)
  (isSealed : isSealed [] (inside.map (·.token)) = true)

include areWords isSealed

/-- **An at-rule in front of a block holds what the block holds.** -/
theorem ofTokens_atBlock {name : Text} (named : first.token = .atKeyword name) (offset : Nat)
    (later : List Lexeme) :
    ∃ params span,
      ofTokens (first :: words ++ ((blockTokens inside).map (.shift offset) ++ later)) =
        .node (.atRule name params true) span ((ofTokens inside).shift offset)
          (ofTokens later) := by
  obtain ⟨_, others⟩ := List.forall_mem_cons.1 areWords
  have cut := cutStatement_block others inside offset (Forest.ofLexemes later).pieces
  have named : Piece.token ⟨[], first, none⟩ = .atKeyword name := named
  rw [ofTokens, Forest.pieces_words areWords, Forest.pieces_block isSealed, List.map_cons,
    List.cons_append, ofPieces_atBlock named cut, ofPieces_body_blockPiece]
  exact ⟨_, _, rfl⟩

/-- A statement in front of a block that is read holds what the block holds. -/
theorem ofTokens_block (starts : startsStatement first.token = true) {statement : Statement}
    (made : ∀ block, blockStatement (bareText (withoutTrailingSpace
      ((first :: words).map (⟨[], ·, none⟩)))) block = (statement, true))
    (offset : Nat) (later : List Lexeme) :
    ∃ span, ofTokens (first :: words ++ ((blockTokens inside).map (.shift offset) ++ later)) =
      .node statement span ((ofTokens inside).shift offset) (ofTokens later) := by
  have cut := cutStatement_block areWords inside offset (Forest.ofLexemes later).pieces
  have dark : first.token ≠ .whitespace := by
    intro same
    rw [same] at starts
    exact Bool.noConfusion starts
  have written : withoutTrailingSpace ((first :: words).map (⟨[], ·, none⟩)) ≠ [] := by
    rw [List.map_cons, @withoutTrailingSpace_cons ⟨[], first, none⟩ dark]
    exact List.cons_ne_nil _ _
  rw [List.map_cons, List.cons_append] at cut
  rw [ofTokens, Forest.pieces_words areWords, Forest.pieces_block isSealed, List.map_cons,
    List.cons_append, ofPieces_block cut starts written (made _), if_pos rfl,
    ofPieces_body_blockPiece]
  exact ⟨_, rfl⟩

end Blocks

end Outline

end ScssLint
