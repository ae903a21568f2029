import ScssLint.Proofs.Css.Balance
import ScssLint.Proofs.Css.Words

/-! # Blocks as texts

A text is a block if it is read as two curly brackets and what stands between them
(`Css.IsBlock`). It is read in the same way wherever it stands (`Css.IsBlock.lexemesFrom`), and
words with a block behind them are a block again in brackets of their own (`Css.IsBlock.enclose`).
-/

namespace ScssLint

namespace Css

section Sealed

variable {opened : List Bracket} {token : Token} {tokens : List Token}

theorem isSealed_leaf (opensNone : token.opens? = none) (closesNone : token.closes? = none) :
    isSealed opened (token :: tokens) = isSealed opened tokens := by
  rw [isSealed, opensNone, closesNone]

theorem isLeaf_of_isSimple (simple : token.isSimple = true) :
    token.opens? = none ∧ token.closes? = none := by
  cases token <;> first | exact ⟨rfl, rfl⟩ | exact Bool.noConfusion simple

theorem isSealed_simple {first : List Token} (simple : ∀ token ∈ first, token.isSimple = true)
    (opened : List Bracket) (tokens : List Token) :
    isSealed opened (first ++ tokens) = isSealed opened tokens := by
  induction first with
  | nil => rfl
  | cons token first ih =>
      obtain ⟨head, others⟩ := List.forall_mem_cons.1 simple
      obtain ⟨opensNone, closesNone⟩ := isLeaf_of_isSimple head
      rw [List.cons_append, isSealed_leaf opensNone closesNone, ih others]

/-- Sealed tokens and the bracket that closes the block around them leave everything outside of it
as it is. -/
theorem isSealed_append {inner : List Bracket} (outer : List Bracket) (later : List Token)
    (isSealed : isSealed inner tokens = true) :
    Css.isSealed (inner ++ .curly :: outer) (tokens ++ .closing .curly :: later) =
      Css.isSealed outer later := by
  induction tokens generalizing inner with
  | nil =>
      obtain rfl := List.isEmpty_iff.1 isSealed
      rfl
  | cons token tokens ih =>
      rw [Css.isSealed] at isSealed
      rw [List.cons_append, Css.isSealed]
      split at isSealed
      · exact ih isSealed
      · rename_i bracket _ closes
        split at isSealed
        · rename_i innermost
          obtain ⟨inner, rfl⟩ := List.head?_eq_some_iff.1 innermost
          rw [if_pos (show (bracket :: inner ++ .curly :: outer).head? = some bracket from rfl)]
          exact ih isSealed
        · rename_i stray
          obtain ⟨harmless, others⟩ := Bool.and_eq_true_iff.1 isSealed
          have apart : (inner ++ .curly :: outer).head? ≠ some bracket := fun same =>
            (apart_of_stray closes stray harmless).2 bracket same closes
          have inside : (inner ++ .curly :: outer).isEmpty = false := by
            cases inner <;> rfl
          rw [if_neg apart, inside, Bool.not_false, Bool.or_true, Bool.true_and]
          exact ih others
      · exact ih isSealed

end Sealed

/-- The tokens of a block that holds the tokens `inside`. -/
def blockTokens (inside : List Lexeme) : List Lexeme :=
  ⟨.opening .curly, 0, ['\x7B']⟩ ::
    (inside ++ [⟨.closing .curly, 1 + Text.bytes (spelling inside), ['\x7D']⟩])

/-- The piece that they make. -/
def blockPiece (inside : List Lexeme) : Piece :=
  ⟨[], ⟨.opening .curly, 0, ['\x7B']⟩,
    some (.ofLexemes inside,
      some ⟨.closing .curly, 1 + Text.bytes (spelling inside), ['\x7D']⟩)⟩

/-- Whether a text is read as a block that holds the tokens `inside`. -/
structure IsBlock (text : Text) (inside : List Lexeme) : Prop where
  found : lexemes text = blockTokens inside
  isSealed : isSealed [] (inside.map (·.token)) = true

/-- **A text is a block if its first and its last token are the brackets** of all that stands
between them. -/
theorem exists_isBlock {text : Text} {tokens : List Token}
    (found : (lexemes text).map (·.token) = .opening .curly :: (tokens ++ [.closing .curly]))
    (isSealed : isSealed [] tokens = true) : ∃ inside, IsBlock text inside := by
  obtain ⟨⟨_, start, first⟩, others, whole, rfl, found⟩ := List.map_eq_cons_iff.1 found
  obtain ⟨inside, last, rfl, rfl, closes⟩ := List.map_eq_append_iff.1 found
  obtain ⟨⟨_, start', final⟩, rfl, rfl⟩ := List.map_eq_singleton_iff.1 closes
  obtain ⟨rfl, _, rfl⟩ := @placed_lexemesFrom _ _ [] _ _ whole
  obtain ⟨rfl, _, rfl⟩ := @placed_lexemesFrom _ _ (_ :: inside) _ _ whole
  refine ⟨inside, ?_, isSealed⟩
  rw [whole, spelling_cons, Text.bytes_append, Nat.zero_add, Nat.zero_add]
  rfl

namespace IsBlock

variable {text : Text} {inside : List Lexeme} (isBlock : IsBlock text inside)

include isBlock

theorem text_eq : text = '\x7B' :: (spelling inside ++ ['\x7D']) := by
  have whole := congrArg spelling isBlock.found
  rw [lexemes, spelling_lexemesFrom, blockTokens, spelling_cons, spelling_append] at whole
  exact whole

theorem bytes_text : Text.bytes text = 1 + Text.bytes (spelling inside) + 1 := by
  rw [isBlock.text_eq, Text.bytes_cons, Text.bytes_append, ← Nat.add_assoc]
  rfl

/-- **A block is read in the same way wherever it stands.** -/
theorem lexemesFrom (offset : Nat) (rest : Text) :
    lexemesFrom offset (text ++ rest) = (blockTokens inside).map (.shift offset) ++
      Css.lexemesFrom (offset + Text.bytes text) rest := by
  have opens (content : Text) : lexemes ('\x7B' :: content) =
      ⟨.opening .curly, 0, ['\x7B']⟩ :: Css.lexemesFrom 1 content := lexes_opening content 0
  have found := isBlock.found
  rw [isBlock.text_eq, opens] at found
  have reads := lexemesFrom_curly (List.cons.inj found).2 rest
  have shape : text ++ rest = '\x7B' :: (spelling inside ++ '\x7D' :: rest) := by
    rw [isBlock.text_eq, List.cons_append, List.append_assoc]
    rfl
  have here : lexemes (text ++ rest) =
      blockTokens inside ++ Css.lexemesFrom (Text.bytes text) rest := by
    rw [shape, opens, reads, isBlock.bytes_text, blockTokens, List.cons_append, List.append_assoc]
    rfl
  rw [lexemesFrom_eq_map, here, List.map_append, ← lexemesFrom_shift]

/-- Words in front of a block. -/
theorem lexemesFrom_words {header : Text} {words : List Lexeme} (reads : ReadsWords header words)
    (offset : Nat) (rest : Text) :
    Css.lexemesFrom offset (header ++ ' ' :: (text ++ rest)) =
      words.map (.shift offset) ++
        ((blockTokens inside).map (.shift (offset + Text.bytes header + 1)) ++
          Css.lexemesFrom (offset + Text.bytes header + 1 + Text.bytes text) rest) := by
  have found := reads.found offset (spelling inside ++ ['\x7D'] ++ rest)
  rw [← List.cons_append, ← isBlock.text_eq, isBlock.lexemesFrom] at found
  exact found

end IsBlock

namespace Forest

/-- Tokens without brackets are pieces of their own. -/
theorem pieces_words {words : List Lexeme} (areWords : ∀ word ∈ words, word.token.isWord = true)
    (later : List Lexeme) :
    (ofLexemes (words ++ later)).pieces =
      words.map (⟨[], ·, none⟩) ++ (ofLexemes later).pieces := by
  induction words with
  | nil => rfl
  | cons word words ih =>
      obtain ⟨first, others⟩ := List.forall_mem_cons.1 areWords
      have simple := Token.isSimple_of_isWord first
      rw [List.cons_append, ofLexemes_leaf (isLeaf_of_isSimple simple).1, List.map_cons,
        List.cons_append, ← ih others]
      exact piecesBehind_leaf (ne_comment_of_isSimple simple)

/-- A block is one piece. -/
theorem pieces_block {inside : List Lexeme} (isSealed : isSealed [] (inside.map (·.token)) = true)
    (offset : Nat) (later : List Lexeme) :
    (ofLexemes ((blockTokens inside).map (.shift offset) ++ later)).pieces =
      (blockPiece inside).map (.shift offset) :: (ofLexemes later).pieces := by
  have kept : Css.isSealed [] ((inside.map (Lexeme.shift offset)).map (·.token)) = true := by
    rw [List.map_map]
    exact isSealed
  rw [blockTokens, List.map_cons, List.map_append, List.map_singleton, List.cons_append,
    List.append_assoc, List.singleton_append, ofLexemes_block rfl rfl kept,
    ofLexemes_map (keepsTokens_shift offset)]
  rfl

end Forest

/-- A text in curly brackets. -/
def inBraces (inner : Text) : Text :=
  '\x7B' :: ' ' :: (inner ++ [' ', '\x7D'])

/-- The tokens inside of such brackets around words with a block behind them. -/
def enclosedTokens (header text : Text) (words inside : List Lexeme) : List Lexeme :=
  ⟨.whitespace, 1, [' ']⟩ :: (words.map (.shift 2) ++
    ((blockTokens inside).map (.shift (2 + Text.bytes header + 1)) ++
      [⟨.whitespace, 2 + Text.bytes header + 1 + Text.bytes text, [' ']⟩]))

theorem spelling_enclosedTokens {header text : Text} {words inside : List Lexeme}
    (isBlock : IsBlock text inside) (reads : ReadsWords header words) :
    spelling (enclosedTokens header text words inside) =
      ' ' :: (header ++ ' ' :: (text ++ [' '])) := by
  have block : spelling (blockTokens inside) = text := by
    rw [← isBlock.found, lexemes, spelling_lexemesFrom]
  simp only [enclosedTokens, spelling_cons, spelling_append, spelling_shift, reads.spelled, block,
    spelling_nil, List.append_assoc, List.cons_append, List.nil_append]

/-- A single space is a token of its own. -/
theorem lexemesFrom_space {c : Char} (dark : isSpace c = false) (offset : Nat) (rest : Text) :
    lexemesFrom offset (' ' :: c :: rest) =
      ⟨.whitespace, offset, [' ']⟩ :: lexemesFrom (offset + 1) (c :: rest) := by
  have stops : ∀ d ∈ (c :: rest).head?, isSpace d = false := fun d first =>
    Option.some.inj first ▸ dark
  exact lexes_space (List.forall_mem_singleton.2 rfl) stops offset

theorem tokens_shift (distance : Nat) (tokens : List Lexeme) :
    (tokens.map (Lexeme.shift distance)).map (·.token) = tokens.map (·.token) :=
  List.map_map

/-- **Words with a block behind them are a block again** in brackets of their own. -/
theorem IsBlock.enclose {header text : Text} {words inside : List Lexeme} {c : Char}
    (isBlock : IsBlock text inside) (reads : ReadsWords header words)
    (first : header.head? = some c) (dark : isSpace c = false) :
    IsBlock (inBraces (header ++ ' ' :: text)) (enclosedTokens header text words inside) := by
  refine ⟨?_, ?_⟩
  · have opens : lexemes (inBraces (header ++ ' ' :: text)) = ⟨.opening .curly, 0, ['\x7B']⟩ ::
        Css.lexemesFrom 1 (' ' :: (header ++ ' ' :: (text ++ [' ', '\x7D']))) := by
      rw [inBraces, List.append_assoc]
      exact lexes_opening _ 0
    have space : Css.lexemesFrom 1 (' ' :: (header ++ ' ' :: (text ++ [' ', '\x7D']))) =
        ⟨.whitespace, 1, [' ']⟩ ::
          Css.lexemesFrom 2 (header ++ ' ' :: (text ++ [' ', '\x7D'])) := by
      obtain ⟨tail, rfl⟩ := List.head?_eq_some_iff.1 first
      exact lexemesFrom_space dark 1 _
    have closes (offset : Nat) : Css.lexemesFrom offset [' ', '\x7D'] =
        [⟨.whitespace, offset, [' ']⟩, ⟨.closing .curly, offset + 1, ['\x7D']⟩] := by
      have behind := lexes_closing [] (offset + 1)
      rw [Css.lexemesFrom] at behind
      exact (lexemesFrom_space rfl offset []).trans (congrArg _ behind)
    have length : 1 + Text.bytes (spelling (enclosedTokens header text words inside)) =
        2 + Text.bytes header + 1 + Text.bytes text + 1 := by
      have size : ' '.utf8Size = 1 := rfl
      rw [spelling_enclosedTokens isBlock reads]
      simp only [Text.bytes_cons, Text.bytes_append, Text.bytes_nil, size]
      omega
    rw [opens, space, isBlock.lexemesFrom_words reads, closes,
      blockTokens.eq_1 (enclosedTokens header text words inside), length]
    simp only [enclosedTokens, List.cons_append, List.append_assoc, List.nil_append]
  · have simple : ∀ token ∈ words.map (·.token), token.isSimple = true :=
      List.forall_mem_map.2 fun word member => Token.isSimple_of_isWord (reads.areWords word member)
    have block := isSealed_append [] [.whitespace] isBlock.isSealed
    rw [enclosedTokens, List.map_cons, isSealed_leaf rfl rfl, List.map_append, tokens_shift,
      isSealed_simple simple, List.map_append, tokens_shift, blockTokens, List.map_cons,
      List.map_append, List.cons_append, List.append_assoc]
    exact block

end Css

end ScssLint
