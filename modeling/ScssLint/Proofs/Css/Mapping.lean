import ScssLint.Proofs.Css.Tokens

/-! # Tokens that are moved or respelled

Grouping looks at what tokens are, not at their places and their spelling. So a change of tokens
that keeps what they are carries over to the blocks and the pieces that they make
(`Css.Forest.ofLexemes_map`, `Css.Forest.pieces_map`). A text that stands elsewhere is cut into the
same tokens, moved (`Css.lexemesFrom_shift`).
-/

namespace ScssLint

namespace Css

/-- The token in a text with `distance` more bytes in front. -/
def Lexeme.shift (distance : Nat) (lexeme : Lexeme) : Lexeme :=
  { lexeme with start := distance + lexeme.start }

theorem lexemesFrom_shift (distance offset : Nat) (text : Text) :
    lexemesFrom (distance + offset) text = (lexemesFrom offset text).map (.shift distance) := by
  fun_induction lexemesFrom offset text with
  | case1 => rw [lexemesFrom, List.map_nil]
  | case2 offset c rest token more cut taken ih =>
      rw [lexemesFrom_cons, cut, Nat.add_assoc, ih, List.map_cons]
      rfl

/-- The tokens of a text from `offset` on. -/
theorem lexemesFrom_eq_map (offset : Nat) (text : Text) :
    lexemesFrom offset text = (lexemes text).map (.shift offset) :=
  lexemesFrom_shift offset 0 text

@[simp] theorem lexemes_nil : lexemes [] = [] := by
  rw [lexemes, lexemesFrom]

theorem lexemes_cons (c : Char) (text : Text) :
    lexemes (c :: text) =
      ⟨(munch c text).1, 0, c :: text.take (munch c text).2⟩ ::
        (lexemes (text.drop (munch c text).2)).map
          (.shift (Text.bytes (c :: text.take (munch c text).2))) := by
  rw [lexemes, lexemesFrom_cons, lexemesFrom_eq_map, Nat.zero_add]

@[simp] theorem map_shift_zero (tokens : List Lexeme) : tokens.map (Lexeme.shift 0) = tokens := by
  have same : Lexeme.shift 0 = id := funext fun lexeme => by
    rw [Lexeme.shift, Nat.zero_add]
    rfl
  rw [same, List.map_id]

theorem map_shift_shift (distance more : Nat) (tokens : List Lexeme) :
    (tokens.map (Lexeme.shift more)).map (Lexeme.shift distance) =
      tokens.map (Lexeme.shift (distance + more)) := by
  rw [List.map_map]
  refine List.map_congr_left fun lexeme _ => ?_
  simp only [Function.comp, Lexeme.shift, Nat.add_assoc]

/-- Whether a change of tokens keeps what they are. -/
def KeepsTokens (change : Lexeme → Lexeme) : Prop :=
  ∀ lexeme, (change lexeme).token = lexeme.token

theorem keepsTokens_shift (distance : Nat) : KeepsTokens (.shift distance) :=
  fun _ => rfl

namespace Forest

variable {change : Lexeme → Lexeme}

/-- The forest of the changed tokens. -/
def map (change : Lexeme → Lexeme) : Forest → Forest
  | nil => nil
  | leaf lexeme rest => leaf (change lexeme) (rest.map change)
  | block opener body close? rest =>
      block (change opener) (body.map change) (close?.map change) (rest.map change)

theorem lexemes_map (change : Lexeme → Lexeme) (forest : Forest) :
    (forest.map change).lexemes = forest.lexemes.map change := by
  induction forest with
  | nil => rfl
  | leaf lexeme rest ih => rw [map, lexemes, ih, lexemes, List.map_cons]
  | block opener body close? rest inner later =>
      rw [map, lexemes, inner, later, lexemes]
      cases close? <;> simp

/-- The levels of the changed tokens. -/
def Levels.map (change : Lexeme → Lexeme) (levels : Levels) : Levels :=
  (levels.1.map change, levels.2.map fun (close?, forest) => (close?.map change, forest.map change))

theorem levels_map (keeps : KeepsTokens change) (opened : List Bracket) (tokens : List Lexeme) :
    levels opened (tokens.map change) = (levels opened tokens).map change := by
  induction tokens generalizing opened with
  | nil =>
      rw [List.map_nil, levels, Levels.map, List.map_map]
      rfl
  | cons lexeme tokens ih =>
      rw [List.map_cons, levels, levels, keeps lexeme]
      by_cases closes : opened.head?.isSome = true ∧ lexeme.token.closes? = opened.head?
      · rw [if_pos closes, if_pos closes, ih]
        rfl
      · rw [if_neg closes, if_neg closes]
        cases lexeme.token.opens? with
        | none =>
            dsimp only
            rw [ih]
            rfl
        | some bracket =>
            dsimp only
            rw [ih]
            obtain ⟨body, outer⟩ := levels (bracket :: opened) tokens
            cases outer with
            | nil => rfl
            | cons entry outer => rfl

/-- **Changed tokens make the same blocks.** -/
theorem ofLexemes_map (keeps : KeepsTokens change) (tokens : List Lexeme) :
    ofLexemes (tokens.map change) = (ofLexemes tokens).map change := by
  rw [ofLexemes, levels_map keeps]
  rfl

end Forest

/-- The piece of the changed tokens. -/
def Piece.map (change : Lexeme → Lexeme) (piece : Piece) : Piece where
  lead := piece.lead.map change
  head := change piece.head
  block? := piece.block?.map fun (body, close?) => (body.map change, close?.map change)

section Pieces

variable {change : Lexeme → Lexeme}

theorem Piece.token_map (keeps : KeepsTokens change) (piece : Piece) :
    (piece.map change).token = piece.token :=
  keeps piece.head

theorem Piece.body_map (change : Lexeme → Lexeme) (piece : Piece) :
    (piece.map change).body = piece.body.map change := by
  obtain ⟨lead, head, block?⟩ := piece
  cases block? <;> rfl

theorem Piece.lexemes_map (change : Lexeme → Lexeme) (piece : Piece) :
    (piece.map change).lexemes = piece.lexemes.map change := by
  obtain ⟨lead, head, block?⟩ := piece
  rcases block? with _ | ⟨body, close?⟩
  · simp [map, lexemes]
  · cases close? <;> simp [map, lexemes, Forest.lexemes_map]

namespace Forest

theorem piecesBehind_map (keeps : KeepsTokens change) (lead : List Lexeme) (forest : Forest) :
    (forest.map change).piecesBehind (lead.map change) =
      (forest.piecesBehind lead).map (.map change) := by
  induction forest generalizing lead with
  | nil => rfl
  | leaf lexeme rest ih =>
      rw [map, piecesBehind, piecesBehind, keeps lexeme]
      by_cases comment : lexeme.token = .comment
      · rw [if_pos comment, if_pos comment, ← ih, List.map_append, List.map_singleton]
      · rw [if_neg comment, if_neg comment, List.map_cons, ← ih]
        rfl
  | block opener body close? rest _ ih =>
      rw [map, piecesBehind, piecesBehind, List.map_cons, ← ih]
      rfl

/-- **Changed tokens make the same pieces.** -/
theorem pieces_map (keeps : KeepsTokens change) (forest : Forest) :
    (forest.map change).pieces = forest.pieces.map (.map change) :=
  piecesBehind_map keeps [] forest

end Forest

end Pieces

end Css

end ScssLint
