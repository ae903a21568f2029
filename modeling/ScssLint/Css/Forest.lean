import ScssLint.Css.Lexer

/-!
# Nested blocks

Brackets group tokens into blocks.  Inside a block only its own closing bracket ends it; any other
closing bracket is an ordinary token there, and a block without its closing bracket runs to the end
of the text.  A forest is a text read in this way; it still holds every token
(`Forest.lexemes_ofLexemes`).
-/

namespace ScssLint

namespace Css

/-- A sequence of tokens and blocks. -/
inductive Forest where
  | nil
  /-- A token that opens no block. -/
  | leaf (lexeme : Lexeme) (rest : Forest)
  /-- A block; without `close?` it runs to the end of the text. -/
  | block (opener : Lexeme) (body : Forest) (close? : Option Lexeme) (rest : Forest)
deriving DecidableEq, Repr

namespace Forest

/-- The number of tokens and blocks at all depths. -/
def size : Forest → Nat
  | nil => 0
  | leaf _ rest => rest.size + 1
  | block _ body _ rest => body.size + rest.size + 1

/-- All tokens in order. -/
def lexemes : Forest → List Lexeme
  | nil => []
  | leaf lexeme rest => lexeme :: rest.lexemes
  | block opener body close? rest =>
      opener :: body.lexemes ++ close?.toList ++ rest.lexemes

/-- The text that the forest spells. -/
def text (forest : Forest) : Text :=
  forest.lexemes.flatMap (·.text)

/-- The length of the text in bytes. -/
def bytes : Forest → Nat
  | nil => 0
  | leaf lexeme rest => Text.bytes lexeme.text + rest.bytes
  | block opener body close? rest =>
      Text.bytes opener.text + body.bytes + (close?.elim 0 fun close => Text.bytes close.text) +
        rest.bytes

theorem bytes_text (forest : Forest) : Text.bytes forest.text = forest.bytes := by
  induction forest with
  | nil => rfl
  | leaf lexeme rest ih =>
      rw [bytes, ← ih]
      simp [text, lexemes]
  | block opener body close? rest hbody hrest =>
      rw [bytes, ← hbody, ← hrest]
      cases close? <;> simp [text, lexemes, Nat.add_assoc]

/-- What follows in the innermost open block, and behind each open block its closing bracket and
what follows it. -/
abbrev Levels := Forest × List (Option Lexeme × Forest)

/-- Read tokens inside the open blocks `opened`, innermost first. -/
def levels (opened : List Bracket) : List Lexeme → Levels
  | [] => (nil, opened.map fun _ => (none, nil))
  | lexeme :: rest =>
      if opened.head?.isSome ∧ lexeme.token.closes? = opened.head? then
        let (inner, outer) := levels opened.tail rest
        (nil, (some lexeme, inner) :: outer)
      else
        match lexeme.token.opens? with
        | none =>
            let (inner, outer) := levels opened rest
            (leaf lexeme inner, outer)
        | some bracket =>
            match levels (bracket :: opened) rest with
            | (body, (close?, inner) :: outer) => (block lexeme body close? inner, outer)
            | (body, []) => (block lexeme body none nil, [])

/-- Group tokens into blocks. -/
def ofLexemes (lexemes : List Lexeme) : Forest :=
  (levels [] lexemes).1

/-- Read a text as tokens and blocks. -/
def ofText (text : Text) : Forest :=
  ofLexemes (Css.lexemes text)

/-- The tokens of all levels in order. -/
def Levels.lexemes (levels : Levels) : List Lexeme :=
  levels.1.lexemes ++ levels.2.flatMap fun (close?, forest) => close?.toList ++ forest.lexemes

theorem length_levels (opened : List Bracket) (tokens : List Lexeme) :
    (levels opened tokens).2.length = opened.length := by
  induction tokens generalizing opened with
  | nil => simp [levels]
  | cons lexeme rest ih =>
      unfold levels
      split
      · rename_i hcloses
        cases opened with
        | nil => simp at hcloses
        | cons bracket outer => simp [ih]
      · split
        · simp [ih]
        · rename_i bracket _
          have hlength := ih (bracket :: opened)
          split <;> rename_i heq <;> simp_all

theorem lexemes_levels (opened : List Bracket) (tokens : List Lexeme) :
    (levels opened tokens).lexemes = tokens := by
  induction tokens generalizing opened with
  | nil =>
      induction opened with
      | nil => rfl
      | cons bracket outer ih => simp [levels, Levels.lexemes, Forest.lexemes]
  | cons lexeme rest ih =>
      unfold levels
      split
      · have hinner := ih opened.tail
        simp only [Levels.lexemes] at hinner ⊢
        simp [Forest.lexemes, hinner]
      · split
        · have hinner := ih opened
          simp only [Levels.lexemes] at hinner ⊢
          simp [Forest.lexemes, hinner]
        · rename_i bracket _
          have hinner := ih (bracket :: opened)
          have hlength := length_levels (bracket :: opened) rest
          split
          · rename_i body close? inner outer heq
            simp only [heq, Levels.lexemes, List.flatMap_cons] at hinner ⊢
            simp [Forest.lexemes, ← hinner]
          · rename_i body heq
            simp [heq] at hlength

/-- Grouping loses no token and moves none. -/
theorem lexemes_ofLexemes (tokens : List Lexeme) :
    (ofLexemes tokens).lexemes = tokens := by
  have hlevels := lexemes_levels [] tokens
  have hlength := length_levels [] tokens
  simp only [List.length_nil, List.length_eq_zero_iff] at hlength
  simpa [Levels.lexemes, hlength, ofLexemes] using hlevels

/-- The forest of a text spells the text. -/
theorem text_ofText (source : Text) : (ofText source).text = source := by
  simp [text, ofText, lexemes_ofLexemes, flatMap_text_lexemes]

end Forest

/-- A token or a block, with the comments in front of it. -/
structure Piece where
  /-- The comments in front. -/
  lead : List Lexeme
  /-- The token, or the opening bracket. -/
  head : Lexeme
  /-- What the block holds, and its closing bracket. -/
  block? : Option (Forest × Option Lexeme)
deriving DecidableEq, Repr

namespace Piece

/-- All tokens of the piece in order. -/
def lexemes (piece : Piece) : List Lexeme :=
  piece.lead ++ piece.head ::
    match piece.block? with
    | none => []
    | some (body, close?) => body.lexemes ++ close?.toList

/-- The text of the piece with the comments in front of it. -/
def text (piece : Piece) : Text :=
  piece.lexemes.flatMap (·.text)

/-- The token of the piece, or its opening bracket. -/
def token (piece : Piece) : Token :=
  piece.head.token

/-- The byte offset of the piece with the comments in front of it. -/
def start (piece : Piece) : Nat :=
  (piece.lead.headD piece.head).start

/-- The length of the piece in bytes, with the comments in front of it. -/
def bytes (piece : Piece) : Nat :=
  Text.bytes (piece.lead.flatMap (·.text)) + Text.bytes piece.head.text +
    match piece.block? with
    | none => 0
    | some (body, close?) => body.bytes + close?.elim 0 fun close => Text.bytes close.text

theorem bytes_text (piece : Piece) : Text.bytes piece.text = piece.bytes := by
  obtain ⟨lead, head, block?⟩ := piece
  rcases block? with _ | ⟨body, _ | close⟩
  · simp [text, lexemes, bytes]
  · simp [text, lexemes, bytes, ← Forest.bytes_text, Forest.text, Nat.add_assoc]
  · simp [text, lexemes, bytes, ← Forest.bytes_text, Forest.text, Nat.add_assoc]

/-- The byte offset behind the piece. -/
def stop (piece : Piece) : Nat :=
  piece.start + piece.bytes

/-- What the block holds; nothing for a single token. -/
def body (piece : Piece) : Forest :=
  match piece.block? with
  | none => .nil
  | some (body, _) => body

/-- A measure of the piece that is greater than the size of what its block holds. -/
def weight (piece : Piece) : Nat :=
  piece.body.size + 1

end Piece

/-- The text of some pieces with the comments in front of each. -/
def piecesText (pieces : List Piece) : Text :=
  pieces.flatMap (·.text)

/-- The sum of the weights of some pieces. -/
def weight : List Piece → Nat
  | [] => 0
  | piece :: rest => piece.weight + weight rest

@[simp] theorem weight_nil : weight [] = 0 := rfl

@[simp] theorem weight_cons (piece : Piece) (rest : List Piece) :
    weight (piece :: rest) = piece.weight + weight rest := rfl

theorem weight_append (pieces others : List Piece) :
    weight (pieces ++ others) = weight pieces + weight others := by
  induction pieces with
  | nil => rw [List.nil_append, weight_nil, Nat.zero_add]
  | cons piece pieces ih => rw [List.cons_append, weight_cons, weight_cons, ih, Nat.add_assoc]

theorem weight_lt_cons (piece : Piece) (rest : List Piece) :
    weight rest < weight (piece :: rest) := by
  simp [Piece.weight]

theorem weight_drop_le (count : Nat) (pieces : List Piece) :
    weight (pieces.drop count) ≤ weight pieces := by
  induction pieces generalizing count with
  | nil => simp
  | cons piece rest ih =>
      cases count with
      | zero => simp
      | succ count =>
          have := ih count
          simp only [List.drop_succ_cons, weight_cons]
          omega

namespace Forest

/-- The pieces of a forest behind the comments `lead`.  Comments behind the last piece are left
out. -/
def piecesBehind (lead : List Lexeme) : Forest → List Piece
  | nil => []
  | leaf lexeme rest =>
      if lexeme.token = .comment then
        piecesBehind (lead ++ [lexeme]) rest
      else
        ⟨lead, lexeme, none⟩ :: piecesBehind [] rest
  | block opener body close? rest =>
      ⟨lead, opener, some (body, close?)⟩ :: piecesBehind [] rest

/-- The pieces of a forest: its tokens and blocks without the comments. -/
def pieces (forest : Forest) : List Piece :=
  forest.piecesBehind []

theorem weight_piecesBehind_le (lead : List Lexeme) (forest : Forest) :
    weight (forest.piecesBehind lead) ≤ forest.size := by
  induction forest generalizing lead with
  | nil => simp [piecesBehind]
  | leaf lexeme rest ih =>
      unfold piecesBehind
      split
      · exact Nat.le_succ_of_le (ih _)
      · have := ih []
        simp only [weight_cons, Piece.weight, Piece.body, size]
        omega
  | block opener body close? rest _ ih =>
      have := ih []
      simp only [piecesBehind, weight_cons, Piece.weight, Piece.body, size]
      omega

/-- The pieces inside a block weigh less than the block. -/
theorem weight_pieces_body_lt (piece : Piece) :
    weight piece.body.pieces < piece.weight :=
  Nat.lt_succ_of_le (weight_piecesBehind_le [] piece.body)

end Forest

theorem weight_body_lt {pieces : List Piece} {piece : Piece} (member : piece ∈ pieces) :
    weight piece.body.pieces < weight pieces := by
  induction pieces with
  | nil => exact absurd member List.not_mem_nil
  | cons first rest ih =>
      rcases List.mem_cons.1 member with rfl | later
      · exact Nat.lt_of_lt_of_le (Forest.weight_pieces_body_lt piece) (Nat.le_add_right _ _)
      · exact Nat.lt_trans (ih later) (weight_lt_cons first rest)

end Css

end ScssLint
