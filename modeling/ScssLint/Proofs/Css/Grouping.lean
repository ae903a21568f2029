import ScssLint.Css.Forest

/-! # Grouping what is closed

A forest in which every opening bracket has its closing bracket is read back from its tokens,
whatever follows (`Css.Forest.levels_append`). So a text is read as such a forest where
the lexer finds the tokens of the forest in it (`Css.Reads.ofText`).
-/

namespace ScssLint

namespace Css

namespace Forest

def append : Forest → Forest → Forest
  | nil, behind => behind
  | leaf lexeme rest, behind => leaf lexeme (rest.append behind)
  | block opener body close? rest, behind => block opener body close? (rest.append behind)

@[simp] theorem append_nil (forest : Forest) : forest.append nil = forest := by
  induction forest with
  | nil => rfl
  | leaf lexeme rest ih => rw [append, ih]
  | block opener body close? rest _ ih => rw [append, ih]

theorem append_assoc (first second third : Forest) :
    (first.append second).append third = first.append (second.append third) := by
  induction first with
  | nil => rfl
  | leaf lexeme rest ih => rw [append, append, append, ih]
  | block opener body close? rest _ ih => rw [append, append, append, ih]

theorem lexemes_append (forest behind : Forest) :
    (forest.append behind).lexemes = forest.lexemes ++ behind.lexemes := by
  induction forest with
  | nil => rfl
  | leaf lexeme rest ih => rw [append, lexemes, ih, lexemes, List.cons_append]
  | block opener body close? rest _ ih =>
      rw [append, lexemes, ih, lexemes]
      simp only [List.cons_append, List.append_assoc]

/-- Tokens without brackets among them. -/
def leaves (tokens : List Lexeme) : Forest :=
  tokens.foldr leaf nil

@[simp] theorem lexemes_leaves (tokens : List Lexeme) : (leaves tokens).lexemes = tokens := by
  induction tokens with
  | nil => rfl
  | cons lexeme tokens ih =>
      change lexeme :: (leaves tokens).lexemes = _
      rw [ih]

/-- Whether no bracket of a forest lacks the one that closes it. -/
inductive IsClosed : Forest → Prop
  | nil : IsClosed nil
  | leaf {lexeme : Lexeme} {rest : Forest} : lexeme.token.opens? = none →
      lexeme.token.closes? = none → IsClosed rest → IsClosed (leaf lexeme rest)
  | block {opener close : Lexeme} {body rest : Forest} {bracket : Bracket} :
      opener.token.opens? = some bracket → close.token.closes? = some bracket → IsClosed body →
      IsClosed rest → IsClosed (block opener body (some close) rest)

namespace IsClosed

variable {forest behind : Forest}

theorem append (first : IsClosed forest) (second : IsClosed behind) :
    IsClosed (forest.append behind) := by
  induction first with
  | nil => exact second
  | leaf opensNone closesNone _ ih => exact .leaf opensNone closesNone ih
  | block opens closes body _ _ ih => exact .block opens closes body ih

theorem leaves {tokens : List Lexeme}
    (plain : ∀ lexeme ∈ tokens, lexeme.token.opens? = none ∧ lexeme.token.closes? = none) :
    IsClosed (Forest.leaves tokens) := by
  induction tokens with
  | nil => exact .nil
  | cons lexeme tokens ih =>
      obtain ⟨first, others⟩ := List.forall_mem_cons.1 plain
      exact .leaf first.1 first.2 (ih others)

end IsClosed

/-- A token that neither opens a block nor closes the innermost one. -/
theorem levels_stray {lexeme : Lexeme} {opened : List Bracket}
    (opensNone : lexeme.token.opens? = none)
    (apart : ∀ bracket ∈ opened.head?, lexeme.token.closes? ≠ some bracket) (rest : List Lexeme) :
    levels opened (lexeme :: rest) =
      (leaf lexeme (levels opened rest).1, (levels opened rest).2) := by
  have stays : ¬ (opened.head?.isSome = true ∧ lexeme.token.closes? = opened.head?) := by
    rintro ⟨inside, same⟩
    obtain ⟨bracket, first⟩ := Option.isSome_iff_exists.1 inside
    exact apart bracket first (same.trans first)
  rw [levels, if_neg stays, opensNone]

theorem levels_leaf {lexeme : Lexeme} (opensNone : lexeme.token.opens? = none)
    (closesNone : lexeme.token.closes? = none) (opened : List Bracket) (rest : List Lexeme) :
    levels opened (lexeme :: rest) =
      (leaf lexeme (levels opened rest).1, (levels opened rest).2) := by
  refine levels_stray opensNone (fun bracket _ closes => ?_) rest
  rw [closesNone] at closes
  exact absurd closes.symm (Option.some_ne_none _)

theorem levels_close {close : Lexeme} {bracket : Bracket}
    (closes : close.token.closes? = some bracket) (opened : List Bracket) (rest : List Lexeme) :
    levels (bracket :: opened) (close :: rest) =
      (nil, (some close, (levels opened rest).1) :: (levels opened rest).2) := by
  rw [levels, if_pos ⟨rfl, closes⟩]
  rfl

theorem levels_open {opener : Lexeme} {bracket : Bracket}
    (opens : opener.token.opens? = some bracket) {opened : List Bracket} {rest : List Lexeme}
    {body inner : Forest} {close? : Option Lexeme} {outer : List (Option Lexeme × Forest)}
    (inside : levels (bracket :: opened) rest = (body, (close?, inner) :: outer)) :
    levels opened (opener :: rest) = (block opener body close? inner, outer) := by
  have closesNone : opener.token.closes? = none := by
    cases token : opener.token <;> first | rfl | (rw [token] at opens; exact absurd opens.symm (Option.some_ne_none _))
  have stays : ¬ (opened.head?.isSome = true ∧ opener.token.closes? = opened.head?) := by
    rw [closesNone]
    rintro ⟨some, same⟩
    rw [← same] at some
    exact Bool.noConfusion some
  rw [levels, if_neg stays, opens]
  simp only [inside]

/-- **A closed forest is read back in front of any other tokens.** -/
theorem levels_append {forest : Forest} (closed : IsClosed forest) (opened : List Bracket)
    (rest : List Lexeme) :
    levels opened (forest.lexemes ++ rest) =
      (forest.append (levels opened rest).1, (levels opened rest).2) := by
  induction closed generalizing opened rest with
  | nil => rfl
  | @leaf lexeme tail opensNone closesNone _ ih =>
      rw [lexemes, List.cons_append, levels_leaf opensNone closesNone, ih]
      rfl
  | @block opener close body tail bracket opens closes _ _ inner later =>
      have order : (block opener body (some close) tail).lexemes ++ rest =
          opener :: (body.lexemes ++ close :: (tail.lexemes ++ rest)) := by
        simp [lexemes]
      have inside := inner (bracket :: opened) (close :: (tail.lexemes ++ rest))
      rw [levels_close closes, later, append_nil] at inside
      rw [order, levels_open opens inside, append]

/-- A closed forest is read back from its tokens. -/
theorem ofLexemes_lexemes {forest : Forest} (closed : IsClosed forest) :
    ofLexemes forest.lexemes = forest := by
  have read := levels_append closed [] []
  rw [List.append_nil] at read
  rw [ofLexemes, read]
  exact append_nil forest

end Forest

/-- Whether the lexer finds exactly the tokens of a closed forest in `text`, which starts at
`offset`, when `rest` follows. -/
structure Reads (offset : Nat) (text rest : Text) (forest : Forest) : Prop where
  closed : forest.IsClosed
  found : lexemesFrom offset (text ++ rest) =
    forest.lexemes ++ lexemesFrom (offset + Text.bytes text) rest

namespace Reads

variable {offset : Nat} {text rest : Text} {forest : Forest}

theorem append {behind : Text} {later : Forest} (first : Reads offset text (behind ++ rest) forest)
    (second : Reads (offset + Text.bytes text) behind rest later) :
    Reads offset (text ++ behind) rest (forest.append later) := by
  refine ⟨first.closed.append second.closed, ?_⟩
  rw [List.append_assoc, first.found, second.found, Forest.lexemes_append, Text.bytes_append,
    List.append_assoc, Nat.add_assoc]

/-- **A text that holds the tokens of a closed forest is read as that forest.** -/
theorem ofText (reads : Reads 0 text [] forest) : Forest.ofText text = forest := by
  have found := reads.found
  have ended : lexemesFrom (0 + Text.bytes text) [] = [] := by
    rw [lexemesFrom]
  rw [List.append_nil, ended, List.append_nil] at found
  rw [Forest.ofText, Css.lexemes, found, Forest.ofLexemes_lexemes reads.closed]

end Reads

end Css

end ScssLint
