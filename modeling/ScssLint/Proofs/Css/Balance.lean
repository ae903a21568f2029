import ScssLint.Proofs.Css.Grouping
import ScssLint.Proofs.Css.Locality
import ScssLint.Proofs.Css.Mapping

/-! # Balanced texts

A text is balanced if its brackets match and it can stand in curly brackets (`Css.IsBalanced`). Such
a block ends at its closing bracket whatever follows it (`Css.Forest.ofLexemes_block`), so an
interpolation is read as two pieces (`Css.pieces_interpolation`).
-/

namespace ScssLint

namespace Css

/-- Whether each closing bracket among some tokens belongs to the innermost bracket that is open in
front of it, those of `opened` included, and no bracket is left open. -/
def bracketsMatch (opened : List Bracket) : List Token → Bool
  | [] => opened.isEmpty
  | token :: tokens =>
      match token.opens?, token.closes? with
      | some bracket, _ => bracketsMatch (bracket :: opened) tokens
      | none, some bracket => opened.head? == some bracket && bracketsMatch opened.tail tokens
      | none, none => bracketsMatch opened tokens

/-- Whether a closing curly bracket behind a text is a token of its own and the brackets in front of
it match. -/
def IsBalanced (content : Text) : Prop :=
  (lexemes (content ++ ['\x7D'])).getLast? =
      some ⟨.closing .curly, Text.bytes content, ['\x7D']⟩ ∧
    bracketsMatch [] ((lexemes (content ++ ['\x7D'])).dropLast.map (·.token)) = true

instance (content : Text) : Decidable (IsBalanced content) :=
  inferInstanceAs (Decidable (_ ∧ _))

/-- Whether some tokens inside the brackets `opened` close every bracket that they open and those of
`opened`, and no other curly bracket outside of all of them. A parenthesis or square bracket that
closes nothing is an ordinary token. -/
def isSealed (opened : List Bracket) : List Token → Bool
  | [] => opened.isEmpty
  | token :: tokens =>
      match token.opens?, token.closes? with
      | some bracket, _ => isSealed (bracket :: opened) tokens
      | none, some bracket =>
          if opened.head? = some bracket then
            isSealed opened.tail tokens
          else
            (bracket != .curly || !opened.isEmpty) && isSealed opened tokens
      | none, none => isSealed opened tokens

theorem isSealed_of_bracketsMatch {opened : List Bracket} {tokens : List Token}
    (balanced : bracketsMatch opened tokens = true) : isSealed opened tokens = true := by
  induction tokens generalizing opened with
  | nil => exact balanced
  | cons token tokens ih =>
      rw [bracketsMatch] at balanced
      rw [isSealed]
      split at balanced
      · exact ih balanced
      · obtain ⟨first, others⟩ := Bool.and_eq_true_iff.1 balanced
        rw [if_pos (by simpa using first)]
        exact ih others
      · exact ih balanced

/-- A bracket that closes nothing is none that closes the block around sealed tokens. -/
theorem apart_of_stray {inner outer : List Bracket} {token : Token} {bracket : Bracket}
    (closes : token.closes? = some bracket) (stray : inner.head? ≠ some bracket)
    (harmless : (bracket != .curly || !inner.isEmpty) = true) :
    (∀ top ∈ inner.head?, token.closes? ≠ some top) ∧
      ∀ top ∈ (inner ++ .curly :: outer).head?, token.closes? ≠ some top := by
  rw [closes]
  cases inner with
  | nil =>
      refine ⟨fun top first => absurd first (Option.not_mem_none _), fun top first same => ?_⟩
      obtain rfl := Option.some.inj same
      obtain rfl := Option.some.inj first
      exact Bool.noConfusion harmless
  | cons top inner =>
      have other : ∀ found ∈ (top :: inner).head?, some bracket ≠ some found :=
        fun found first same => stray (first.trans same.symm)
      exact ⟨other, other⟩

namespace Forest

/-- **Sealed tokens close exactly the blocks in which they stand**, inside any other blocks as
outside of them. -/
theorem levels_sealed {inner : List Bracket} {tokens : List Lexeme} {close : Lexeme}
    (outer : List Bracket) (later : List Lexeme)
    (isSealed : isSealed inner (tokens.map (·.token)) = true)
    (closes : close.token.closes? = some .curly) :
    levels (inner ++ .curly :: outer) (tokens ++ close :: later) =
      ((levels inner tokens).1,
        (levels inner tokens).2 ++
          (some close, (levels outer later).1) :: (levels outer later).2) := by
  induction tokens generalizing inner with
  | nil =>
      obtain rfl := List.isEmpty_iff.1 isSealed
      exact levels_close closes outer later
  | cons lexeme tokens ih =>
      rw [List.map_cons, Css.isSealed] at isSealed
      split at isSealed
      · rename_i bracket opens
        have inside := ih isSealed
        have length := length_levels (bracket :: inner) tokens
        cases shape : levels (bracket :: inner) tokens with
        | mk body entries =>
            rw [shape] at inside length
            cases entries with
            | nil => exact absurd length.symm (Nat.succ_ne_zero _)
            | cons entry entries =>
                obtain ⟨close?, behind⟩ := entry
                rw [levels_open opens shape]
                exact levels_open opens inside
      · rename_i bracket opensNone closesInner
        split at isSealed
        · rename_i innermost
          obtain ⟨inner, rfl⟩ := List.head?_eq_some_iff.1 innermost
          have inside := ih (show Css.isSealed inner _ = true from isSealed)
          rw [List.cons_append, List.cons_append, levels_close closesInner, inside,
            levels_close closesInner]
          rfl
        · rename_i stray
          obtain ⟨harmless, others⟩ := Bool.and_eq_true_iff.1 isSealed
          obtain ⟨apart, apart'⟩ := apart_of_stray closesInner stray harmless
          rw [List.cons_append, levels_stray opensNone apart', levels_stray opensNone apart,
            ih others]
      · rename_i opensNone closesNone
        rw [List.cons_append, levels_leaf opensNone closesNone, levels_leaf opensNone closesNone,
          ih isSealed]

/-- **A block ends at its closing bracket**, and what it holds is read as a text of its own. -/
theorem ofLexemes_block {opener close : Lexeme} {tokens : List Lexeme}
    (opens : opener.token = .opening .curly) (closes : close.token = .closing .curly)
    (isSealed : isSealed [] (tokens.map (·.token)) = true) (later : List Lexeme) :
    ofLexemes (opener :: (tokens ++ close :: later)) =
      block opener (ofLexemes tokens) (some close) (ofLexemes later) := by
  have inside := levels_sealed [] later isSealed
    (show close.token.closes? = some .curly by rw [closes]; rfl)
  have length := length_levels [] tokens
  rw [List.length_nil, List.length_eq_zero_iff] at length
  rw [length, List.nil_append, List.nil_append] at inside
  rw [ofLexemes, levels_open (by rw [opens]; rfl) inside, ofLexemes, ofLexemes]

theorem ofLexemes_leaf {lexeme : Lexeme} (opensNone : lexeme.token.opens? = none)
    (tokens : List Lexeme) : ofLexemes (lexeme :: tokens) = leaf lexeme (ofLexemes tokens) := by
  have stays : ¬ (([] : List Bracket).head?.isSome = true ∧
      lexeme.token.closes? = ([] : List Bracket).head?) := fun found => Bool.noConfusion found.1
  rw [ofLexemes, levels, if_neg stays, opensNone]
  rfl

end Forest

/-- The inside of a block where it stands. -/
theorem exists_lexemesFrom_curly {content : Text} {tokens : List Lexeme}
    (cut : lexemesFrom 0 (content ++ ['\x7D']) =
      tokens ++ [⟨.closing .curly, 0 + Text.bytes content, ['\x7D']⟩]) (start : Nat) (rest : Text) :
    ∃ inside, lexemesFrom start (content ++ '\x7D' :: rest) =
        inside ++ ⟨.closing .curly, start + Text.bytes content, ['\x7D']⟩ ::
          lexemesFrom (start + Text.bytes content + 1) rest ∧
      inside = tokens.map (.shift start) ∧ spelling inside = content := by
  have reads := lexemesFrom_eq_map start (content ++ '\x7D' :: rest)
  rw [lexemes, lexemesFrom_curly cut, List.map_append, List.map_cons, ← lexemesFrom_shift,
    Nat.zero_add, ← Nat.add_assoc] at reads
  refine ⟨_, reads, rfl, ?_⟩
  have whole := spelling_lexemesFrom start (content ++ '\x7D' :: rest)
  rw [reads, spelling_append, spelling_cons, spelling_lexemesFrom] at whole
  exact List.append_cancel_right whole

/-- **An interpolation is a sign and a block**, whatever follows it. -/
theorem pieces_interpolation {content : Text} (balanced : IsBalanced content) (offset : Nat)
    (rest : Text) :
    ∃ hash block,
      (Forest.ofLexemes (lexemesFrom offset
        ('#' :: '\x7B' :: (content ++ '\x7D' :: rest)))).pieces =
          hash :: block ::
            (Forest.ofLexemes (lexemesFrom (offset + Text.bytes content + 3) rest)).pieces ∧
      hash.token = .delim '#' ∧ hash.text = ['#'] ∧ block.token = .opening .curly ∧
      block.text = '\x7B' :: (content ++ ['\x7D']) := by
  obtain ⟨last, matching⟩ := balanced
  obtain ⟨tokens, cut⟩ := List.getLast?_eq_some_iff.1 last
  rw [cut, List.dropLast_concat] at matching
  rw [lexemes, ← Nat.zero_add (Text.bytes content)] at cut
  obtain ⟨inside, reads, same, spelled⟩ := exists_lexemesFrom_curly cut (offset + 2) rest
  have isSealed : isSealed [] (inside.map (·.token)) = true := by
    rw [same, List.map_map]
    exact isSealed_of_bracketsMatch matching
  have grouped := @Forest.ofLexemes_block ⟨.opening .curly, offset + 1, ['\x7B']⟩
    ⟨.closing .curly, offset + 2 + Text.bytes content, ['\x7D']⟩ inside rfl rfl isSealed
    (lexemesFrom (offset + 2 + Text.bytes content + 1) rest)
  have hash : lexemesFrom offset ('#' :: '\x7B' :: (content ++ '\x7D' :: rest)) =
      ⟨.delim '#', offset, ['#']⟩ :: ⟨.opening .curly, offset + 1, ['\x7B']⟩ ::
        lexemesFrom (offset + 2) (content ++ '\x7D' :: rest) :=
    (lexes_hash _ offset).trans (congrArg _ (lexes_opening _ (offset + 1)))
  have place : offset + 2 + Text.bytes content + 1 = offset + Text.bytes content + 3 := by omega
  refine ⟨⟨[], ⟨.delim '#', offset, ['#']⟩, none⟩, ⟨[], ⟨.opening .curly, offset + 1, ['\x7B']⟩,
    some (Forest.ofLexemes inside,
      some ⟨.closing .curly, offset + 2 + Text.bytes content, ['\x7D']⟩)⟩, ?_, rfl, rfl, rfl, ?_⟩
  · rw [hash, reads, Forest.ofLexemes_leaf rfl, grouped, place]
    rfl
  · have text : spelling ((Forest.ofLexemes inside).lexemes ++
        [⟨.closing .curly, offset + 2 + Text.bytes content, ['\x7D']⟩]) = content ++ ['\x7D'] := by
      rw [Forest.lexemes_ofLexemes, spelling_append, spelled]
      rfl
    exact congrArg ('\x7B' :: ·) text

end Css

end ScssLint
