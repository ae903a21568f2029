import ScssLint.Proofs.Css.Balance
import ScssLint.Proofs.Css.Endings

/-! # Complete texts

A text is complete if nothing in it is left open: no bracket, no string, no `url(` token, no comment
and no escape (`Css.IsComplete`). Its tokens, its blocks and its pieces are the same in front of a
comma (`Css.pieces_comma`).
-/

namespace ScssLint

namespace Css

/-- Whether some tokens close every bracket that they open and those of `opened`. A bracket that
closes nothing is an ordinary token. -/
def closesBrackets (opened : List Bracket) : List Token → Bool
  | [] => opened.isEmpty
  | token :: tokens =>
      if opened.head?.isSome ∧ token.closes? = opened.head? then
        closesBrackets opened.tail tokens
      else
        match token.opens? with
        | none => closesBrackets opened tokens
        | some bracket => closesBrackets (bracket :: opened) tokens

/-- Whether nothing is left open in a text. -/
structure IsComplete (text : Text) : Prop where
  brackets : closesBrackets [] ((lexemes text).map (·.token)) = true
  finished : ∀ lexeme ∈ lexemes text, lexeme.isFinished = true
  noEscape : text.getLast? ≠ some '\\'

instance (text : Text) : Decidable (IsComplete text) :=
  decidable_of_iff (closesBrackets [] ((lexemes text).map (·.token)) = true ∧
      (∀ lexeme ∈ lexemes text, lexeme.isFinished = true) ∧ text.getLast? ≠ some '\\')
    ⟨fun ⟨brackets, finished, noEscape⟩ => ⟨brackets, finished, noEscape⟩,
      fun ⟨brackets, finished, noEscape⟩ => ⟨brackets, finished, noEscape⟩⟩

section Tokens

variable {text other : Text}

theorem dangles_of_getLast? {escaped : Bool} (written : text ≠ [])
    (noEscape : text.getLast? ≠ some '\\') : dangles escaped text = false := by
  induction text generalizing escaped with
  | nil => exact absurd rfl written
  | cons c text ih =>
      cases text with
      | nil =>
          have other : (c == '\\') = false := by
            refine beq_eq_false_iff_ne.2 ?_
            rintro rfl
            exact noEscape rfl
          rw [dangles, other, Bool.and_false, dangles]
      | cons d text => exact ih (List.cons_ne_nil _ _) noEscape

theorem getLast?_drop (noEscape : text.getLast? ≠ some '\\') (count : Nat) :
    (text.drop count).getLast? ≠ some '\\' := by
  rw [List.getLast?_drop]
  split
  · exact (Option.some_ne_none _).symm
  · exact noEscape

theorem isCalm_of_getLast? {c : Char} (noEscape : (c :: text).getLast? ≠ some '\\')
    (noSpace : SpacesMeet [] other) : IsCalm (c :: text) [] other :=
  ⟨.inl (dangles_of_getLast? (List.cons_ne_nil _ _) noEscape), .inl noSpace⟩

/-- The first token of such a text. -/
theorem munch_append {c : Char} (meets : Meets [] other) (noStar : other.head? ≠ some '*')
    (noSpace : SpacesMeet [] other) (noEscape : (c :: text).getLast? ≠ some '\\') {offset : Nat}
    (finished : (⟨(munch c text).1, offset, c :: text.take (munch c text).2⟩ : Lexeme).isFinished =
      true) :
    (munch c text).2 ≤ text.length ∧ munch c (text ++ other) = munch c text := by
  by_cases ends : (munch c text).1.endsItself = true
  · by_cases function : ∃ named, (munch c text).1 = .function named
    · obtain ⟨named, function⟩ := function
      have cut : munch c text = (.function named, (munch c text).2) := Prod.ext function rfl
      obtain ⟨inside, same⟩ := munch_of_function other cut
      exact ⟨inside, same.trans cut.symm⟩
    · have closed (more : Text) := munch_of_isFinished more rfl ends
        (fun named same => function ⟨named, same⟩) finished
      have here := closed (text.drop (munch c text).2)
      rw [List.take_append_drop] at here
      have length := congrArg Prod.snd here
      rw [List.length_take] at length
      have inside : (munch c text).2 ≤ text.length := by
        dsimp only at length
        omega
      refine ⟨inside, ?_⟩
      have there := closed (text.drop (munch c text).2 ++ other)
      rw [← List.append_assoc, List.take_append_drop] at there
      exact there.trans here.symm
  · have free := endsFreely_munch (Bool.eq_false_iff.2 ends)
    have nothing : text ++ [] = text := List.append_nil text
    refine ⟨free.within, ?_⟩
    rw [← nothing] at free
    have same := munch_meets meets (isCalm_of_getLast? noEscape noSpace) (fun _ _ => noStar)
      (fun _ _ => noSpace) (nothing.symm ▸ free)
    rwa [nothing] at same

/-- **The tokens of a text in which none is left open** are the same in front of another text with
which none of them goes on. -/
theorem lexemesFrom_append (meets : Meets [] other) (noStar : other.head? ≠ some '*')
    (noSpace : SpacesMeet [] other) {offset : Nat}
    (finished : ∀ lexeme ∈ lexemesFrom offset text, lexeme.isFinished = true)
    (noEscape : text.getLast? ≠ some '\\') :
    lexemesFrom offset (text ++ other) =
      lexemesFrom offset text ++ lexemesFrom (offset + Text.bytes text) other := by
  induction text using induct_drop generalizing offset with
  | nil =>
      rw [lexemesFrom]
      rfl
  | cons c text ih =>
      rw [lexemesFrom_cons, List.forall_mem_cons] at finished
      obtain ⟨here, behind⟩ := finished
      obtain ⟨inside, same⟩ := munch_append meets noStar noSpace noEscape here
      have later := ih (munch c text).2 behind
        (@getLast?_drop (c :: text) noEscape ((munch c text).2 + 1))
      have bytes := bytes_cons_take_drop c text (munch c text).2
      rw [List.cons_append, lexemesFrom_cons, lexemesFrom_cons, same,
        List.take_append_of_le_length inside, List.drop_append_of_le_length inside, later,
        bytes, ← Nat.add_assoc, List.cons_append]

end Tokens

namespace Forest

/-- The levels with a forest behind the outermost one. -/
def outermost (behind forest : Forest) : List (Option Lexeme × Forest) → Levels
  | [] => (forest.append behind, [])
  | (close?, inner) :: outer =>
      (forest, (close?, (outermost behind inner outer).1) :: (outermost behind inner outer).2)

theorem outermost_leaf (behind : Forest) (lexeme : Lexeme) (forest : Forest)
    (outer : List (Option Lexeme × Forest)) :
    outermost behind (leaf lexeme forest) outer =
      (leaf lexeme (outermost behind forest outer).1, (outermost behind forest outer).2) := by
  cases outer <;> rfl

theorem outermost_block (behind : Forest) (opener : Lexeme) (body : Forest) (close? : Option Lexeme)
    (forest : Forest) (outer : List (Option Lexeme × Forest)) :
    outermost behind (block opener body close? forest) outer =
      (block opener body close? (outermost behind forest outer).1,
        (outermost behind forest outer).2) := by
  cases outer <;> rfl

/-- **Tokens that close what they open make the same blocks in front of other ones.** -/
theorem levels_closesBrackets {opened : List Bracket} {tokens : List Lexeme}
    (closes : closesBrackets opened (tokens.map (·.token)) = true) (later : List Lexeme) :
    levels opened (tokens ++ later) =
      outermost (ofLexemes later) (levels opened tokens).1 (levels opened tokens).2 := by
  induction tokens generalizing opened with
  | nil =>
      obtain rfl := List.isEmpty_iff.1 closes
      have none := length_levels [] later
      rw [List.length_nil, List.length_eq_zero_iff] at none
      exact Prod.ext rfl none
  | cons lexeme tokens ih =>
      rw [List.map_cons, closesBrackets] at closes
      rw [List.cons_append, levels, levels]
      by_cases ends : opened.head?.isSome = true ∧ lexeme.token.closes? = opened.head?
      · rw [if_pos ends] at closes
        rw [if_pos ends, if_pos ends, ih closes]
        rfl
      · rw [if_neg ends] at closes
        rw [if_neg ends, if_neg ends]
        cases opens : lexeme.token.opens? with
        | none =>
            rw [opens] at closes
            dsimp only
            rw [ih closes, outermost_leaf]
        | some bracket =>
            rw [opens] at closes
            have length := length_levels (bracket :: opened) tokens
            dsimp only
            rw [ih closes]
            generalize levels (bracket :: opened) tokens = found at length
            obtain ⟨body, outer⟩ := found
            cases outer with
            | nil => exact absurd length (Nat.succ_ne_zero _).symm
            | cons entry outer =>
                dsimp only
                rw [outermost_block]
                rfl

/-- **The blocks of tokens that close what they open**, in front of other ones. -/
theorem ofLexemes_append {tokens : List Lexeme}
    (closes : closesBrackets [] (tokens.map (·.token)) = true) (later : List Lexeme) :
    ofLexemes (tokens ++ later) = (ofLexemes tokens).append (ofLexemes later) := by
  have none := length_levels [] tokens
  rw [List.length_nil, List.length_eq_zero_iff] at none
  rw [ofLexemes, levels_closesBrackets closes, none]
  rfl

/-- The pieces around a token that is none of a name. -/
theorem pieces_append_leaf {lexeme : Lexeme} (noComment : lexeme.token ≠ .comment)
    (forest behind : Forest) (lead : List Lexeme) :
    ∃ comments, (forest.append (leaf lexeme behind)).piecesBehind lead =
      forest.piecesBehind lead ++ ⟨comments, lexeme, none⟩ :: behind.pieces := by
  induction forest generalizing lead with
  | nil =>
      refine ⟨lead, ?_⟩
      rw [append, piecesBehind.eq_2, if_neg noComment]
      rfl
  | leaf first rest ih =>
      by_cases comment : first.token = .comment
      · obtain ⟨comments, same⟩ := ih (lead ++ [first])
        refine ⟨comments, ?_⟩
        rw [append, piecesBehind, if_pos comment, same, piecesBehind, if_pos comment]
      · obtain ⟨comments, same⟩ := ih []
        refine ⟨comments, ?_⟩
        rw [append, piecesBehind, if_neg comment, same, piecesBehind, if_neg comment,
          List.cons_append]
  | block opener body close? rest _ ih =>
      obtain ⟨comments, same⟩ := ih []
      refine ⟨comments, ?_⟩
      rw [append, piecesBehind, same, piecesBehind, List.cons_append]

end Forest

/-- **The pieces of a complete text, a comma and another text.** -/
theorem pieces_comma {text : Text} (complete : IsComplete text) (more : Text) :
    ∃ comma : Piece, comma.token = .comma ∧
      (Forest.ofText (text ++ ',' :: more)).pieces =
        (Forest.ofText text).pieces ++ comma ::
          (Forest.ofText more).pieces.map (.map (.shift (Text.bytes text + 1))) := by
  have meets : Meets [] (',' :: more) := ⟨rfl, rfl, rfl, by simp⟩
  have noSpace : SpacesMeet [] (',' :: more) := by
    intro c first space
    obtain rfl := Option.some.inj first
    exact Bool.noConfusion space
  have cut : lexemes (text ++ ',' :: more) =
      lexemes text ++ ⟨.comma, Text.bytes text, [',']⟩ ::
        (lexemes more).map (.shift (Text.bytes text + 1)) := by
    rw [lexemes, lexemesFrom_append meets (by simp) noSpace complete.finished complete.noEscape,
      Nat.zero_add]
    exact congrArg _ ((lexes_comma more _).trans (congrArg _ (lexemesFrom_eq_map _ more)))
  have read : Forest.ofText (text ++ ',' :: more) = (Forest.ofText text).append
      (.leaf ⟨.comma, Text.bytes text, [',']⟩
        ((Forest.ofText more).map (.shift (Text.bytes text + 1)))) := by
    rw [Forest.ofText, cut, Forest.ofLexemes_append complete.brackets,
      Forest.ofLexemes_leaf rfl, Forest.ofLexemes_map (keepsTokens_shift _)]
    rfl
  obtain ⟨comments, pieces⟩ := @Forest.pieces_append_leaf ⟨.comma, Text.bytes text, [',']⟩
    Token.noConfusion (Forest.ofText text)
    ((Forest.ofText more).map (.shift (Text.bytes text + 1))) []
  refine ⟨⟨comments, ⟨.comma, Text.bytes text, [',']⟩, none⟩, rfl, ?_⟩
  rw [read, Forest.pieces, pieces, Forest.pieces_map (keepsTokens_shift _)]
  rfl

end Css

end ScssLint
