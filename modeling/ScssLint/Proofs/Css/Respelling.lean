import ScssLint.Proofs.Comment.Found
import ScssLint.Proofs.Css.Locality
import ScssLint.Proofs.Css.Mapping

/-! # Comments with another text

A comment with another text of the same length leaves all other tokens as they are
(`Css.exists_lexemes_comment`), so it is respelled where it stands and nothing else is
(`Css.Stands.respelled`).
-/

namespace ScssLint

open Comment (blockText)

namespace Css

/-- The tokens behind some tokens are those of what they leave of the text. -/
theorem lexemesFrom_split {offset : Nat} {text : Text} {front back : List Lexeme}
    (split : lexemesFrom offset text = front ++ back) :
    back = lexemesFrom (offset + Text.bytes (spelling front)) (spelling back) := by
  induction front generalizing offset text with
  | nil =>
      have spelled := congrArg spelling split
      rw [List.nil_append] at split spelled
      rw [spelling_lexemesFrom] at spelled
      rw [spelling_nil, ← spelled, ← split]
      rfl
  | cons first front ih =>
      cases text with
      | nil =>
          rw [lexemesFrom] at split
          exact absurd split.symm (List.cons_ne_nil _ _)
      | cons c rest =>
          rw [lexemesFrom_cons] at split
          obtain ⟨rfl, others⟩ := List.cons.inj split
          have behind := ih others
          rwa [Nat.add_assoc, ← Text.bytes_append] at behind

/-- **A comment with another text leaves the tokens around it alone.** -/
theorem exists_lexemes_comment {front body behind : Text}
    (read : ∃ lexeme ∈ lexemes (front ++ (blockText body ++ behind)),
      lexeme.start = Text.bytes front) :
    ∃ before after, ∀ body', ¬ ['*', '/'] <:+: body' → Text.bytes body' = Text.bytes body →
      lexemes (front ++ (blockText body' ++ behind)) =
        before ++ ⟨.comment, Text.bytes front, blockText body'⟩ :: after := by
  obtain ⟨lexeme, member, start⟩ := read
  obtain ⟨before, after, split⟩ := List.append_of_mem member
  have place := (placed_lexemesFrom split).1
  have spelled := congrArg spelling split
  rw [lexemes, spelling_lexemesFrom, spelling_append] at spelled
  obtain ⟨same, rest⟩ := Text.append_inj_of_bytes spelled (by omega)
  have cut := lexemesFrom_split split
  rw [← same, ← rest] at cut
  rw [cut] at split
  refine ⟨before, lexemesFrom (Text.bytes front + Text.bytes (blockText body)) behind,
    fun body' noCloser' length => ?_⟩
  have comment : lexemesFrom (Text.bytes front) (blockText body' ++ behind) =
      ⟨.comment, Text.bytes front, blockText body'⟩ ::
        lexemesFrom (Text.bytes front + Text.bytes (blockText body')) behind :=
    lexes_comment noCloser' behind _
  have others := lexemesFrom_stop .slash split ('*' :: (body' ++ ['*', '/'] ++ behind))
  rw [Nat.zero_add] at others
  refine others.trans ((congrArg (before ++ ·) comment).trans ?_)
  rw [Comment.bytes_blockText, Comment.bytes_blockText, length]

/-- The token with another text if it stands at `offset`. -/
def Lexeme.respell (offset : Nat) (text : Text) (lexeme : Lexeme) : Lexeme :=
  if lexeme.start = offset then { lexeme with text := text } else lexeme

section Respelling

variable {offset : Nat} {text : Text} {source : Text} {low high : Nat} {tokens : List Lexeme}

theorem keepsTokens_respell (offset : Nat) (text : Text) : KeepsTokens (.respell offset text) := by
  intro lexeme
  unfold Lexeme.respell
  split <;> rfl

theorem start_respell (lexeme : Lexeme) : (lexeme.respell offset text).start = lexeme.start := by
  unfold Lexeme.respell
  split <;> rfl

theorem map_respell_of_other (other : ∀ lexeme ∈ tokens, lexeme.start ≠ offset) :
    tokens.map (.respell offset text) = tokens := by
  refine (List.map_congr_left fun lexeme member => ?_).trans (List.map_id _)
  exact if_neg (other lexeme member)

theorem Stands.subset (stands : Stands source low tokens high) : tokens ⊆ lexemes source := by
  obtain ⟨front, back, whole, _, _⟩ := stands
  rw [whole]
  exact fun _ member => List.mem_append_left _ (List.mem_append_right _ member)

/-- No two tokens start at the same place. -/
theorem Stands.start_ne {front back : List Lexeme} {lexeme : Lexeme}
    (stands : Stands source low (front ++ lexeme :: back) high) :
    (∀ other ∈ front, other.start ≠ lexeme.start) ∧ ∀ other ∈ back, other.start ≠ lexeme.start := by
  obtain ⟨mid, before, behind⟩ := stands.split front
  have start := behind.start_eq
  have positive := (behind.of_mem List.mem_cons_self).2.1
  refine ⟨fun other member => ?_, fun other member => ?_⟩
  · have := before.of_mem member
    omega
  · have := behind.tail.of_mem member
    omega

/-- One token of a passage is respelled, and no other. -/
theorem Stands.map_respell {front back : List Lexeme} {lexeme : Lexeme}
    (stands : Stands source low (front ++ lexeme :: back) high) (text : Text) :
    (front ++ lexeme :: back).map (.respell lexeme.start text) =
      front ++ { lexeme with text := text } :: back := by
  rw [List.map_append, List.map_cons, map_respell_of_other stands.start_ne.1,
    map_respell_of_other stands.start_ne.2, Lexeme.respell, if_pos rfl]

/-- **A passage is spelled as before, or it holds the respelled token.** -/
theorem Stands.respelled (stands : Stands source low tokens high) {old : Text}
    (only : ∀ lexeme ∈ lexemes source, lexeme.start = offset → lexeme.text = old) (text : Text) :
    spelling (tokens.map (.respell offset text)) = spelling tokens ∨
      offset + Text.bytes old ≤ high ∧ ∃ before behind, offset = low + Text.bytes before ∧
        spelling tokens = before ++ (old ++ behind) ∧
        spelling (tokens.map (.respell offset text)) = before ++ (text ++ behind) := by
  by_cases found : ∃ lexeme ∈ tokens, lexeme.start = offset
  · obtain ⟨lexeme, member, rfl⟩ := found
    have spelled := only lexeme (stands.subset member) rfl
    have stop := (stands.of_mem member).2.2
    rw [Lexeme.stop, spelled] at stop
    obtain ⟨front, back, rfl⟩ := List.append_of_mem member
    obtain ⟨mid, before, behind⟩ := stands.split front
    refine .inr ⟨stop, spelling front, spelling back, ?_, ?_, ?_⟩
    · rw [behind.start_eq, before.high_eq]
    · rw [spelling_append, spelling_cons, spelled]
    · rw [stands.map_respell, spelling_append, spelling_cons]
  · refine .inl (congrArg spelling (map_respell_of_other fun lexeme member start => ?_))
    exact found ⟨lexeme, member, start⟩

/-- **A text with a respelled comment is cut into the same tokens**, but for the comment. -/
theorem lexemes_respelled {front body body' behind : Text}
    (read : ∃ lexeme ∈ lexemes (front ++ (blockText body ++ behind)),
      lexeme.start = Text.bytes front)
    (noCloser : ¬ ['*', '/'] <:+: body) (noCloser' : ¬ ['*', '/'] <:+: body')
    (length : Text.bytes body' = Text.bytes body) :
    lexemes (front ++ (blockText body' ++ behind)) =
        (lexemes (front ++ (blockText body ++ behind))).map
          (.respell (Text.bytes front) (blockText body')) ∧
      ∀ lexeme ∈ lexemes (front ++ (blockText body ++ behind)),
        lexeme.start = Text.bytes front → lexeme.text = blockText body := by
  obtain ⟨before, after, cut⟩ := exists_lexemes_comment read
  have old := cut body noCloser rfl
  have stands := stands_lexemes (front ++ (blockText body ++ behind))
  rw [old] at stands ⊢
  refine ⟨(cut body' noCloser' length).trans (stands.map_respell (blockText body')).symm,
    fun lexeme member start => ?_⟩
  rcases List.mem_append.1 member with inFront | member
  · exact absurd start (stands.start_ne.1 lexeme inFront)
  · rcases List.mem_cons.1 member with rfl | inBack
    · rfl
    · exact absurd start (stands.start_ne.2 lexeme inBack)

end Respelling

end Css

end ScssLint
