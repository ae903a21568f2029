import ScssLint.Proofs.Comment.Passes
import ScssLint.Proofs.Css.Reading
import ScssLint.Proofs.Css.Spacing

/-! # Words in front of a block

Words and signs are read in front of a block as without it, up to the space that separates them from
it (`Css.exists_readsWords`). A scanner passes over them (`Css.ReadsWords.passes`).
-/

namespace ScssLint

namespace Css

open Comment

/-- The tokens that a scanner passes over wherever they stand. -/
def Token.isWord (token : Token) : Bool :=
  token.isSimple && token != .delim '/'

theorem Token.isWord_kind (token : Token) : token.kind.isWord = token.isWord := by
  cases token <;> rfl

theorem Token.isSimple_of_isWord {token : Token} (word : token.isWord = true) :
    token.isSimple = true :=
  (Bool.and_eq_true_iff.1 word).1

theorem spelling_shift (distance : Nat) (tokens : List Lexeme) :
    spelling (tokens.map (.shift distance)) = spelling tokens := by
  rw [spelling, List.flatMap_map]
  rfl

/-- **A scanner passes over words.** -/
theorem passes_spelling {words : List Lexeme} {rest : Text} {offset : Nat}
    (found : lexemesFrom offset (spelling words ++ rest) =
      words ++ lexemesFrom (offset + Text.bytes (spelling words)) rest)
    (areWords : ∀ word ∈ words, word.token.isWord = true) (before : Text) :
    Passes before (spelling words) rest := by
  induction words generalizing offset before with
  | nil => exact Leads.nil .code before rest
  | cons word words ih =>
      obtain ⟨first, others⟩ := List.forall_mem_cons.1 areWords
      rw [spelling_cons, List.append_assoc] at found
      rw [spelling_cons]
      cases whole : word.text ++ (spelling words ++ rest) with
      | nil =>
          rw [whole, lexemesFrom] at found
          exact absurd found.symm (List.cons_ne_nil _ _)
      | cons c tail =>
          rw [whole, lexemesFrom_cons, List.cons_append] at found
          obtain ⟨same, later⟩ := List.cons.inj found
          have taken : word.text = c :: tail.take (munch c tail).2 := by rw [← same]
          have behind : tail.drop (munch c tail).2 = spelling words ++ rest := by
            have cut := whole.trans
              (congrArg (c :: ·) (List.take_append_drop (munch c tail).2 tail).symm)
            rw [taken] at cut
            exact (List.append_cancel_left cut).symm
          rw [← taken, behind, Text.bytes_append, ← Nat.add_assoc] at later
          have kind : (munch c tail).1 = word.token := congrArg Lexeme.token same
          have read := @reading_munch before c tail _ rfl
          rw [← taken, behind, kind] at read
          refine Leads.append ?_ (ih later others _)
          cases read with
          | passed _ _ passes => exact passes
          | opened _ opens =>
              cases shape : word.token <;> rw [shape] at first opens <;>
                first | exact Bool.noConfusion first | exact absurd opens (by simp [Token.opens?])
          | call _ _ isUrl =>
              rw [isUrl] at first
              exact Bool.noConfusion first
          | spoilt bad =>
              rcases bad with bad | bad <;> rw [bad] at first <;> exact Bool.noConfusion first
          | slashes _ slash =>
              rw [slash] at first
              exact Bool.noConfusion first

/-- Whether a text with a space behind it is read as `words` in front of a block. -/
structure ReadsWords (text : Text) (words : List Lexeme) : Prop where
  areWords : ∀ word ∈ words, word.token.isWord = true
  spelled : spelling words = text ++ [' ']
  found : ∀ offset rest, lexemesFrom offset (text ++ ' ' :: '\x7B' :: rest) =
    words.map (.shift offset) ++ lexemesFrom (offset + Text.bytes text + 1) ('\x7B' :: rest)

/-- **Words are read in front of a block** as what they are without it. -/
theorem exists_readsWords {text : Text}
    (areWords : ∀ lexeme ∈ lexemes text, lexeme.token.isWord = true) :
    ∃ words spaces, ReadsWords text words ∧ kinds words = kinds (lexemes text) ++ spaces ∧
      ∀ token ∈ spaces, token = .whitespace := by
  obtain ⟨words, spaces, same, blank, found⟩ := exists_lexemesFrom_space fun lexeme member =>
    Token.isSimple_of_isWord (areWords lexeme member)
  refine ⟨words, spaces, ⟨fun word member => ?_, ?_, fun offset rest => ?_⟩, same, blank⟩
  · have known : word.token.kind ∈ kinds (lexemes text) ++ spaces :=
      same ▸ List.mem_map_of_mem member
    rw [← Token.isWord_kind]
    rcases List.mem_append.1 known with own | space
    · obtain ⟨lexeme, member, kind⟩ := List.mem_map.1 own
      rw [← kind, Token.isWord_kind]
      exact areWords lexeme member
    · rw [blank _ space]
      rfl
  · have whole := congrArg spelling (found 0 '\x7B' [] rfl)
    rw [spelling_lexemesFrom, spelling_append, spelling_shift, spelling_lexemesFrom,
      List.append_cons] at whole
    exact (List.append_cancel_right whole).symm
  · exact found offset '\x7B' rest rfl

namespace ReadsWords

variable {text : Text} {words : List Lexeme}

theorem passes (reads : ReadsWords text words) (before rest : Text) :
    Passes before (text ++ [' ']) ('\x7B' :: rest) := by
  have found := reads.found 0 rest
  rw [map_shift_zero, List.append_cons, ← reads.spelled, Nat.add_assoc] at found
  have length : Text.bytes (spelling words) = Text.bytes text + 1 := by
    rw [reads.spelled, Text.bytes_append]
    rfl
  rw [← length] at found
  rw [← reads.spelled]
  exact passes_spelling found reads.areWords before

end ReadsWords

end Css

end ScssLint
