import ScssLint.Css.Forest
import ScssLint.Proofs.Css.Url

/-! # Tokens and their places

Which token starts with a character is told by one constructor of `Css.Munches` for each branch of
the lexer. How a token is spelled follows from its kind (`Css.Token.IsSpelled`), and the tokens of a
text stand one behind the other (`Css.Stands`). The readers of tokens and pieces go on behind some of
what is left, so what they do is proved by `Css.induct_drop`.
-/

namespace ScssLint

namespace Css

/-- The token that a character is by itself wherever it stands. -/
def signToken? : Char → Option Token
  | '(' => some (.opening .parenthesis)
  | ')' => some (.closing .parenthesis)
  | '[' => some (.opening .square)
  | ']' => some (.closing .square)
  | '\x7B' => some (.opening .curly)
  | '\x7D' => some (.closing .curly)
  | ',' => some .comma
  | ':' => some .colon
  | ';' => some .semicolon
  | _ => none

/-- Whether a number starts with `c`. -/
def StartsNumber (c : Char) (rest : Text) : Prop :=
  c.isDigit = true ∨ (c = '+' ∨ c = '-') ∧ startsNumber rest = true ∨ c = '.' ∧ digits rest ≠ 0

/-- The ways in which a token is cut off from a text that starts with `c`. -/
inductive Munches (c : Char) (rest : Text) : Munched → Prop
  | space : isSpace c = true → Munches c rest (.whitespace, (rest.takeWhile isSpace).length)
  | string : c = '"' ∨ c = '\'' →
      Munches c rest (if (stringLength c rest).2 then .badString else .string,
        (stringLength c rest).1)
  | hash {token : Token} : c = '#' → token = .idHash ∨ token = .hash →
      Munches c rest (token, (name rest).2)
  | matcher : rest.head? = some '=' → Munches c rest (.matcher c, 1)
  | sign {token : Token} : signToken? c = some token → Munches c rest (token, 0)
  | number : StartsNumber c rest → Munches c rest (munchNumber (c :: rest))
  | commentClose : c = '-' → ['-', '>'] <+: rest → Munches c rest (.commentClose, 2)
  | commentOpen : c = '<' → ['!', '-', '-'] <+: rest → Munches c rest (.commentOpen, 3)
  | comment {inside : Text} : c = '/' → rest = '*' :: inside →
      Munches c rest (.comment, 1 + commentLength inside)
  | atKeyword : c = '@' → Munches c rest (.atKeyword (name rest).1, (name rest).2)
  | ident : startsIdent (c :: rest) = true → Munches c rest (munchIdent (c :: rest))
  | delim : ¬ StartsNumber c rest → startsIdent (c :: rest) = false → Munches c rest (.delim c, 0)

theorem munches_hash (rest : Text) : Munches '#' rest (munch '#' rest) := by
  change Munches '#' rest (if startsIdent rest = true then _ else if _ then _ else _)
  split
  · exact .hash rfl (.inl rfl)
  · split
    · exact .hash rfl (.inr rfl)
    · exact .delim (by simp [StartsNumber]) rfl

theorem munch_of_signToken? {c : Char} {token : Token} (sign : signToken? c = some token)
    (rest : Text) : munch c rest = (token, 0) := by
  unfold signToken? at sign
  split at sign <;> first | exact absurd sign.symm (Option.some_ne_none _) |
    (obtain rfl := Option.some.inj sign; rfl)

/-- **A token is cut off in one of these ways.** -/
theorem munches (c : Char) (rest : Text) : Munches c rest (munch c rest) := by
  by_cases isHash : c = '#'
  · subst isHash
    exact munches_hash rest
  cases sign : signToken? c with
  | some token =>
      rw [munch_of_signToken? sign]
      exact .sign sign
  | none =>
    have other {d : Char} {token : Token} (named : signToken? d = some token) : c ≠ d := by
      rintro rfl
      rw [named] at sign
      exact absurd sign (Option.some_ne_none _)
    -- One branch of the lexer after the other, in its order.
    dsimp only [munch]
    by_cases space : isSpace c = true
    · rw [if_pos space]
      exact .space space
    rw [if_neg space]
    by_cases mark : c = '"' ∨ c = '\''
    · rw [if_pos mark]
      exact .string mark
    rw [if_neg mark, if_neg isHash]
    by_cases isMatcher : (c = '$' ∨ c = '*' ∨ c = '^' ∨ c = '|' ∨ c = '~') ∧ rest.head? = some '='
    · rw [if_pos isMatcher]
      exact .matcher isMatcher.2
    rw [if_neg isMatcher, if_neg (other rfl), if_neg (other rfl), if_neg (other rfl),
      if_neg (other rfl), if_neg (other rfl), if_neg (other rfl), if_neg (other rfl),
      if_neg (other rfl), if_neg (other rfl)]
    by_cases isNumber : c.isDigit = true ∨ (c = '+' ∨ c = '-') ∧ startsNumber rest = true ∨
        c = '.' ∧ digits rest ≠ 0
    · rw [if_pos isNumber]
      exact .number isNumber
    rw [if_neg isNumber]
    by_cases isClose : c = '-' ∧ Text.startsWith ['-', '>'] rest = true
    · rw [if_pos isClose]
      exact .commentClose isClose.1 (List.isPrefixOf_iff_prefix.1 isClose.2)
    rw [if_neg isClose]
    by_cases isOpener : c = '<' ∧ Text.startsWith ['!', '-', '-'] rest = true
    · rw [if_pos isOpener]
      exact .commentOpen isOpener.1 (List.isPrefixOf_iff_prefix.1 isOpener.2)
    rw [if_neg isOpener]
    by_cases isComment : c = '/' ∧ rest.head? = some '*'
    · rw [if_pos isComment]
      obtain ⟨inside, rfl⟩ := List.head?_eq_some_iff.1 isComment.2
      exact .comment isComment.1 rfl
    rw [if_neg isComment]
    by_cases isAt : c = '@' ∧ startsIdent rest = true
    · rw [if_pos isAt]
      exact .atKeyword isAt.1
    rw [if_neg isAt]
    by_cases isIdent : startsIdent (c :: rest) = true
    · rw [if_pos isIdent]
      exact .ident isIdent
    · rw [if_neg isIdent]
      exact .delim isNumber (Bool.eq_false_iff.2 isIdent)

/-- A comment with both its marks. -/
def IsBlockComment (text : Text) : Prop :=
  ∃ body, ¬ ['*', '/'] <:+: body ∧ text = '/' :: '*' :: (body ++ ['*', '/'])

/-- How a token is spelled in front of `rest`, as far as its kind tells. -/
def Token.IsSpelled (text rest : Text) : Token → Prop
  | .opening .curly => text = ['\x7B']
  | .closing .curly => text = ['\x7D']
  | .delim sign => text = [sign]
  | .atKeyword _ => text.head? = some '@'
  | .comment => rest ≠ [] → IsBlockComment text
  | _ => True

/-- A comment that is not the last token is closed. -/
theorem isBlockComment_of_commentLength {inside : Text}
    (more : inside.drop (commentLength inside) ≠ []) :
    ∃ body, ¬ ['*', '/'] <:+: body ∧ inside.take (commentLength inside) = body ++ ['*', '/'] := by
  fun_induction commentLength inside with
  | case1 => exact absurd rfl more
  | case2 rest => exact ⟨[], fun found => List.cons_ne_nil _ _ (List.infix_nil.1 found), rfl⟩
  | case3 c rest noCloser ih =>
      rw [Nat.add_comm, List.drop_succ_cons] at more
      obtain ⟨body, apart, taken⟩ := ih more
      refine ⟨c :: body, fun found => ?_, ?_⟩
      · rcases List.infix_cons_iff.1 found with ahead | found
        · obtain ⟨rfl, slash⟩ := List.cons_prefix_cons.1 ahead
          have second : ['/'] <+: rest :=
            (slash.trans (taken ▸ List.prefix_append body _)).trans (List.take_prefix _ rest)
          obtain ⟨tail, rfl⟩ := second
          exact noCloser tail rfl rfl
        · exact apart found
      · rw [Nat.add_comm, List.take_succ_cons, taken, List.cons_append]

theorem isSpelled_sign {c : Char} {token : Token} (sign : signToken? c = some token)
    (rest : Text) : token.IsSpelled [c] rest := by
  unfold signToken? at sign
  split at sign <;> first | exact absurd sign.symm (Option.some_ne_none _) |
    (obtain rfl := Option.some.inj sign; trivial)

theorem isSpelled_munchNumber (text taken rest : Text) :
    (munchNumber text).1.IsSpelled taken rest := by
  simp only [munchNumber]
  repeat' split
  all_goals trivial

theorem isSpelled_munchIdent {c : Char} {rest : Text} (starts : startsIdent (c :: rest) = true)
    (taken behind : Text) : (munchIdent (c :: rest)).1.IsSpelled taken behind := by
  have cut : munchIdent (c :: rest) = ((munchIdent (c :: rest)).1, (munchIdent (c :: rest)).2) := rfl
  rcases munchIdent_cases [] starts cut with
    ⟨decoded, same, _⟩ | ⟨decoded, spelled, same, _⟩ | ⟨same, _⟩ | same <;> rw [same] <;> trivial

/-- **A token is spelled after its kind.** -/
theorem isSpelled_munch (c : Char) (rest : Text) :
    (munch c rest).1.IsSpelled (c :: rest.take (munch c rest).2) (rest.drop (munch c rest).2) := by
  have cut := munches c rest
  generalize munch c rest = munched at cut
  cases cut with
  | space _ => trivial
  | string _ => dsimp only; split <;> trivial
  | hash _ kind => rcases kind with rfl | rfl <;> trivial
  | matcher _ => trivial
  | sign named => exact isSpelled_sign named _
  | number _ => exact isSpelled_munchNumber _ _ _
  | commentClose _ _ => trivial
  | commentOpen _ _ => trivial
  | @comment inside isSlash star =>
      subst isSlash star
      intro more
      rw [Nat.add_comm, List.drop_succ_cons] at more
      obtain ⟨body, apart, taken⟩ := isBlockComment_of_commentLength more
      refine ⟨body, apart, ?_⟩
      rw [Nat.add_comm, List.take_succ_cons, taken]
  | atKeyword isAt => exact congrArg some isAt
  | ident starts => exact isSpelled_munchIdent starts _ _
  | delim _ _ => rfl

/-- The text that some tokens spell. -/
def spelling (tokens : List Lexeme) : Text :=
  tokens.flatMap (·.text)

@[simp] theorem spelling_nil : spelling [] = [] := rfl

@[simp] theorem spelling_cons (lexeme : Lexeme) (tokens : List Lexeme) :
    spelling (lexeme :: tokens) = lexeme.text ++ spelling tokens := by
  rw [spelling, List.flatMap_cons, spelling]

@[simp] theorem spelling_append (tokens others : List Lexeme) :
    spelling (tokens ++ others) = spelling tokens ++ spelling others := by
  rw [spelling, List.flatMap_append, spelling, spelling]

theorem spelling_lexemesFrom (offset : Nat) (text : Text) :
    spelling (lexemesFrom offset text) = text :=
  flatMap_text_lexemesFrom offset text

/-- Induction on what is read from its start: behind the first item, reading goes on anywhere. -/
@[elab_as_elim]
theorem induct_drop {α : Type} {motive : List α → Prop} (nil : motive [])
    (cons : ∀ first rest, (∀ count, motive (rest.drop count)) → motive (first :: rest))
    (items : List α) : motive items := by
  induction left : items.length using Nat.strongRecOn generalizing items with
  | _ length ih =>
      subst left
      cases items with
      | nil => exact nil
      | cons first rest =>
          refine cons first rest fun count => ih _ ?_ _ rfl
          rw [List.length_drop, List.length_cons]
          omega

/-- A token and what stands behind it are as long as the text. -/
theorem bytes_cons_take_drop (c : Char) (rest : Text) (count : Nat) :
    Text.bytes (c :: rest) = Text.bytes (c :: rest.take count) + Text.bytes (rest.drop count) := by
  rw [← Text.bytes_append, List.cons_append, List.take_append_drop]

theorem lexemesFrom_cons (offset : Nat) (c : Char) (rest : Text) :
    lexemesFrom offset (c :: rest) =
      ⟨(munch c rest).1, offset, c :: rest.take (munch c rest).2⟩ ::
        lexemesFrom (offset + Text.bytes (c :: rest.take (munch c rest).2))
          (rest.drop (munch c rest).2) := by
  rw [lexemesFrom]

/-- **Each token stands behind the tokens in front of it.** -/
theorem placed_lexemesFrom {offset : Nat} {text : Text} {front back : List Lexeme} {lexeme : Lexeme}
    (split : lexemesFrom offset text = front ++ lexeme :: back) :
    lexeme.start = offset + Text.bytes (spelling front) ∧ lexeme.text ≠ [] ∧
      lexeme.token.IsSpelled lexeme.text (spelling back) := by
  induction front generalizing offset text with
  | nil =>
      cases text with
      | nil =>
          rw [lexemesFrom] at split
          exact absurd split.symm (List.cons_ne_nil _ _)
      | cons c rest =>
          have spelled := isSpelled_munch c rest
          rw [lexemesFrom_cons] at split
          obtain ⟨rfl, rfl⟩ := List.cons.inj split
          rw [spelling_lexemesFrom]
          exact ⟨rfl, List.cons_ne_nil _ _, spelled⟩
  | cons first front ih =>
      cases text with
      | nil =>
          rw [lexemesFrom] at split
          exact absurd split.symm (List.cons_ne_nil _ _)
      | cons c rest =>
          rw [lexemesFrom_cons] at split
          obtain ⟨rfl, others⟩ := List.cons.inj split
          obtain ⟨start, placed⟩ := ih others
          rw [spelling_cons, Text.bytes_append, ← Nat.add_assoc]
          exact ⟨start, placed⟩

/-- Whether some tokens stand one behind the other among those of a text, from the offset `low` up
to `high`. -/
def Stands (source : Text) (low : Nat) (tokens : List Lexeme) (high : Nat) : Prop :=
  ∃ front back, lexemes source = front ++ tokens ++ back ∧
    low = Text.bytes (spelling front) ∧ high = Text.bytes (spelling (front ++ tokens))

theorem stands_lexemes (source : Text) :
    Stands source 0 (lexemes source) (Text.bytes source) := by
  refine ⟨[], [], (List.append_nil _).symm, rfl, ?_⟩
  rw [List.nil_append, lexemes, spelling_lexemesFrom]

namespace Stands

variable {source : Text} {low high : Nat} {tokens others : List Lexeme} {lexeme : Lexeme}

theorem split (tokens : List Lexeme) (stands : Stands source low (tokens ++ others) high) :
    ∃ mid, Stands source low tokens mid ∧ Stands source mid others high := by
  obtain ⟨front, back, whole, rfl, rfl⟩ := stands
  refine ⟨_, ⟨front, others ++ back, ?_, rfl, rfl⟩, ⟨front ++ tokens, back, ?_, rfl, ?_⟩⟩
  · rw [whole, ← List.append_assoc, ← List.append_assoc]
  · rw [whole, ← List.append_assoc]
  · rw [List.append_assoc]

theorem high_eq (stands : Stands source low tokens high) :
    high = low + Text.bytes (spelling tokens) := by
  obtain ⟨front, back, _, rfl, rfl⟩ := stands
  rw [spelling_append, Text.bytes_append]

/-- The tokens spell the text where they stand. -/
theorem exists_text (stands : Stands source low tokens high) :
    ∃ before behind, source = before ++ spelling tokens ++ behind ∧ Text.bytes before = low := by
  obtain ⟨front, back, whole, rfl, _⟩ := stands
  refine ⟨spelling front, spelling back, ?_, rfl⟩
  rw [← spelling_append, ← spelling_append, ← whole, lexemes, spelling_lexemesFrom]

theorem start_eq (stands : Stands source low (lexeme :: tokens) high) : lexeme.start = low := by
  obtain ⟨front, back, whole, rfl, _⟩ := stands
  rw [List.append_assoc, List.cons_append] at whole
  rw [(placed_lexemesFrom whole).1, Nat.zero_add]

theorem text_ne_nil (stands : Stands source low (lexeme :: tokens) high) : lexeme.text ≠ [] := by
  obtain ⟨front, back, whole, _, _⟩ := stands
  rw [List.append_assoc, List.cons_append] at whole
  exact (placed_lexemesFrom whole).2.1

theorem isSpelled (stands : Stands source low (lexeme :: tokens) high) :
    ∃ rest, lexeme.token.IsSpelled lexeme.text (spelling tokens ++ rest) := by
  obtain ⟨front, back, whole, _, _⟩ := stands
  rw [List.append_assoc, List.cons_append] at whole
  obtain ⟨_, _, spelled⟩ := placed_lexemesFrom whole
  rw [spelling_append] at spelled
  exact ⟨spelling back, spelled⟩

theorem tail (stands : Stands source low (lexeme :: tokens) high) :
    Stands source lexeme.stop tokens high := by
  obtain ⟨mid, first, others⟩ := stands.split [lexeme]
  have stop := first.high_eq
  rw [spelling_cons, spelling_nil, List.append_nil, ← first.start_eq] at stop
  rwa [Lexeme.stop, ← stop]

theorem low_le_high (stands : Stands source low tokens high) : low ≤ high := by
  rw [stands.high_eq]
  exact Nat.le_add_right _ _

theorem bytes_pos (stands : Stands source low (lexeme :: tokens) high) :
    0 < Text.bytes lexeme.text :=
  Text.bytes_pos stands.text_ne_nil

/-- A token stands between the ends of its passage. -/
theorem of_mem (stands : Stands source low tokens high) (member : lexeme ∈ tokens) :
    low ≤ lexeme.start ∧ lexeme.start < lexeme.stop ∧ lexeme.stop ≤ high := by
  obtain ⟨front, back, rfl⟩ := List.append_of_mem member
  obtain ⟨mid, first, second⟩ := stands.split front
  have positive := second.bytes_pos
  rw [second.start_eq]
  refine ⟨first.low_le_high, ?_, second.tail.low_le_high⟩
  rw [Lexeme.stop, second.start_eq]
  omega

end Stands

end Css

end ScssLint
