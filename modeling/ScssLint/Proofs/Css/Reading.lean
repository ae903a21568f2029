import ScssLint.Proofs.Css.Url

/-! # How a scanner reads tokens

A scanner that reads ordinary text at the start of a token reads ordinary text again behind it,
unless the token is malformed, ends with a parenthesis, is a `url(` token, or is the first of two
slashes (`Css.reading_munch`).
-/

namespace ScssLint

namespace Css

open Comment

open Comment.Scanner (isPlain isPlain_of_isSpace)

/-- What a scanner that reads ordinary text makes of a token between `before` and `rest`. -/
inductive Reading (before : Text) (token : Token) (taken rest : Text) : Prop
  /-- It is passed over. -/
  | passed : token ≠ .url → token.opens? ≠ some .parenthesis → Passes before taken rest →
      Reading before token taken rest
  /-- It ends with a parenthesis that opens a block. -/
  | opened (spelled : Text) : token.opens? = some .parenthesis → taken = spelled ++ ['('] →
      Passes before spelled ('(' :: rest) → Reading before token taken rest
  /-- It is a `url(` token. -/
  | call (spelled argument : Text) : token = .url → taken = spelled ++ '(' :: argument →
      IsCall before spelled argument rest → Reading before token taken rest
  | spoilt : token = .badUrl ∨ token = .badString → Reading before token taken rest
  /-- It is the first of two slashes. -/
  | slashes (tail : Text) : token = .delim '/' → taken = ['/'] → rest = '/' :: tail →
      Reading before token taken rest

/-- The characters that are tokens by themselves wherever they stand, apart from a parenthesis that
opens a block. -/
def signs : Text :=
  [')', '[', ']', '\x7B', '\x7D', ',', ':', ';']

theorem munch_sign {c : Char} (sign : c ∈ signs) (rest : Text) :
    ∃ token, munch c rest = (token, 0) ∧ token ≠ .url ∧ token.opens? ≠ some .parenthesis := by
  simp only [signs, List.mem_cons, List.not_mem_nil, or_false] at sign
  rcases sign with rfl | rfl | rfl | rfl | rfl | rfl | rfl | rfl <;>
    exact ⟨_, rfl, by decide, by decide⟩

theorem isPlain_of_sign {c : Char} (sign : c ∈ signs) : isPlain c = true := by
  simp only [signs, List.mem_cons, List.not_mem_nil, or_false] at sign
  rcases sign with rfl | rfl | rfl | rfl | rfl | rfl | rfl | rfl <;> rfl

theorem munchNumber_token (text : Text) :
    (munchNumber text).1 ≠ .url ∧ (munchNumber text).1.opens? ≠ some .parenthesis := by
  simp only [munchNumber]
  repeat' split
  all_goals exact ⟨by simp, by simp [Token.opens?]⟩

section Branches

variable {before rest : Text} {c : Char}

theorem reading_plain {token : Token} (noUrl : token ≠ .url)
    (noBlock : token.opens? ≠ some .parenthesis) (plain : isPlain c = true) :
    Reading before token (c :: rest.take 0) (rest.drop 0) :=
  .passed noUrl noBlock (Leads.of_plainChar plain before rest)

theorem reading_space (space : isSpace c = true) :
    Reading before .whitespace (c :: rest.take (rest.takeWhile isSpace).length)
      (rest.drop (rest.takeWhile isSpace).length) := by
  refine .passed (by simp) (by simp [Token.opens?]) (Leads.of_plain ?_ before _)
  intro d member
  rw [take_length_takeWhile] at member
  rcases List.mem_cons.1 member with rfl | inside
  · exact isPlain_of_isSpace space
  · exact isPlain_of_isSpace (List.all_eq_true.1 List.all_takeWhile d inside)

theorem reading_string (mark : c = '"' ∨ c = '\'') :
    Reading before (if (stringLength c rest).2 then .badString else .string)
      (c :: rest.take (stringLength c rest).1) (rest.drop (stringLength c rest).1) := by
  cases whole : (stringLength c rest).2 with
  | true => exact .spoilt (.inr rfl)
  | false => exact .passed (by simp) (by simp [Token.opens?]) (passes_string mark before rest whole)

/-- A sign and the name behind it. -/
theorem passes_signed (plain : isPlain c = true) :
    Passes before (c :: rest.take (name rest).2) (rest.drop (name rest).2) :=
  Leads.trans (Leads.of_plainChar plain before rest)
    (List.take_append_drop (name rest).2 rest).symm (passes_name _ rest)

theorem reading_hash {munched : Munched} (cut : munch '#' rest = munched) :
    Reading before munched.1 ('#' :: rest.take munched.2) (rest.drop munched.2) := by
  change (if startsIdent rest = true then _ else if _ then _ else _) = munched at cut
  split at cut
  · subst cut
    exact .passed (by simp) (by simp [Token.opens?]) (passes_signed rfl)
  · split at cut
    · subst cut
      exact .passed (by simp) (by simp [Token.opens?]) (passes_signed rfl)
    · subst cut
      exact reading_plain (by simp) (by simp [Token.opens?]) rfl

theorem reading_matcher (sign : c = '$' ∨ c = '*' ∨ c = '^' ∨ c = '|' ∨ c = '~')
    (equals : rest.head? = some '=') :
    Reading before (.matcher c) (c :: rest.take 1) (rest.drop 1) := by
  obtain ⟨tail, rfl⟩ := List.head?_eq_some_iff.1 equals
  have plain : isPlain c = true := by rcases sign with rfl | rfl | rfl | rfl | rfl <;> rfl
  refine .passed (by simp) (by simp [Token.opens?]) (Leads.of_plain ?_ before tail)
  exact List.forall_mem_cons.2 ⟨plain, List.forall_mem_singleton.2 rfl⟩

theorem reading_number (starts : c.isDigit = true ∨ (c = '+' ∨ c = '-') ∧
      startsNumber rest = true ∨ c = '.' ∧ digits rest ≠ 0) :
    Reading before (munchNumber (c :: rest)).1 (c :: rest.take (munchNumber (c :: rest)).2)
      (rest.drop (munchNumber (c :: rest)).2) := by
  have plain : isPlain c = true := by
    rcases starts with digit | ⟨rfl | rfl, _⟩ | ⟨rfl, _⟩
    · exact isPlain_of_isDigit digit
    · rfl
    · rfl
    · rfl
  obtain ⟨noUrl, noBlock⟩ := munchNumber_token (c :: rest)
  exact .passed noUrl noBlock (passes_number before plain)

/-- A mark of several signs. -/
theorem reading_mark {token : Token} {mark : Text} (noUrl : token ≠ .url)
    (noBlock : token.opens? ≠ some .parenthesis) (plain : (c :: mark).all isPlain = true)
    (starts : Text.startsWith mark rest = true) :
    Reading before token (c :: rest.take mark.length) (rest.drop mark.length) := by
  obtain ⟨tail, rfl⟩ := List.isPrefixOf_iff_prefix.1 starts
  rw [List.take_left, List.drop_left]
  exact .passed noUrl noBlock (Leads.of_plain (List.all_eq_true.1 plain) before tail)

theorem reading_comment (star : rest.head? = some '*') :
    Reading before .comment ('/' :: rest.take (1 + commentLength (rest.drop 1)))
      (rest.drop (1 + commentLength (rest.drop 1))) := by
  obtain ⟨tail, rfl⟩ := List.head?_eq_some_iff.1 star
  rw [List.drop_one, List.tail_cons, Nat.add_comm 1, List.take_succ_cons, List.drop_succ_cons]
  exact .passed (by simp) (by simp [Token.opens?]) (passes_comment before tail)

theorem reading_ident {munched : Munched} (starts : startsIdent (c :: rest) = true)
    (cut : munchIdent (c :: rest) = munched) :
    Reading before munched.1 (c :: rest.take munched.2) (rest.drop munched.2) := by
  obtain ⟨token, more⟩ := munched
  rcases munchIdent_cases before starts cut with
    ⟨decoded, rfl, passes⟩ | ⟨decoded, spelled, rfl, taken, passes⟩ |
    ⟨rfl, spelled, argument, taken, call⟩ | rfl
  · exact .passed (by simp) (by simp [Token.opens?]) passes
  · exact .opened spelled rfl taken passes
  · exact .call spelled argument rfl taken call
  · exact .spoilt (.inl rfl)

/-- A character that starts no longer token. -/
theorem reading_delim (noMark : ¬ (c = '"' ∨ c = '\'')) (noParen : c ≠ '(')
    (noComment : ¬ (c = '/' ∧ rest.head? = some '*')) (noIdent : ¬ startsIdent (c :: rest) = true) :
    Reading before (.delim c) (c :: rest.take 0) (rest.drop 0) := by
  have noUrl : Token.delim c ≠ .url := by simp
  have noBlock : (Token.delim c).opens? ≠ some .parenthesis := by simp [Token.opens?]
  by_cases isSlash : c = '/'
  · subst isSlash
    by_cases isLine : rest.head? = some '/'
    · obtain ⟨tail, rfl⟩ := List.head?_eq_some_iff.1 isLine
      exact .slashes tail rfl rfl rfl
    · have noBlockComment : rest.head? ≠ some '*' := fun second => noComment ⟨rfl, second⟩
      exact .passed noUrl noBlock (Leads.slash isLine noBlockComment before)
  by_cases isBackslash : c = '\\'
  · subst isBackslash
    have breaks : newlineAhead rest = true := by simpa [startsIdent] using noIdent
    refine .passed noUrl noBlock (Leads.backslash (fun d first => ?_) before)
    obtain ⟨tail, rfl⟩ := List.head?_eq_some_iff.1 first
    exact isSpace_of_isNewline breaks
  · apply reading_plain noUrl noBlock
    rw [not_or] at noMark
    simp [isPlain, isSlash, isBackslash, noParen, noMark]

end Branches

/-- **A token is read in one of five ways.** -/
theorem reading_munch (before : Text) {c : Char} {rest : Text} {munched : Munched}
    (cut : munch c rest = munched) :
    Reading before munched.1 (c :: rest.take munched.2) (rest.drop munched.2) := by
  by_cases isSign : c ∈ signs
  · obtain ⟨token, single, noUrl, noBlock⟩ := munch_sign isSign rest
    rw [single] at cut
    subst cut
    exact reading_plain noUrl noBlock (isPlain_of_sign isSign)
  have noSign {sign : Char} (member : sign ∈ signs) : c ≠ sign := fun same => isSign (same ▸ member)
  by_cases isHash : c = '#'
  · subst isHash
    exact reading_hash cut
  -- One branch of the lexer after the other, in its order.
  dsimp only [munch] at cut
  by_cases space : isSpace c = true
  · rw [if_pos space] at cut
    subst cut
    exact reading_space space
  rw [if_neg space] at cut
  by_cases mark : c = '"' ∨ c = '\''
  · rw [if_pos mark] at cut
    subst cut
    exact reading_string mark
  rw [if_neg mark, if_neg isHash] at cut
  by_cases isMatcher : (c = '$' ∨ c = '*' ∨ c = '^' ∨ c = '|' ∨ c = '~') ∧ rest.head? = some '='
  · rw [if_pos isMatcher] at cut
    subst cut
    exact reading_matcher isMatcher.1 isMatcher.2
  rw [if_neg isMatcher] at cut
  by_cases isOpen : c = '('
  · rw [if_pos isOpen] at cut
    subst cut isOpen
    exact .opened [] rfl rfl (Leads.nil _ before _)
  rw [if_neg isOpen, if_neg (noSign (by decide)), if_neg (noSign (by decide)),
    if_neg (noSign (by decide)), if_neg (noSign (by decide)), if_neg (noSign (by decide)),
    if_neg (noSign (by decide)), if_neg (noSign (by decide)), if_neg (noSign (by decide))] at cut
  by_cases isNumber : c.isDigit = true ∨ (c = '+' ∨ c = '-') ∧ startsNumber rest = true ∨
      c = '.' ∧ digits rest ≠ 0
  · rw [if_pos isNumber] at cut
    subst cut
    exact reading_number isNumber
  rw [if_neg isNumber] at cut
  by_cases isClose : c = '-' ∧ Text.startsWith ['-', '>'] rest = true
  · rw [if_pos isClose] at cut
    subst cut
    obtain ⟨rfl, follows⟩ := isClose
    exact reading_mark (by simp) (by simp [Token.opens?]) rfl follows
  rw [if_neg isClose] at cut
  by_cases isOpener : c = '<' ∧ Text.startsWith ['!', '-', '-'] rest = true
  · rw [if_pos isOpener] at cut
    subst cut
    obtain ⟨rfl, follows⟩ := isOpener
    exact reading_mark (by simp) (by simp [Token.opens?]) rfl follows
  rw [if_neg isOpener] at cut
  by_cases isComment : c = '/' ∧ rest.head? = some '*'
  · rw [if_pos isComment] at cut
    subst cut
    obtain ⟨rfl, star⟩ := isComment
    exact reading_comment star
  rw [if_neg isComment] at cut
  by_cases isAt : c = '@' ∧ startsIdent rest = true
  · rw [if_pos isAt] at cut
    subst cut
    obtain ⟨rfl, _⟩ := isAt
    exact .passed (by simp) (by simp [Token.opens?]) (passes_signed rfl)
  rw [if_neg isAt] at cut
  by_cases isIdent : startsIdent (c :: rest) = true
  · rw [if_pos isIdent] at cut
    exact reading_ident isIdent cut
  · rw [if_neg isIdent] at cut
    subst cut
    exact reading_delim mark isOpen isComment isIdent

end Css

end ScssLint
