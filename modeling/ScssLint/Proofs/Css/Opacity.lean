import ScssLint.Proofs.Comment.Blanking
import ScssLint.Proofs.Css.Reading
import ScssLint.Proofs.Css.Tokens
import ScssLint.Stylesheet.Outline

/-! # Where `//` is opaque

The lexer and the comment scanner delimit strings, `url(` arguments and block comments each in its
own way. Where they agree, a `//` that lies inside such a token is no comment. They part company at
`url(`: the scanner looks at the letters in front of the parenthesis only, and takes the first `)`
for the end of the argument. As long as it gets back in step behind the token, the comments it finds
are those that `url(` tokens expose to it (`Css.findsNothing_iff`).
-/

namespace ScssLint

namespace Css

open Comment

/-- A token with the text in front of it, last character first, and the tokens behind it. -/
structure Place where
  before : Text
  lexeme : Lexeme
  behind : List Lexeme

/-- The places of some tokens that stand behind `before`. -/
def placesFrom (before : Text) : List Lexeme → List Place
  | [] => []
  | lexeme :: behind =>
      ⟨before, lexeme, behind⟩ :: placesFrom (lexeme.text.reverse ++ before) behind

/-- The places of the tokens of a text. -/
def places (source : Text) : List Place :=
  placesFrom [] (lexemes source)

/-- Whether the first `)` in some tokens is a token of its own. -/
def closesAlone : List Lexeme → Bool
  | [] => false
  | lexeme :: rest => lexeme.text == [')'] || (lexeme.text.all (· ≠ ')') && closesAlone rest)

namespace Place

/-- Whether the comment scanner takes the parenthesis that the token ends with for the start of a
`url(` argument. -/
def misleads (place : Place) : Bool :=
  place.lexeme.token.opens? == some .parenthesis &&
    endsInUrl (place.lexeme.text.dropLast.reverse ++ place.before) &&
    !opensQuoted (place.behind.flatMap (·.text))

/-- The second character of the first comment marker that a `url(` token exposes to the comment
scanner. -/
def marker? (place : Place) : Option Char :=
  if place.lexeme.token = .url then firstMarker (exposed place.before place.lexeme.text) else none

end Place

/-- Whether every `//` lies inside one string, one `url(` token or one block comment, and no string
and no `url(` token is malformed. -/
structure HidesSlashes (source : Text) : Prop where
  sound : ∀ lexeme ∈ lexemes source, lexeme.token ≠ .badString ∧ lexeme.token ≠ .badUrl
  hidden : ∀ index < source.length, Text.startsWith ['/', '/'] (source.drop index) = true →
    ∃ lexeme ∈ lexemes source,
      (lexeme.token = .string ∨ lexeme.token = .url ∨ lexeme.token = .comment) ∧
        lexeme.start ≤ Text.bytes (source.take index) ∧
        Text.bytes (source.take index) + 2 ≤ lexeme.stop

/-- Whether the comment scanner gets back in step with the tokens: a parenthesis that misleads it is
closed by a token, and no `url(` token opens a block comment for it. -/
structure StaysInStep (source : Text) : Prop where
  closes : ∀ place ∈ places source, place.misleads = true → closesAlone place.behind = true
  noBlock : ∀ place ∈ places source, place.marker? ≠ some '*'

/-- The same of the part of a source behind `before`. -/
structure Behaves (before text : Text) : Prop where
  sound : ∀ lexeme ∈ lexemesFrom (Text.bytes before) text,
    lexeme.token ≠ .badString ∧ lexeme.token ≠ .badUrl
  hidden : ∀ front back, text = front ++ '/' :: '/' :: back →
    ∃ lexeme ∈ lexemesFrom (Text.bytes before) text,
      (lexeme.token = .string ∨ lexeme.token = .url ∨ lexeme.token = .comment) ∧
        lexeme.start ≤ Text.bytes before + Text.bytes front ∧
        Text.bytes before + Text.bytes front + 2 ≤ lexeme.stop
  closes : ∀ place ∈ placesFrom before (lexemesFrom (Text.bytes before) text),
    place.misleads = true → closesAlone place.behind = true
  noBlock : ∀ place ∈ placesFrom before (lexemesFrom (Text.bytes before) text),
    place.marker? ≠ some '*'

/-- No token starts in front of the first one. -/
theorem offset_le_start {offset : Nat} {text : Text} :
    ∀ lexeme ∈ lexemesFrom offset text, offset ≤ lexeme.start := by
  fun_induction lexemesFrom offset text with
  | case1 => simp
  | case2 offset c rest token more _ taken ih =>
      intro lexeme member
      rcases List.mem_cons.1 member with rfl | later
      · exact Nat.le_refl _
      · exact Nat.le_trans (Nat.le_add_right _ _) (ih lexeme later)

theorem firstMarker_cases (text : Text) :
    firstMarker text = none ∨ firstMarker text = some '/' ∨ firstMarker text = some '*' := by
  fun_induction firstMarker text with
  | case1 => exact .inl rfl
  | case2 => exact .inl rfl
  | case3 _ _ ih => exact ih
  | case4 c d rest _ marked =>
      rcases marked.2 with rfl | rfl
      · exact .inr (.inl rfl)
      · exact .inr (.inr rfl)
  | case5 c d rest _ _ ih => exact ih

namespace Behaves

variable {before rest : Text} {c : Char}

/-- Behind the first token the rest behaves, too. -/
theorem behind (behaves : Behaves before (c :: rest)) :
    Behaves ((c :: rest.take (munch c rest).2).reverse ++ before) (rest.drop (munch c rest).2) := by
  obtain ⟨sound, hidden, closes, noBlock⟩ := behaves
  have cut : c :: rest = (c :: rest.take (munch c rest).2) ++ rest.drop (munch c rest).2 := by
    rw [List.cons_append, List.take_append_drop]
  have offset : Text.bytes ((c :: rest.take (munch c rest).2).reverse ++ before) =
      Text.bytes before + Text.bytes (c :: rest.take (munch c rest).2) := by
    rw [Text.bytes_append, Text.bytes_reverse, Nat.add_comm]
  rw [lexemesFrom_cons] at sound hidden closes noBlock
  rw [placesFrom] at closes noBlock
  constructor
  · rw [offset]
    exact fun lexeme member => sound lexeme (List.mem_cons_of_mem _ member)
  · intro front back slashes
    obtain ⟨lexeme, member, opaque_, starts, stops⟩ :=
      hidden ((c :: rest.take (munch c rest).2) ++ front) back (by
        rw [cut, slashes, List.append_assoc])
    rw [Text.bytes_append] at starts stops
    rw [offset]
    rcases List.mem_cons.1 member with rfl | later
    · -- The first token ends in front of these slashes.
      simp only [Lexeme.stop] at stops
      omega
    · refine ⟨lexeme, later, opaque_, ?_, ?_⟩ <;> omega
  · rw [offset]
    exact fun place member => closes place (List.mem_cons_of_mem _ member)
  · rw [offset]
    exact fun place member => noBlock place (List.mem_cons_of_mem _ member)

/-- No two slashes stand outside strings, `url(` tokens and comments. -/
theorem noSlashes (behaves : Behaves before (c :: rest)) {tail : Text}
    (token : (munch c rest).1 = .delim '/') (first : c :: rest.take (munch c rest).2 = ['/']) :
    rest.drop (munch c rest).2 ≠ '/' :: tail := by
  intro second
  have cut : c :: rest = [] ++ '/' :: '/' :: tail := by
    rw [← List.take_append_drop (munch c rest).2 rest, ← List.cons_append, first, second]
    rfl
  obtain ⟨lexeme, member, opaque_, starts, stops⟩ := behaves.hidden [] tail cut
  rw [lexemesFrom_cons] at member
  rcases List.mem_cons.1 member with rfl | later
  · simp [token] at opaque_
  · have one : '/'.utf8Size = 1 := rfl
    have behind := offset_le_start lexeme later
    rw [first, Text.bytes_cons] at behind
    rw [Text.bytes_nil] at starts
    omega

end Behaves

/-- The modes in which a scanner may stand in front of some tokens: it reads ordinary text, or an
argument that one of the tokens closes. -/
def Expected (mode : Mode) (tokens : List Lexeme) : Prop :=
  mode = .code ∨ mode = .url ∧ closesAlone tokens = true

section Steps

variable {place : Place} {rest : Text}

theorem marker?_of_ne_url (noUrl : place.lexeme.token ≠ .url) : place.marker? = none := by
  rw [Place.marker?, if_neg noUrl]

/-- A token of which a scanner reads the start as ordinary text. -/
theorem code_step (spells : place.behind.flatMap (·.text) = rest)
    (reading : Reading place.before place.lexeme.token place.lexeme.text rest)
    (sound : place.lexeme.token ≠ .badString ∧ place.lexeme.token ≠ .badUrl)
    (noSlashes : place.lexeme.token = .delim '/' → place.lexeme.text = ['/'] →
      ∀ tail, rest ≠ '/' :: tail)
    (closes : place.misleads = true → closesAlone place.behind = true)
    (noBlock : place.marker? ≠ some '*') :
    (place.marker? ≠ some '/' ∧ ∃ mode, Expected mode place.behind ∧
      Leads .code mode place.before place.lexeme.text rest) ∨
    (place.marker? = some '/' ∧ ∀ flag,
      (⟨false, place.before, place.lexeme.text ++ rest, .code, flag⟩ : Scanner).toList ≠ []) := by
  cases reading with
  | passed noUrl _ passes =>
      exact .inl ⟨by simp [marker?_of_ne_url noUrl], .code, .inl rfl, passes⟩
  | opened spelled opens taken passes =>
      have noUrl : place.lexeme.token ≠ .url := fun isUrl => by simp [isUrl, Token.opens?] at opens
      refine .inl ⟨by simp [marker?_of_ne_url noUrl], ?_⟩
      have parenthesis : place.misleads =
          (endsInUrl (spelled.reverse ++ place.before) && !opensQuoted rest) := by
        simp [Place.misleads, opens, taken, spells]
      rw [taken]
      cases misled : place.misleads with
      | false =>
          exact ⟨.code, .inl rfl, Leads.trans passes rfl (Leads.paren (parenthesis ▸ misled))⟩
      | true =>
          have seen := parenthesis.symm.trans misled
          rw [Bool.and_eq_true, Bool.not_eq_true'] at seen
          exact ⟨.url, .inr ⟨rfl, closes misled⟩,
            Leads.trans passes rfl (Leads.opensUrl seen.1 seen.2)⟩
  | call spelled argument isUrl taken call =>
      have marker : place.marker? = firstMarker (exposed place.before place.lexeme.text) := by
        rw [Place.marker?, if_pos isUrl]
      rw [marker] at noBlock ⊢
      rw [taken] at noBlock ⊢
      rcases firstMarker_cases (exposed place.before (spelled ++ '(' :: argument)) with
        hidden | shown | block
      · exact .inl ⟨by simp [hidden], .code, .inl rfl, call.passes hidden⟩
      · exact .inr ⟨shown, call.finds shown⟩
      · exact absurd block noBlock
  | spoilt bad => exact absurd bad (not_or.2 ⟨sound.2, sound.1⟩)
  | slashes tail isDelim taken second => exact absurd second (noSlashes isDelim taken tail)

/-- A token inside what a scanner takes for a `url(` argument. -/
theorem url_step (ended : rest = [] → place.behind = [])
    (reading : Reading place.before place.lexeme.token place.lexeme.text rest)
    (sound : place.lexeme.token ≠ .badString ∧ place.lexeme.token ≠ .badUrl)
    (alone : closesAlone (place.lexeme :: place.behind) = true) :
    place.marker? ≠ some '/' ∧ ∃ mode, Expected mode place.behind ∧
      Leads .url mode place.before place.lexeme.text rest := by
  rw [closesAlone, Bool.or_eq_true, Bool.and_eq_true, beq_iff_eq, List.all_eq_true] at alone
  rcases alone with closes | ⟨unclosed, alone⟩
  · refine ⟨?_, .code, .inl rfl, closes ▸ Leads.closesUrl place.before rest⟩
    rw [Place.marker?, closes]
    split
    · simp [exposed, firstMarker]
    · simp
  · have noClose : ')' ∉ place.lexeme.text := fun member => by simpa using unclosed ')' member
    have noUrl : place.lexeme.token ≠ .url := by
      intro isUrl
      cases reading with
      | passed noUrl _ _ => exact noUrl isUrl
      | opened spelled opens _ _ => simp [isUrl, Token.opens?] at opens
      | call spelled argument _ taken call =>
          rcases call.ended with last | atEnd
          · apply noClose
            rw [taken]
            exact List.mem_append_right _ (List.mem_cons_of_mem _ (List.mem_of_getLast? last))
          · rw [ended atEnd] at alone
            exact absurd alone (by simp [closesAlone])
      | spoilt bad => exact bad.elim sound.2 sound.1
      | slashes tail isDelim _ _ => simp [isUrl] at isDelim
    exact ⟨by simp [marker?_of_ne_url noUrl], .url, .inr ⟨rfl, alone⟩,
      Leads.inUrl noClose place.before rest⟩

end Steps

/-- **As long as scanner and tokens stay in step, the scanner finds a comment if and only if a
`url(` token exposes one to it.** -/
theorem toList_eq_nil_iff {before text : Text} (behaves : Behaves before text) (mode : Mode)
    (expected : Expected mode (lexemesFrom (Text.bytes before) text)) (flag : Bool) :
    (⟨false, before, text, mode, flag⟩ : Scanner).toList = [] ↔
      ∀ place ∈ placesFrom before (lexemesFrom (Text.bytes before) text),
        place.marker? ≠ some '/' := by
  induction text using induct_drop generalizing before mode flag with
  | nil =>
      have outside : mode.isLine = false := by rcases expected with rfl | ⟨rfl, _⟩ <;> rfl
      rw [Scanner.toList_nil outside rfl, lexemesFrom]
      simp [placesFrom]
  | cons c rest ih =>
      have cut : c :: rest.take (munch c rest).2 ++ rest.drop (munch c rest).2 = c :: rest := by
        rw [List.cons_append, List.take_append_drop]
      have offset : Text.bytes before + Text.bytes (c :: rest.take (munch c rest).2) =
          Text.bytes ((c :: rest.take (munch c rest).2).reverse ++ before) := by
        rw [Text.bytes_append, Text.bytes_reverse, Nat.add_comm]
      have reading := reading_munch before (rfl : munch c rest = _)
      have sound := behaves.sound
      have closes := behaves.closes
      have noBlock := behaves.noBlock
      rw [lexemesFrom_cons, offset] at sound closes noBlock expected ⊢
      rw [placesFrom] at closes noBlock ⊢
      rw [List.forall_mem_cons] at sound closes noBlock ⊢
      have onwards {mode' : Mode} := ih _ behaves.behind mode'
      rcases expected with rfl | ⟨rfl, alone⟩
      · have step := code_step (flatMap_text_lexemesFrom _ _) reading sound.1
          (fun isDelim taken tail => behaves.noSlashes isDelim taken) closes.1 noBlock.1
        rcases step with ⟨silent, mode', expected, leads⟩ | ⟨shown, found⟩
        · obtain ⟨flag', reads⟩ := leads flag
          rw [← cut, reads, onwards expected flag']
          exact (and_iff_right silent).symm
        · have finds := found flag
          rw [cut] at finds
          exact iff_of_false finds fun silent => silent.1 shown
      · have step := @url_step ⟨before, _, _⟩ _ (fun ended => by rw [ended, lexemesFrom])
          reading sound.1 alone
        obtain ⟨silent, mode', expected, leads⟩ := step
        obtain ⟨flag', reads⟩ := leads flag
        rw [← cut, reads, onwards expected flag']
        exact (and_iff_right silent).symm

/-- **What lies inside strings, `url(` tokens and block comments is no line comment**, unless a
`url(` token exposes it. Then the stylesheet is read as it stands. -/
theorem findsNothing_iff {source : Text} (hides : HidesSlashes source)
    (inStep : StaysInStep source) :
    (lineComments source = [] ∧ blankLineComments source = source ∧
      Outline.ofText source = Outline.ofPieces (Forest.ofText source).pieces) ↔
      ∀ place ∈ places source, place.marker? ≠ some '/' := by
  have behaves : Behaves [] source := {
    sound := hides.sound
    hidden := by
      rintro front back rfl
      have hidden := hides.hidden front.length (by simp) (by simp [Text.startsWith])
      rw [List.take_left] at hidden
      simpa [lexemes] using hidden
    closes := inStep.closes
    noBlock := inStep.noBlock }
  have found : lineComments source = [] ↔ ∀ place ∈ places source, place.marker? ≠ some '/' :=
    toList_eq_nil_iff behaves .code (.inl rfl) false
  rw [← found]
  constructor
  · exact fun nothing => nothing.1
  · intro nothing
    have unchanged : blankLineComments source = source :=
      blankLineComments_of_no_lineComments nothing
    exact ⟨nothing, unchanged, by rw [Outline.ofText, unchanged]⟩

theorem findsNothing_at_tokens :
    lineComments "b:url(//c) \"//d\"/*//e*/@url(f)".toList = [] ∧
      blankLineComments "b:url(//c) \"//d\"/*//e*/@url(f)".toList =
        "b:url(//c) \"//d\"/*//e*/@url(f)".toList ∧
      Outline.ofText "b:url(//c) \"//d\"/*//e*/@url(f)".toList =
        Outline.ofPieces (Forest.ofText "b:url(//c) \"//d\"/*//e*/@url(f)".toList).pieces := by
  have hides : HidesSlashes "b:url(//c) \"//d\"/*//e*/@url(f)".toList :=
    ⟨by decide +kernel, by decide +kernel⟩
  have inStep : StaysInStep "b:url(//c) \"//d\"/*//e*/@url(f)".toList :=
    ⟨by decide +kernel, by decide +kernel⟩
  exact (findsNothing_iff hides inStep).2 (by decide +kernel)

/-- A closing parenthesis behind a backslash is enough to expose a `//`. -/
theorem finds_behind_escaped_parenthesis :
    HidesSlashes "url(a\\)//b)".toList ∧ StaysInStep "url(a\\)//b)".toList ∧
      lineComments "url(a\\)//b)".toList ≠ [] :=
  ⟨⟨by decide +kernel, by decide +kernel⟩, ⟨by decide +kernel, by decide +kernel⟩,
    by decide +kernel⟩

-- Out of step, a scanner finds comments that no `url(` token exposes.
example : HidesSlashes "@url(b \"c)//d\")".toList ∧
    (∀ place ∈ places "@url(b \"c)//d\")".toList, place.marker? = none) ∧
    lineComments "@url(b \"c)//d\")".toList ≠ [] :=
  ⟨⟨by decide +kernel, by decide +kernel⟩, by decide +kernel, by decide +kernel⟩

example : HidesSlashes "url(a\\)/*b) \"*/ //\"".toList ∧
    (∀ place ∈ places "url(a\\)/*b) \"*/ //\"".toList, place.marker? ≠ some '/') ∧
    lineComments "url(a\\)/*b) \"*/ //\"".toList ≠ [] :=
  ⟨⟨by decide +kernel, by decide +kernel⟩, by decide +kernel, by decide +kernel⟩

end Css

end ScssLint
