import ScssLint.Proofs.Css.Passes
import ScssLint.Proofs.Stylesheet.Document

/-! # Lexing what is written

How identifiers, signs, white space and comments are cut off from the text behind them. A piece of
text is one token if the lexer stops behind it (`Css.Lexes`); whether it does may depend on the
character that follows.
-/

namespace ScssLint

namespace Css

/-- Whether the lexer cuts `text` off as one token when `rest` follows. -/
def Lexes (token : Token) (text rest : Text) : Prop :=
  ∀ offset, lexemesFrom offset (text ++ rest) =
    ⟨token, offset, text⟩ :: lexemesFrom (offset + Text.bytes text) rest

variable {token : Token} {text rest : Text} {c : Char}

theorem lexes_of_munch (cut : munch c (text ++ rest) = (token, text.length)) :
    Lexes token (c :: text) rest := by
  intro offset
  rw [List.cons_append, lexemesFrom, cut]
  simp only [List.take_left, List.drop_left]

/-- Whether no name goes on with a text, and no parenthesis opens there. -/
def stopsName : Text → Bool
  | [] => true
  | c :: _ => !isNameChar c && c != '\\' && c != '('

/-- A run of characters of names is read to its end. -/
theorem name_run (plain : ∀ d ∈ text, isNameChar d = true ∧ d ≠ '\x00')
    (ends : ∀ d ∈ rest.head?, isNameChar d = false ∧ d ≠ '\\') :
    name (text ++ rest) = (text, text.length) := by
  induction text with
  | nil =>
      cases rest with
      | nil => rw [List.nil_append, name]; rfl
      | cons c rest =>
          have noName := ends c rfl
          have noNull : c ≠ '\x00' := by
            rintro rfl
            exact absurd noName.1 (by decide)
          have noUnit : nameUnit? c rest = none := by
            simp [nameUnit?, noName, noNull]
          rw [List.nil_append, name, noUnit]
          rfl
  | cons c text ih =>
      obtain ⟨isName, noNull⟩ := plain c List.mem_cons_self
      have noEscape : c ≠ '\\' := by
        rintro rfl
        exact absurd isName (by decide)
      have unit : nameUnit? c (text ++ rest) = some (c, 0) := by
        simp [nameUnit?, noEscape, noNull, isName]
      rw [List.cons_append, name, unit]
      simp only [List.drop_zero, ih fun d member => plain d (List.mem_cons_of_mem c member)]
      rw [List.length_cons, Nat.add_zero, Nat.add_comm]

theorem name_append (plain : ∀ d ∈ text, isNameChar d = true ∧ d ≠ '\x00')
    (stops : stopsName rest = true) : name (text ++ rest) = (text, text.length) := by
  refine name_run plain fun d first => ?_
  obtain ⟨tail, rfl⟩ := List.head?_eq_some_iff.1 first
  simp only [stopsName, Bool.and_eq_true, Bool.not_eq_true', bne_iff_ne] at stops
  exact stops.1

/-- The characters of a lower-case identifier behind its first one. -/
def isIdentifierChar (c : Char) : Bool :=
  c.isLower || c.isDigit || c == '-' || c == '_'

theorem isNameChar_of_isIdentifierChar (inside : isIdentifierChar c = true) :
    isNameChar c = true ∧ c ≠ '\x00' := by
  constructor
  · simp only [isIdentifierChar, Bool.or_eq_true, beq_iff_eq] at inside
    rcases inside with ((lower | digit) | rfl) | rfl
    · simp [isNameChar, isNameStart, isAlpha_of_isLower lower]
    · simp [isNameChar, digit]
    · rfl
    · rfl
  · rintro rfl
    exact absurd inside (by decide)

theorem toLower_of_isIdentifierChar (inside : isIdentifierChar c = true) : c.toLower = c := by
  unfold Char.toLower
  split
  · rename_i upper
    have bounds : 65 ≤ c.toNat ∧ c.toNat ≤ 90 := upper
    simp only [isIdentifierChar, Bool.or_eq_true, beq_iff_eq] at inside
    rcases inside with ((lower | digit) | rfl) | rfl
    · have := toNat_of_isLower lower
      omega
    · have := toNat_of_isDigit digit
      omega
    · exact absurd bounds (by decide)
    · exact absurd bounds (by decide)
  · rfl

theorem munchIdent_of_name (stops : stopsName rest = true)
    (read : name (c :: text ++ rest) = (c :: text, (c :: text).length)) :
    munchIdent (c :: (text ++ rest)) = (.ident (c :: text), text.length) := by
  rw [← List.cons_append, munchIdent, read]
  simp only [List.drop_left]
  cases rest with
  | nil => rfl
  | cons d rest =>
      have noParen : d ≠ '(' := by
        simp only [stopsName, Bool.and_eq_true, bne_iff_ne] at stops
        exact stops.2
      split
      · rename_i argument ahead
        exact absurd (List.cons.inj ahead).1 noParen
      · rfl

theorem ne_of_isLower {d : Char} (lower : c.isLower = true) (other : d.isLower = false) :
    c ≠ d := by
  rintro rfl
  rw [lower] at other
  exact Bool.noConfusion other

theorem isDigit_of_isLower (lower : c.isLower = true) : c.isDigit = false := by
  apply Bool.eq_false_iff.2
  intro digit
  have large := toNat_of_isLower lower
  have small := toNat_of_isDigit digit
  omega

theorem isSpace_of_isLower (lower : c.isLower = true) : isSpace c = false := by
  simp only [isSpace, Bool.or_eq_false_iff, beq_eq_false_iff_ne]
  exact ⟨⟨⟨⟨ne_of_isLower lower rfl, ne_of_isLower lower rfl⟩, ne_of_isLower lower rfl⟩,
    ne_of_isLower lower rfl⟩, ne_of_isLower lower rfl⟩

theorem isNameStart_of_isLower (lower : c.isLower = true) : isNameStart c = true := by
  simp [isNameStart, isAlpha_of_isLower lower]

theorem startsIdent_of_isLower (lower : c.isLower = true) (rest : Text) :
    startsIdent (c :: rest) = true := by
  simp [startsIdent, ne_of_isLower (d := '-') lower rfl, ne_of_isLower (d := '\\') lower rfl,
    isNameStart_of_isLower lower]

theorem munch_of_isLower (lower : c.isLower = true) (rest : Text) :
    munch c rest = munchIdent (c :: rest) := by
  have other {d : Char} (upper : d.isLower = false) : c ≠ d := ne_of_isLower lower upper
  have noSpace : ¬ isSpace c = true := by simp [isSpace_of_isLower lower]
  have noMatcher :
      ¬ ((c = '$' ∨ c = '*' ∨ c = '^' ∨ c = '|' ∨ c = '~') ∧ rest.head? = some '=') := by
    simp [other (d := '$') rfl, other (d := '*') rfl, other (d := '^') rfl, other (d := '|') rfl,
      other (d := '~') rfl]
  have noNumber : ¬ (c.isDigit = true ∨ (c = '+' ∨ c = '-') ∧ startsNumber rest = true ∨
      c = '.' ∧ digits rest ≠ 0) := by
    simp [isDigit_of_isLower lower, other (d := '+') rfl, other (d := '-') rfl,
      other (d := '.') rfl]
  dsimp only [munch]
  rw [if_neg noSpace, if_neg (not_or.2 ⟨other rfl, other rfl⟩), if_neg (other rfl),
    if_neg noMatcher, if_neg (other rfl), if_neg (other rfl), if_neg (other rfl),
    if_neg (other rfl), if_neg (other rfl), if_neg (other rfl), if_neg (other rfl),
    if_neg (other rfl), if_neg (other rfl), if_neg noNumber, if_neg fun found => other rfl found.1,
    if_neg fun found => other rfl found.1, if_neg fun found => other rfl found.1,
    if_neg fun found => other rfl found.1, if_pos (startsIdent_of_isLower lower rest)]

/-- A hyphen in front of a letter, or of another hyphen and a letter. -/
theorem munch_hyphen (follows : c.isLower = true ∨ c = '-' ∧ rest.head?.any Char.isLower = true) :
    munch '-' (c :: rest) = munchIdent ('-' :: c :: rest) := by
  have noDigit : c.isDigit = false := by
    rcases follows with lower | ⟨rfl, _⟩
    · exact isDigit_of_isLower lower
    · rfl
  have noNumber : startsNumber (c :: rest) = false := by
    have noPoint : c ≠ '.' := by
      rcases follows with lower | ⟨rfl, _⟩
      · exact ne_of_isLower lower rfl
      · decide
    have noFraction : fractionLength (c :: rest) = 0 := by
      unfold fractionLength
      split
      · rename_i same
        exact absurd (List.cons.inj same).1 noPoint
      · rfl
    simp [startsNumber, digits, noDigit, noFraction]
  have noClose : Text.startsWith ['-', '>'] (c :: rest) = false := by
    rcases follows with lower | ⟨rfl, second⟩
    · have other : c ≠ '-' := ne_of_isLower lower rfl
      simp [Text.startsWith, List.isPrefixOf, Ne.symm other]
    · cases rest with
      | nil => rfl
      | cons d rest =>
          have other : d ≠ '>' := ne_of_isLower (by simpa using second) rfl
          simp [Text.startsWith, List.isPrefixOf, Ne.symm other]
  have starts : startsIdent ('-' :: c :: rest) = true := by
    rcases follows with lower | ⟨rfl, _⟩
    · simp [startsIdent, isNameStart_of_isLower lower]
    · simp [startsIdent]
  simp [munch, noNumber, noClose, starts, isSpace]

section Identifiers

variable (name : Identifier)

theorem isIdentifierChar_of_mem {d : Char} (member : d ∈ name.text) :
    isIdentifierChar d = true := by
  obtain ⟨text, sound⟩ := name
  cases text with
  | nil => exact Bool.noConfusion sound
  | cons c tail =>
      rw [isIdentifier, Bool.and_eq_true, List.all_eq_true] at sound
      rcases List.mem_cons.1 member with rfl | later
      · simp [isIdentifierChar, sound.1]
      · exact sound.2 d later

theorem exists_identifier : ∃ c tail, name.text = c :: tail ∧ c.isLower = true ∧
    ∀ d ∈ c :: tail, isNameChar d = true ∧ d ≠ '\x00' := by
  have inside (d : Char) (member : d ∈ name.text) : isNameChar d = true ∧ d ≠ '\x00' :=
    isNameChar_of_isIdentifierChar (isIdentifierChar_of_mem name member)
  obtain ⟨text, sound⟩ := name
  cases text with
  | nil => exact Bool.noConfusion sound
  | cons c tail =>
      rw [isIdentifier, Bool.and_eq_true] at sound
      exact ⟨c, tail, rfl, sound.1, inside⟩

theorem name_identifier (stops : stopsName rest = true) :
    Css.name (name.text ++ rest) = (name.text, name.text.length) := by
  obtain ⟨c, tail, same, _, inside⟩ := exists_identifier name
  rw [same]
  exact name_append inside stops

/-- An identifier. -/
theorem lexes_identifier (stops : stopsName rest = true) :
    Lexes (.ident name.text) name.text rest := by
  obtain ⟨c, tail, same, lower, inside⟩ := exists_identifier name
  rw [same]
  apply lexes_of_munch
  rw [munch_of_isLower lower]
  exact munchIdent_of_name stops (name_append inside stops)

/-- An identifier behind a hyphen. -/
theorem lexes_hyphen (stops : stopsName rest = true) :
    Lexes (.ident ('-' :: name.text)) ('-' :: name.text) rest := by
  obtain ⟨c, tail, same, lower, inside⟩ := exists_identifier name
  have inside' : ∀ d ∈ '-' :: c :: tail, isNameChar d = true ∧ d ≠ '\x00' :=
    List.forall_mem_cons.2 ⟨⟨rfl, by decide⟩, inside⟩
  rw [same]
  apply lexes_of_munch
  rw [List.cons_append, munch_hyphen (.inl lower), ← List.cons_append]
  exact munchIdent_of_name stops (name_append inside' stops)

/-- An identifier behind two hyphens. -/
theorem lexes_hyphens (stops : stopsName rest = true) :
    Lexes (.ident ('-' :: '-' :: name.text)) ('-' :: '-' :: name.text) rest := by
  obtain ⟨c, tail, same, lower, inside⟩ := exists_identifier name
  have inside' : ∀ d ∈ '-' :: '-' :: c :: tail, isNameChar d = true ∧ d ≠ '\x00' :=
    List.forall_mem_cons.2 ⟨⟨rfl, by decide⟩, List.forall_mem_cons.2 ⟨⟨rfl, by decide⟩, inside⟩⟩
  rw [same]
  apply lexes_of_munch
  rw [List.cons_append, munch_hyphen (.inr ⟨rfl, by simpa using lower⟩), ← List.cons_append]
  exact munchIdent_of_name stops (name_append inside' stops)

/-- An identifier behind an underscore. -/
theorem lexes_underscore (stops : stopsName rest = true) :
    Lexes (.ident ('_' :: name.text)) ('_' :: name.text) rest := by
  obtain ⟨c, tail, same, _, inside⟩ := exists_identifier name
  have inside' : ∀ d ∈ '_' :: c :: tail, isNameChar d = true ∧ d ≠ '\x00' :=
    List.forall_mem_cons.2 ⟨⟨rfl, by decide⟩, inside⟩
  have munched (rest : Text) : munch '_' rest = munchIdent ('_' :: rest) := by
    simp [munch, isSpace, startsIdent, isNameStart]
  rw [same]
  apply lexes_of_munch
  rw [munched]
  exact munchIdent_of_name stops (name_append inside' stops)

/-- An identifier behind a hash. -/
theorem lexes_idHash (stops : stopsName rest = true) :
    Lexes .idHash ('#' :: name.text) rest := by
  have read := name_identifier name stops
  obtain ⟨c, tail, same, lower, _⟩ := exists_identifier name
  have starts : startsIdent (name.text ++ rest) = true := by
    rw [same]
    exact startsIdent_of_isLower lower _
  apply lexes_of_munch
  simp [munch, isSpace, starts, read]

theorem toLower_identifier : name.text.map Char.toLower = name.text := by
  refine (List.map_congr_left fun d member => ?_).trans (List.map_id' name.text)
  exact toLower_of_isIdentifierChar (isIdentifierChar_of_mem name member)

/-- An identifier with a parenthesis behind it, other than `url`. -/
theorem lexes_function (other : name.text ≠ ['u', 'r', 'l']) (rest : Text) :
    Lexes (.function name.text) (name.text ++ ['(']) rest := by
  obtain ⟨c, tail, same, lower, inside⟩ := exists_identifier name
  have read : Css.name (name.text ++ '(' :: rest) = (name.text, name.text.length) := by
    rw [same]
    refine name_run inside fun d first => ?_
    obtain rfl := Option.some.inj first
    exact ⟨rfl, by decide⟩
  have noUrl : Text.equalAnyCase name.text ['u', 'r', 'l'] = false := by
    rw [Text.equalAnyCase, toLower_identifier]
    exact beq_eq_false_iff_ne.2 other
  rw [same] at read noUrl ⊢
  have munched : munchIdent (c :: (tail ++ '(' :: rest)) =
      (.function (c :: tail), (c :: tail).length) := by
    rw [← List.cons_append, munchIdent, read]
    simp only [List.drop_left, noUrl, Bool.false_eq_true, ↓reduceIte]
  apply lexes_of_munch
  rw [munch_of_isLower lower, List.append_eq, List.append_assoc, List.singleton_append, munched,
    List.length_append, List.length_singleton, List.length_cons]

/-- The name of an at-rule. -/
theorem lexes_at (stops : stopsName rest = true) :
    Lexes (.atKeyword name.text) ('@' :: name.text) rest := by
  have read := name_identifier name stops
  obtain ⟨c, tail, same, lower, _⟩ := exists_identifier name
  have starts : startsIdent (name.text ++ rest) = true := by
    rw [same]
    exact startsIdent_of_isLower lower _
  apply lexes_of_munch
  simp [munch, isSpace, starts, read]

end Identifiers

/-- A sign that is a token by itself wherever it stands. -/
theorem lexes_colon (rest : Text) : Lexes .colon [':'] rest :=
  lexes_of_munch rfl

theorem lexes_semicolon (rest : Text) : Lexes .semicolon [';'] rest :=
  lexes_of_munch rfl

theorem lexes_opening (rest : Text) : Lexes (.opening .curly) ['\x7B'] rest :=
  lexes_of_munch rfl

theorem lexes_closing (rest : Text) : Lexes (.closing .curly) ['\x7D'] rest :=
  lexes_of_munch rfl

/-- The hash of an interpolation. -/
theorem lexes_hash (rest : Text) : Lexes (.delim '#') ['#'] ('\x7B' :: rest) :=
  lexes_of_munch rfl

theorem lexes_ampersand (rest : Text) : Lexes (.delim '&') ['&'] rest :=
  lexes_of_munch rfl

theorem lexes_dot (noDigit : ∀ d ∈ rest.head?, d.isDigit = false) :
    Lexes (.delim '.') ['.'] rest := by
  have noDigits : digits rest = 0 := by
    cases rest with
    | nil => rfl
    | cons d rest => simp [digits, noDigit d rfl]
  apply lexes_of_munch
  simp [munch, isSpace, noDigits, startsIdent, isNameStart]

theorem lexes_comma (rest : Text) : Lexes .comma [','] rest :=
  lexes_of_munch rfl

theorem lexes_parenthesis (rest : Text) : Lexes (.closing .parenthesis) [')'] rest :=
  lexes_of_munch rfl

theorem lexes_openingSquare (rest : Text) : Lexes (.opening .square) ['['] rest :=
  lexes_of_munch rfl

theorem lexes_closingSquare (rest : Text) : Lexes (.closing .square) [']'] rest :=
  lexes_of_munch rfl

theorem lexes_equals (rest : Text) : Lexes (.delim '=') ['='] rest :=
  lexes_of_munch rfl

theorem lexes_star (noEquals : rest.head? ≠ some '=') : Lexes (.delim '*') ['*'] rest := by
  apply lexes_of_munch
  simp [munch, isSpace, noEquals, startsIdent, isNameStart]

/-- The sign of a combinator in front of a space. -/
theorem lexes_combinator (sign : c = '>' ∨ c = '+' ∨ c = '~') (rest : Text) :
    Lexes (.delim c) [c] (' ' :: rest) := by
  rcases sign with rfl | rfl | rfl
  · exact lexes_of_munch rfl
  · exact lexes_of_munch rfl
  · exact lexes_of_munch rfl

theorem lexes_dollar (lower : c.isLower = true) : Lexes (.delim '$') ['$'] (c :: rest) := by
  apply lexes_of_munch
  simp [munch, isSpace, ne_of_isLower (d := '=') lower rfl, startsIdent, isNameStart]

/-- White space up to the next character that is none. -/
theorem lexes_space (spaces : ∀ d ∈ c :: text, isSpace d = true)
    (stops : ∀ d ∈ rest.head?, isSpace d = false) : Lexes .whitespace (c :: text) rest := by
  obtain ⟨first, others⟩ := List.forall_mem_cons.1 spaces
  have run : (text ++ rest).takeWhile isSpace = text := by
    rw [List.takeWhile_append_of_pos others]
    cases rest with
    | nil => simp
    | cons d rest => rw [List.takeWhile_cons_of_neg (by simp [stops d rfl]), List.append_nil]
  apply lexes_of_munch
  simp only [munch, first, run, ↓reduceIte]

theorem commentLength_append {body : Text} (noCloser : ¬ ['*', '/'] <:+: body) (rest : Text) :
    commentLength (body ++ '*' :: '/' :: rest) = body.length + 2 := by
  induction body with
  | nil => rfl
  | cons c body ih =>
      have shorter : ¬ ['*', '/'] <:+: body := fun inside => noCloser (List.infix_cons inside)
      have follows : ∀ tail, c = '*' → body ++ '*' :: '/' :: rest = '/' :: tail → False := by
        rintro tail rfl second
        cases body with
        | nil => exact absurd (List.cons.inj second).1 (by decide)
        | cons d body =>
            obtain rfl := (List.cons.inj second).1
            exact noCloser (List.prefix_append ['*', '/'] body).isInfix
      rw [List.cons_append, commentLength.eq_3 _ _ follows, ih shorter, List.length_cons]
      omega

/-- A block comment. -/
theorem lexes_comment {body : Text} (noCloser : ¬ ['*', '/'] <:+: body) (rest : Text) :
    Lexes .comment ('/' :: '*' :: (body ++ ['*', '/'])) rest := by
  have munched : munch '/' ('*' :: (body ++ '*' :: '/' :: rest)) =
      (.comment, 1 + commentLength (body ++ '*' :: '/' :: rest)) := rfl
  apply lexes_of_munch
  rw [List.cons_append, List.append_assoc, List.cons_append, List.cons_append, List.nil_append,
    munched, commentLength_append noCloser rest]
  simp only [List.length_cons, List.length_append, List.length_nil]
  congr 1
  omega

/-- White space and block comments. -/
inductive IsGap : Text → Prop
  | nil : IsGap []
  | space {c : Char} {rest : Text} : isSpace c = true → IsGap rest → IsGap (c :: rest)
  | comment {body rest : Text} : ¬ ['*', '/'] <:+: body → IsGap rest →
      IsGap ('/' :: '*' :: (body ++ '*' :: '/' :: rest))

namespace IsGap

variable {gap : Text}

theorem append (first : IsGap gap) (second : IsGap rest) : IsGap (gap ++ rest) := by
  induction first with
  | nil => exact second
  | space blank _ ih => exact .space blank ih
  | @comment body rest' noCloser _ ih =>
      rw [List.cons_append, List.cons_append, List.append_assoc]
      exact .comment noCloser ih

theorem of_spaces (blank : ∀ c ∈ text, isSpace c = true) : IsGap text := by
  induction text with
  | nil => exact .nil
  | cons c text ih =>
      exact .space (blank c List.mem_cons_self)
        (ih fun d member => blank d (List.mem_cons_of_mem c member))

theorem dropSpaces (isGap : IsGap gap) : IsGap (gap.dropWhile isSpace) := by
  induction isGap with
  | nil => exact .nil
  | space blank _ ih => rwa [List.dropWhile_cons_of_pos blank]
  | comment noCloser behind _ => exact .comment noCloser behind

theorem blanked (part : GapPart) : IsGap part.blanked := by
  cases part with
  | space c blank => exact .space blank .nil
  | block body noCloser => exact .comment noCloser .nil
  | line body inLine =>
      refine append (of_spaces fun c member => ?_) (of_spaces fun c member => ?_)
      · rw [(List.mem_replicate.1 member).2]
        rfl
      · unfold Comment.lineEnd at member
        split at member
        · rcases List.mem_cons.1 member with rfl | member
          · rfl
          · rw [List.mem_singleton.1 member]
            rfl
        · rw [List.mem_singleton.1 member]
          rfl

theorem flatMap_blanked (parts : Gap) : IsGap (parts.flatMap GapPart.blanked) := by
  induction parts with
  | nil => exact .nil
  | cons part parts ih => exact append (blanked part) ih

/-- A name ends where a gap begins. -/
theorem stopsName (isGap : IsGap gap) (stops : stopsName rest = true) :
    Css.stopsName (gap ++ rest) = true := by
  cases isGap with
  | nil => exact stops
  | space blank _ =>
      simp only [isSpace, Bool.or_eq_true, beq_iff_eq] at blank
      rcases blank with (((rfl | rfl) | rfl) | rfl) | rfl <;> rfl
  | comment _ _ => rfl

/-- A gap is cut into white space and comments. -/
theorem lexes (isGap : IsGap gap) (stops : ∀ d ∈ rest.head?, isSpace d = false) (offset : Nat) :
    ∃ tokens, lexemesFrom offset (gap ++ rest) =
        tokens ++ lexemesFrom (offset + Text.bytes gap) rest ∧
      ∀ lexeme ∈ tokens, lexeme.token = .whitespace ∨ lexeme.token = .comment := by
  induction left : gap.length using Nat.strongRecOn generalizing gap offset with
  | _ count ih =>
      subst left
      cases isGap with
      | nil => exact ⟨[], rfl, by simp⟩
      | @space c tail blank behind =>
          -- White space is one token up to the next comment or the end of the gap.
          obtain ⟨run, later, rfl, blanks, ends⟩ := Text.exists_leading isSpace tail
          have goesOn : IsGap later := by
            have dropped := behind.dropSpaces
            rw [List.dropWhile_append_of_pos blanks] at dropped
            cases later with
            | nil => exact .nil
            | cons d later =>
                rwa [List.dropWhile_cons_of_neg (by simp [ends d later rfl])] at dropped
          have stops' : ∀ d ∈ (later ++ rest).head?, isSpace d = false := by
            cases later with
            | nil => exact stops
            | cons d later =>
                intro first member
                obtain rfl : d = first := Option.some.inj member
                exact ends d later rfl
          have shorter : later.length < (c :: (run ++ later)).length := by
            rw [List.length_cons, List.length_append]
            omega
          obtain ⟨tokens, reads, all⟩ :=
            ih _ shorter goesOn (offset + Text.bytes (c :: run)) rfl
          refine ⟨⟨.whitespace, offset, c :: run⟩ :: tokens, ?_,
            List.forall_mem_cons.2 ⟨.inl rfl, all⟩⟩
          have first := lexes_space (List.forall_mem_cons.2 ⟨blank, blanks⟩) stops' offset
          have length : Text.bytes (c :: (run ++ later)) =
              Text.bytes (c :: run) + Text.bytes later := Text.bytes_append (c :: run) later
          rw [List.cons_append, List.append_assoc, ← List.cons_append, first, reads, length,
            Nat.add_assoc]
          rfl
      | @comment body tail noCloser behind =>
          have shorter : tail.length < ('/' :: '*' :: (body ++ '*' :: '/' :: tail)).length := by
            simp only [List.length_cons, List.length_append]
            omega
          have split : '/' :: '*' :: (body ++ '*' :: '/' :: tail) =
              ('/' :: '*' :: (body ++ ['*', '/'])) ++ tail := by simp
          obtain ⟨tokens, reads, all⟩ := ih _ shorter behind
            (offset + Text.bytes ('/' :: '*' :: (body ++ ['*', '/']))) rfl
          refine ⟨⟨.comment, offset, '/' :: '*' :: (body ++ ['*', '/'])⟩ :: tokens, ?_,
            List.forall_mem_cons.2 ⟨.inr rfl, all⟩⟩
          rw [split, List.append_assoc, lexes_comment noCloser, reads, Text.bytes_append,
            Nat.add_assoc]
          rfl

end IsGap

end Css

end ScssLint
