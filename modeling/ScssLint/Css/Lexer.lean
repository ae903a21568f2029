import ScssLint.Css.Name
import ScssLint.Css.Token

/-!
# Cutting a text into tokens

`lexemes` cuts a text from the left.  Each step looks at the first character, finds out which token
starts there and how many further characters belong to it (`munch`), and goes on behind the token,
so the spellings of the tokens add up to the text (`flatMap_text_lexemes`).
-/

namespace ScssLint

namespace Css

/-- A token, and how many characters behind its first one belong to it. -/
abbrev Munched := Token × Nat

/-- How many characters a comment takes behind its `/*`. -/
def commentLength : Text → Nat
  | [] => 0
  | '*' :: '/' :: _ => 2
  | _ :: rest => 1 + commentLength rest

/-- How many characters a string takes behind its opening quote, and whether it is cut off by a
line break. -/
def stringLength (quote : Char) (text : Text) : Nat × Bool :=
  match text with
  | [] => (0, false)
  | c :: rest =>
      if c = quote then
        (1, false)
      else if isNewline c then
        (0, true)
      else
        let escaped :=
          if c = '\\' then
            if newlineAhead rest then spaceLength rest else (escape rest).2
          else
            0
        let (length, cut) := stringLength quote (rest.drop escaped)
        (1 + escaped + length, cut)
termination_by text.length

/-- How many characters a malformed `url(` argument takes from here on. -/
def badUrlLength : Text → Nat
  | [] => 0
  | ')' :: _ => 1
  | '\\' :: ')' :: rest => 2 + badUrlLength rest
  | '\\' :: '\\' :: rest => 2 + badUrlLength rest
  | _ :: rest => 1 + badUrlLength rest

/-- The characters that cannot stand in an unquoted `url(` argument. -/
def spoilsUrl (c : Char) : Bool :=
  let n := c.toNat
  (1 ≤ n && n ≤ 8) || n == 0xB || (0xE ≤ n && n ≤ 0x1F) || n == 0x7F ||
    c == '"' || c == '\'' || c == '('

/-- How many characters an unquoted `url(` argument takes from a first white-space character on, and
which token it is. -/
def urlEndLength (text : Text) : Munched :=
  let spaces := (text.takeWhile isSpace).length
  match text.drop spaces with
  | [] => (.url, spaces)
  | ')' :: _ => (.url, spaces + 1)
  | _ :: rest => (.badUrl, spaces + 1 + badUrlLength rest)

/-- How many characters an unquoted `url(` argument takes, and which token it is. -/
def urlLength (text : Text) : Munched :=
  match text with
  | [] => (.url, 0)
  | c :: rest =>
      if isSpace c then
        urlEndLength text
      else if c = ')' then
        (.url, 1)
      else if spoilsUrl c then
        (.badUrl, 1 + badUrlLength rest)
      else if c = '\\' ∧ newlineAhead rest then
        (.badUrl, 1 + badUrlLength rest)
      else
        let escaped := if c = '\\' then (escape rest).2 else 0
        let (token, length) := urlLength (rest.drop escaped)
        (token, 1 + escaped + length)
termination_by text.length

/-- The token that an identifier starts. -/
def munchIdent (text : Text) : Munched :=
  let (decoded, length) := name text
  match text.drop length with
  | '(' :: argument =>
      if Text.equalAnyCase decoded ['u', 'r', 'l'] then
        let spaces := (argument.takeWhile isSpace).length
        match argument.drop spaces with
        | '"' :: _ | '\'' :: _ => (.function decoded, length)
        | inside =>
            let (token, taken) := urlLength inside
            (token, length + spaces + taken)
      else
        (.function decoded, length)
  | _ => (.ident decoded, length - 1)

/-- How many digits come next. -/
def digits (text : Text) : Nat :=
  (text.takeWhile Char.isDigit).length

/-- How many characters a decimal point and the digits behind it take. -/
def fractionLength : Text → Nat
  | '.' :: rest => if digits rest = 0 then 0 else 1 + digits rest
  | _ => 0

/-- How many characters an exponent takes. -/
def exponentLength : Text → Nat
  | [] => 0
  | c :: rest =>
      if c = 'e' ∨ c = 'E' then
        let sign := if rest.head? = some '+' ∨ rest.head? = some '-' then 1 else 0
        let power := digits (rest.drop sign)
        if power = 0 then 0 else 1 + sign + power
      else
        0

/-- Whether a number without a sign comes next. -/
def startsNumber (text : Text) : Bool :=
  digits text != 0 || fractionLength text != 0

/-- The token that a number starts, with the number of all its characters. -/
def munchNumber (text : Text) : Munched :=
  let sign := if text.head? = some '+' ∨ text.head? = some '-' then 1 else 0
  let whole := sign + digits (text.drop sign)
  let point := whole + fractionLength (text.drop whole)
  let length := point + exponentLength (text.drop point)
  let rest := text.drop length
  if rest.head? = some '%' then
    (.percentage, length)
  else if startsIdent rest then
    (.dimension, length + (name rest).2 - 1)
  else
    (.number, length - 1)

/-- The token that starts with `c` when `rest` follows it. -/
def munch (c : Char) (rest : Text) : Munched :=
  let follows := fun (sign : Char) => rest.head? = some sign
  if isSpace c then
    (.whitespace, (rest.takeWhile isSpace).length)
  else if c = '"' ∨ c = '\'' then
    let (length, cut) := stringLength c rest
    (if cut then .badString else .string, length)
  else if c = '#' then
    if startsIdent rest then
      (.idHash, (name rest).2)
    else if rest.head?.any fun d => d.isDigit || d == '-' then
      (.hash, (name rest).2)
    else
      (.delim c, 0)
  else if (c = '$' ∨ c = '*' ∨ c = '^' ∨ c = '|' ∨ c = '~') ∧ follows '=' then
    (.matcher c, 1)
  else if c = '(' then (.opening .parenthesis, 0)
  else if c = ')' then (.closing .parenthesis, 0)
  else if c = '[' then (.opening .square, 0)
  else if c = ']' then (.closing .square, 0)
  else if c = '\x7B' then (.opening .curly, 0)
  else if c = '\x7D' then (.closing .curly, 0)
  else if c = ',' then (.comma, 0)
  else if c = ':' then (.colon, 0)
  else if c = ';' then (.semicolon, 0)
  else if c.isDigit ∨ ((c = '+' ∨ c = '-') ∧ startsNumber rest) ∨
      (c = '.' ∧ digits rest ≠ 0) then
    munchNumber (c :: rest)
  else if c = '-' ∧ Text.startsWith ['-', '>'] rest then
    (.commentClose, 2)
  else if c = '<' ∧ Text.startsWith ['!', '-', '-'] rest then
    (.commentOpen, 3)
  else if c = '/' ∧ follows '*' then
    (.comment, 1 + commentLength (rest.drop 1))
  else if c = '@' ∧ startsIdent rest then
    let (decoded, length) := name rest
    (.atKeyword decoded, length)
  else if startsIdent (c :: rest) then
    munchIdent (c :: rest)
  else
    (.delim c, 0)

/-- The tokens of a text that starts at `offset`. -/
def lexemesFrom (offset : Nat) (text : Text) : List Lexeme :=
  match text with
  | [] => []
  | c :: rest =>
      let (token, more) := munch c rest
      let taken := c :: rest.take more
      ⟨token, offset, taken⟩ :: lexemesFrom (offset + Text.bytes taken) (rest.drop more)
termination_by text.length

/-- The tokens of a text. -/
def lexemes (text : Text) : List Lexeme :=
  lexemesFrom 0 text

theorem flatMap_text_lexemesFrom (offset : Nat) (text : Text) :
    (lexemesFrom offset text).flatMap (·.text) = text := by
  fun_induction lexemesFrom offset text with
  | case1 => rfl
  | case2 offset c rest token more hmunch taken ih =>
      simp only [List.flatMap_cons, ih]
      simp [taken]

/-- Nothing is lost and nothing is added: the tokens spell the text. -/
theorem flatMap_text_lexemes (text : Text) :
    (lexemes text).flatMap (·.text) = text :=
  flatMap_text_lexemesFrom 0 text

end Css

end ScssLint
