import ScssLint.Text.Basic

/-!
# Tokens

The tokens of the style language, and the brackets that group them.  A lexeme is a token with its
place and its spelling.
-/

namespace ScssLint

namespace Css

/-- The three kinds of brackets. -/
inductive Bracket where
  | parenthesis
  | square
  | curly
deriving DecidableEq, Repr

/-- A token.  Names are decoded: their escapes are replaced by what they stand for. -/
inductive Token where
  | ident (name : Text)
  /-- A name and the parenthesis that it is glued to. -/
  | function (name : Text)
  | atKeyword (name : Text)
  /-- `#` and a name that cannot stand alone. -/
  | hash
  /-- `#` and an identifier. -/
  | idHash
  | string
  /-- A string that a line break cuts off. -/
  | badString
  /-- An unquoted `url(` with its argument. -/
  | url
  /-- An unquoted `url(` with an argument that is none. -/
  | badUrl
  /-- A character that starts no longer token. -/
  | delim (sign : Char)
  | number
  | percentage
  | dimension
  | whitespace
  | comment
  | colon
  | semicolon
  | comma
  /-- `=` with one of the signs `~`, `|`, `^`, `$`, `*` in front. -/
  | matcher (sign : Char)
  /-- `<!--` -/
  | commentOpen
  /-- `-->` -/
  | commentClose
  | opening (bracket : Bracket)
  | closing (bracket : Bracket)
deriving DecidableEq, Repr

namespace Token

/-- The bracket that a token opens; a function opens a parenthesis. -/
def opens? : Token → Option Bracket
  | function _ => some .parenthesis
  | opening bracket => some bracket
  | _ => none

/-- The bracket that a token closes. -/
def closes? : Token → Option Bracket
  | closing bracket => some bracket
  | _ => none

end Token

/-- A token at its place in a text. -/
structure Lexeme where
  token : Token
  /-- The byte offset of the token. -/
  start : Nat
  /-- The token as it is written. -/
  text : Text
deriving DecidableEq, Repr

namespace Lexeme

/-- The byte offset behind the token. -/
def stop (lexeme : Lexeme) : Nat :=
  lexeme.start + Text.bytes lexeme.text

end Lexeme

end Css

end ScssLint
