import ScssLint.Comment.Basic

/-!
# Scanning for comments

A scanner reads a stylesheet from left to right and hands out its comments one by one.  It knows
the three places where a comment marker is ordinary text: strings, unquoted `url(` arguments and
escapes.  `Scanner.next` gives the next comment; `Scanner.toList` all comments that are still to
come.
-/

namespace ScssLint

namespace Comment

/-- What a scanner is in the middle of. -/
inductive Mode where
  /-- Ordinary text. -/
  | code
  /-- A string that ends at `quote`. -/
  | quoted (quote : Char)
  /-- An unquoted `url(` argument. -/
  | url
  /-- A block comment; `body` is its text so far, last character first. -/
  | block (start : Nat) (inlineBefore : Bool) (body : Text)
  /-- A line comment; `body` is its text so far. -/
  | line (start : Nat) (inlineBefore : Bool) (body : Text)
deriving DecidableEq, Repr

/-- A place in a text, and what is known there. -/
structure Scanner where
  /-- Whether block comments are handed out, too. -/
  blocks : Bool
  /-- The text before the place, last character first. -/
  before : Text
  /-- The text behind the place. -/
  rest : Text
  mode : Mode
  /-- Something other than white space and comments was read on this line. -/
  lineHasCode : Bool
deriving DecidableEq, Repr

/-- What a scanner makes of the character in front of it. -/
structure Reaction where
  /-- How many further characters are read along with it. -/
  more : Nat
  mode : Mode
  lineHasCode : Bool
  /-- The comment that ends here. -/
  found : Option Comment

/-- Whether the characters of a function name, last one first, are `url` in any case. -/
def endsInUrl (before : Text) : Bool :=
  let name := before.takeWhile fun c => c.isAlphanum || c == '-' || c == '_'
  Text.equalAnyCase name.reverse ['u', 'r', 'l']

/-- Whether the first character behind white space is a quote. -/
def opensQuoted (argument : Text) : Bool :=
  match argument.dropWhile isSpace with
  | [] => false
  | c :: _ => c == '"' || c == '\''

/-- Whether code was seen on the line once `c` is read as ordinary text. -/
def hasCodeAfter (lineHasCode : Bool) (c : Char) : Bool :=
  if c = '\n' then false else lineHasCode || !isSpace c

/-- How many characters are read along with a backslash: a line break is left in place. -/
def escapeLength : Text → Nat
  | [] => 0
  | c :: _ => if c = '\n' then 0 else 1

/-- The line comment that starts at `start` and has `body` behind its marker. -/
def ofLine (start : Nat) (inlineBefore : Bool) (body : Text) : Comment where
  kind := .doubleSlash
  span := ⟨start, start + 2 + Text.bytes body⟩
  text := Text.trim body
  inlineBefore := inlineBefore
  inlineAfter := false

/-- Whether the rest of a line is neither blank nor the start of another comment. -/
def hasCodeAhead (rest : Text) : Bool :=
  let line := Text.trim (rest.takeWhile (· ≠ '\n'))
  !line.isEmpty && !Text.startsWith ['/', '/'] line && !Text.startsWith ['/', '*'] line

/-- The block comment that starts at `start`, has `body` between its markers and `rest` behind. -/
def ofBlock (start : Nat) (inlineBefore : Bool) (body rest : Text) : Comment where
  kind := .block
  span := ⟨start, start + 2 + Text.bytes body + 2⟩
  text := Text.trim body
  inlineBefore := inlineBefore
  inlineAfter := hasCodeAhead rest

/-- A line without the carriage return in front of its line feed. -/
def withoutReturn (line : Text) : Text :=
  if line.getLast? = some '\r' then line.dropLast else line

namespace Scanner

/-- A scanner at the start of a text. -/
def ofText (blocks : Bool) (text : Text) : Scanner :=
  ⟨blocks, [], text, .code, false⟩

/-- The whole text that is scanned. -/
def source (scanner : Scanner) : Text :=
  scanner.before.reverse ++ scanner.rest

/-- The byte offset of the place. -/
def offset (scanner : Scanner) : Nat :=
  Text.bytes scanner.before

/-- What the scanner makes of `c`, when `rest` follows it. -/
def react (scanner : Scanner) (c : Char) (rest : Text) : Reaction :=
  let code := scanner.lineHasCode
  match scanner.mode with
  | .code =>
      if c = '/' ∧ rest.head? = some '/' then
        ⟨1, .line scanner.offset code [], code, none⟩
      else if c = '/' ∧ rest.head? = some '*' then
        ⟨1, .block scanner.offset code [], code, none⟩
      else if c = '"' ∨ c = '\'' then
        ⟨0, .quoted c, true, none⟩
      else if c = '\\' then
        ⟨escapeLength rest, .code, true, none⟩
      else if c = '(' then
        let argument := endsInUrl scanner.before && !opensQuoted rest
        ⟨0, if argument then .url else .code, true, none⟩
      else
        ⟨0, .code, hasCodeAfter code c, none⟩
  | .quoted quote =>
      if c = '\\' then
        -- An escape hides its character, but only an ASCII character is hidden as a whole.
        let wide := (rest.take 1).any fun d => 1 < d.utf8Size
        ⟨escapeLength rest, .quoted quote, code || wide, none⟩
      else if c = quote then
        ⟨0, .code, code, none⟩
      else
        ⟨0, .quoted quote, hasCodeAfter code c, none⟩
  | .url =>
      if c = ')' then
        ⟨0, .code, code, none⟩
      else
        ⟨0, .url, hasCodeAfter code c, none⟩
  | .block start inlineBefore body =>
      if c = '*' ∧ rest.head? = some '/' then
        let found :=
          if scanner.blocks then
            some (ofBlock start inlineBefore body.reverse (rest.drop 1))
          else
            none
        ⟨1, .code, code, found⟩
      else
        ⟨0, .block start inlineBefore (c :: body), if c = '\n' then false else code, none⟩
  | .line start inlineBefore _ =>
      let line := (c :: rest).takeWhile (· ≠ '\n')
      if line.length ≤ rest.length then
        ⟨line.length, .code, false, some (ofLine start inlineBefore (withoutReturn line))⟩
      else
        ⟨rest.length, .line start inlineBefore line, code, none⟩

/-- The scanner once `c` and the characters that its reaction takes from `rest` are read. -/
def after (scanner : Scanner) (c : Char) (rest : Text) (reaction : Reaction) : Scanner where
  blocks := scanner.blocks
  before := (rest.take reaction.more).reverse ++ c :: scanner.before
  rest := rest.drop reaction.more
  mode := reaction.mode
  lineHasCode := reaction.lineHasCode

theorem length_rest_after_lt (scanner : Scanner) (c : Char) (rest : Text) (reaction : Reaction) :
    (scanner.after c rest reaction).rest.length < (c :: rest).length := by
  simp only [after, List.length_drop, List.length_cons]
  omega

/-- The line comment that is cut off by the end of the text, if there is one, and the scanner
without it. -/
def finish (scanner : Scanner) : Option Comment × Scanner :=
  match scanner.mode with
  | .line start inlineBefore body =>
      (some (ofLine start inlineBefore body), { scanner with mode := .code })
  | _ => (none, scanner)

/-- The next comment and the scanner behind it. -/
def next (scanner : Scanner) : Option Comment × Scanner :=
  match _hrest : scanner.rest with
  | [] => scanner.finish
  | c :: rest =>
      let reaction := scanner.react c rest
      match reaction.found with
      | some comment => (some comment, scanner.after c rest reaction)
      | none => (scanner.after c rest reaction).next
termination_by scanner.rest.length
decreasing_by
  rw [_hrest]
  exact length_rest_after_lt ..

/-- The comments that are still to come, in order. -/
def toList (scanner : Scanner) : List Comment :=
  match _hrest : scanner.rest with
  | [] => scanner.finish.1.toList
  | c :: rest =>
      let reaction := scanner.react c rest
      reaction.found.toList ++ (scanner.after c rest reaction).toList
termination_by scanner.rest.length
decreasing_by
  rw [_hrest]
  exact length_rest_after_lt ..

end Scanner

/-- The line comments of a text, in order. -/
def lineComments (text : Text) : List Comment :=
  (Scanner.ofText false text).toList

/-- All comments of a text, in order. -/
def allComments (text : Text) : List Comment :=
  (Scanner.ofText true text).toList

end Comment
end ScssLint
