import ScssLint.Text.Basic

/-!
# Names and escapes

Names are made of letters, digits, `-`, `_`, all characters outside ASCII and escapes.  The readers
of this module say how many characters a name or an escape takes, and what it stands for.
-/

namespace ScssLint

namespace Css

/-- The character that stands for what cannot be read. -/
def replacement : Char := '\uFFFD'

/-- The characters that break a line. -/
def isNewline (c : Char) : Bool :=
  c == '\n' || c == '\r' || c == '\x0C'

/-- Whether a line break comes next. -/
def newlineAhead : Text → Bool
  | [] => false
  | c :: _ => isNewline c

/-- The characters that can start a name as they are. -/
def isNameStart (c : Char) : Bool :=
  c.isAlpha || c == '_' || c == '\x00' || 0x80 ≤ c.toNat

/-- The characters that a name can hold as they are. -/
def isNameChar (c : Char) : Bool :=
  isNameStart c || c.isDigit || c == '-'

/-- Whether an identifier comes next.

A backslash behind a hyphen is taken for an escape whatever follows it. -/
def startsIdent : Text → Bool
  | [] => false
  | c :: rest =>
      if c = '-' then
        match rest with
        | [] => false
        | d :: _ => isNameStart d || d == '-' || d == '\\'
      else if c = '\\' then
        !newlineAhead rest
      else
        isNameStart c

/-- The value of a hexadecimal digit. -/
def hexValue (c : Char) : Nat :=
  if c.isDigit then c.toNat - '0'.toNat
  else if c.isLower then c.toNat - 'a'.toNat + 10
  else c.toNat - 'A'.toNat + 10

/-- Whether a character is a hexadecimal digit. -/
def isHexDigit (c : Char) : Bool :=
  c.isDigit || ('a' ≤ c && c ≤ 'f') || ('A' ≤ c && c ≤ 'F')

/-- The character with a number, unless the number is zero or no character's. -/
def charOfCode (code : Nat) : Char :=
  if code ≠ 0 ∧ code.isValidChar then Char.ofNat code else replacement

/-- How many characters one white-space character takes; a carriage return and the line feed behind
it are one. -/
def spaceLength : Text → Nat
  | [] => 0
  | c :: rest =>
      if c = '\r' ∧ rest.head? = some '\n' then 2
      else if isSpace c then 1
      else 0

/-- What the escape behind a backslash stands for, and how many characters it takes. -/
def escape (text : Text) : Char × Nat :=
  match text with
  | [] => (replacement, 0)
  | c :: _ =>
      if isHexDigit c then
        let digits := (text.take 6).takeWhile isHexDigit
        let code := digits.foldl (fun value digit => 16 * value + hexValue digit) 0
        (charOfCode code, digits.length + spaceLength (text.drop digits.length))
      else if c = '\x00' then
        (replacement, 1)
      else
        (c, 1)

/-- What `c` adds to a name when `rest` follows it, and how many further characters it takes. -/
def nameUnit? (c : Char) (rest : Text) : Option (Char × Nat) :=
  if c = '\\' then
    if newlineAhead rest then none else some (escape rest)
  else if c = '\x00' then
    some (replacement, 0)
  else if isNameChar c then
    some (c, 0)
  else
    none

/-- The name at the start of a text, and how many characters it takes. -/
def name (text : Text) : Text × Nat :=
  match text with
  | [] => ([], 0)
  | c :: rest =>
      match nameUnit? c rest with
      | none => ([], 0)
      | some (decoded, more) =>
          let (tail, length) := name (rest.drop more)
          (decoded :: tail, 1 + more + length)
termination_by text.length

end Css

end ScssLint
