import ScssLint.Text.Basic
import ScssLint.Toml.Value

/-!
# Reading the parts of a TOML document

A reader takes a value from the front of a text, or fails and takes nothing.  This module has the
readers for keys, for values without parts (strings, numbers, dates and times) and for what stands
between them.
-/

namespace ScssLint

namespace Toml

/-- Takes a value from the front of a text, or fails. -/
abbrev Reader := StateT Text Option

namespace Reader

/-- Take a character for which `accepts` holds. -/
def satisfy (accepts : Char → Bool) : Reader Char := fun
  | [] => none
  | c :: rest => if accepts c then some (c, rest) else none

/-- Take the given character. -/
def char (expected : Char) : Reader Unit :=
  discard (satisfy (· == expected))

/-- Take the given text. -/
def word (expected : String) : Reader Unit := fun text =>
  if Text.startsWith expected.toList text then
    some ((), text.drop expected.length)
  else
    none

/-- Succeed at the end of the text only. -/
def atEnd : Reader Unit := fun text =>
  if text.isEmpty then some ((), text) else none

/-- What `reader` takes as often as it takes something. -/
def repeated {α : Type} (reader : Reader α) (text : Text) : List α × Text :=
  match reader text with
  | none => ([], text)
  | some (value, rest) =>
      if rest.length < text.length then
        let (values, rest) := repeated reader rest
        (value :: values, rest)
      else
        ([], text)
termination_by text.length

/-- Take as often as possible. -/
def many {α : Type} (reader : Reader α) : Reader (List α) := fun text =>
  some (repeated reader text)

/-- Take once and then as often as possible. -/
def many1 {α : Type} (reader : Reader α) : Reader (List α) := do
  return (← reader) :: (← many reader)

/-- Take at least one value; a separator stands between two of them. -/
def separated {α : Type} (reader : Reader α) (separator : Reader Unit) : Reader (List α) := do
  return (← reader) :: (← many (do separator; reader))

/-- Take exactly `count` values. -/
def exactly {α : Type} (count : Nat) (reader : Reader α) : Reader (List α) :=
  (List.replicate count ()).mapM fun _ => reader

/-- Go on only if a condition holds. -/
def check (condition : Bool) : Reader Unit :=
  if condition then pure () else failure

end Reader

open Reader

/-! ### White space and comments -/

/-- White space inside a line. -/
def blank : Reader Unit :=
  discard (many (satisfy fun c => c == ' ' || c == '\t'))

/-- The end of a line: a line feed, perhaps behind a carriage return. -/
def newline : Reader Unit :=
  char '\n' <|> word "\r\n"

/-- The characters of which comments and literal strings are made. -/
def isPlain (c : Char) : Bool :=
  c == '\t' || (0x20 ≤ c.toNat && c.toNat ≠ 0x7F)

/-- A comment without the end of its line. -/
def comment : Reader Unit := do
  char '#'
  discard (many (satisfy isPlain))

/-- What may follow at the end of a line. -/
def lineEnd : Reader Unit := do
  blank
  discard (optional comment)
  newline <|> atEnd

/-- White space, ends of lines and comments between the items of an array. -/
def filler : Reader Unit :=
  discard (many (discard (satisfy fun c => c == ' ' || c == '\t') <|> newline <|>
    (do comment; newline)))

/-! ### Strings -/

/-- The value of a digit in bases up to 16. -/
def digitValue (c : Char) : Nat :=
  if c.isDigit then c.toNat - '0'.toNat
  else if c.isLower then c.toNat - 'a'.toNat + 10
  else c.toNat - 'A'.toNat + 10

/-- Whether a character is a digit of a base up to 16. -/
def isDigitOf (base : Nat) (c : Char) : Bool :=
  (c.isDigit || ('a' ≤ c && c ≤ 'f') || ('A' ≤ c && c ≤ 'F')) && digitValue c < base

/-- The number that digits stand for. -/
def numberOf (base : Nat) (digits : List Char) : Nat :=
  digits.foldl (fun value digit => base * value + digitValue digit) 0

/-- A character that is given by its number. -/
def codePoint (digits : Nat) : Reader Char := do
  let code := numberOf 16 (← exactly digits (satisfy (isDigitOf 16)))
  check code.isValidChar
  return Char.ofNat code

/-- What stands behind a backslash for a single character. -/
def escaped : Reader Char := do
  match ← satisfy fun _ => true with
  | 'b' => return '\x08'
  | 't' => return '\t'
  | 'n' => return '\n'
  | 'f' => return '\x0C'
  | 'r' => return '\r'
  | '"' => return '"'
  | '\\' => return '\\'
  | 'u' => codePoint 4
  | 'U' => codePoint 8
  | _ => failure

/-- A character of a basic string. -/
def basicChar : Reader Char :=
  satisfy (fun c => isPlain c && c != '"' && c != '\\') <|> (do char '\\'; escaped)

/-- A string between double quotes. -/
def basicString : Reader String := do
  char '"'
  let text ← many basicChar
  char '"'
  return String.ofList text

/-- A string between single quotes. -/
def literalString : Reader String := do
  char '\''
  let text ← many (satisfy fun c => isPlain c && c != '\'')
  char '\''
  return String.ofList text

/-- One or two quotes that do not end a string over several lines. -/
def innerQuotes (quote : Char) : Reader Text := fun text =>
  let quotes := text.takeWhile (· == quote)
  if quotes.length = 1 ∨ quotes.length = 2 then
    some (quotes, text.drop quotes.length)
  else
    none

/-- The three quotes at the end of a string over several lines, behind at most two that still belong
to the string. -/
def closingQuotes (quote : Char) : Reader Text := fun text =>
  let quotes := text.takeWhile (· == quote)
  if 3 ≤ quotes.length then
    let inside := min (quotes.length - 3) 2
    some (quotes.take inside, text.drop (inside + 3))
  else
    none

/-- A string over several lines, between three quotes, with `part` for what it is made of besides
quotes.  The end of a line right behind the opening quotes does not belong to it. -/
def multiline (quote : Char) (part : Reader Text) : Reader String := do
  discard (exactly 3 (char quote))
  discard (optional newline)
  let parts ← many (part <|> innerQuotes quote)
  let quotes ← closingQuotes quote
  return String.ofList (parts.flatten ++ quotes)

/-- The end of a line inside a string is a line feed. -/
def innerNewline : Reader Text := do
  newline
  return ['\n']

/-- A backslash at the end of a line, with all white space behind it. -/
def continuation : Reader Text := do
  char '\\'
  blank
  newline
  discard (many (discard (satisfy fun c => c == ' ' || c == '\t') <|> newline))
  return []

/-- A string, of any of the four forms. -/
def string : Reader String :=
  multiline '"' (((fun c => [c]) <$> basicChar) <|> continuation <|> innerNewline) <|>
    multiline '\''
      (((fun c => [c]) <$> satisfy (fun c => isPlain c && c != '\'')) <|> innerNewline) <|>
    basicString <|> literalString

/-! ### Keys -/

/-- The greatest number of parts of a key, and of arrays and tables around a value. -/
def depthLimit : Nat := 79

/-- One part of a key. -/
def keyPart : Reader String :=
  basicString <|> literalString <|>
    (String.ofList <$> many1 (satisfy fun c => c.isAlphanum || c == '-' || c == '_'))

/-- A key: parts with dots between them. -/
def key : Reader (List String) := do
  let parts ← separated (do blank; let part ← keyPart; blank; return part) (char '.')
  check (parts.length ≤ depthLimit)
  return parts

/-! ### Numbers -/

/-- Digits of a base; an underscore may stand between two of them. -/
def digitsOf (base : Nat) : Reader (List Char) := do
  let digit := satisfy (isDigitOf base)
  let first ← digit
  return first :: (← many (digit <|> (do char '_'; digit)))

/-- A sign; a minus gives `true`. -/
def sign : Reader Bool :=
  (do char '-'; return true) <|> (do char '+'; return false) <|> pure false

/-- The digits of a decimal number without zeros in front. -/
def wholeDigits : Reader (List Char) := do
  let digits ← digitsOf 10
  check (digits.head? != some '0' || digits.length == 1)
  return digits

/-- The integers that can be written: those of 64 bits. -/
def isWide (number : Int) : Bool :=
  decide (-0x8000000000000000 ≤ number ∧ number < 0x8000000000000000)

/-- An integer in decimal digits, or in those of another base behind a mark. -/
def integer : Reader Int := do
  let marked := fun (mark : String) (base : Nat) => do
    word mark
    return (numberOf base (← digitsOf base) : Int)
  let decimal := do
    let negative ← sign
    let number := numberOf 10 (← wholeDigits)
    return if negative then -(number : Int) else number
  let number ← marked "0x" 16 <|> marked "0o" 8 <|> marked "0b" 2 <|> decimal
  check (isWide number)
  return number

/-- The floating-point number closest to `digits · 10 ^ exponent`. -/
def closestFloat (digits : List Char) (exponent : Int) : Float :=
  let significant := digits.dropWhile (· == '0')
  let magnitude := significant.length + exponent
  if significant.isEmpty ∨ magnitude < -400 then
    0.0
  else if 400 < magnitude then
    1.0 / 0.0
  else
    Float.ofScientific (numberOf 10 significant) (exponent < 0) exponent.natAbs

/-- The exponent of a floating-point number. -/
def exponent : Reader Int := do
  discard (satisfy fun c => c == 'e' || c == 'E')
  let negative ← sign
  let number := numberOf 10 (← digitsOf 10)
  return if negative then -(number : Int) else number

/-- A floating-point number.  One that is too great is none, but one that is too small is the
negative infinity. -/
def float : Reader Float := do
  let negative ← sign
  let signed := fun (number : Float) => if negative then -number else number
  let special :=
    (do word "inf"; return 1.0 / 0.0) <|> (do word "nan"; return 0.0 / 0.0)
  let decimal := do
    let whole ← wholeDigits
    let fraction? ← optional (do char '.'; digitsOf 10)
    let exponent? ← optional exponent
    check (fraction?.isSome || exponent?.isSome)
    let fraction := fraction?.getD []
    let number := closestFloat (whole ++ fraction) (exponent?.getD 0 - fraction.length)
    check (negative || number.isFinite)
    return number
  return signed (← special <|> decimal)

/-! ### Dates and times -/

/-- A number of exactly so many digits. -/
def fixedNumber (digits : Nat) : Reader Nat := do
  return numberOf 10 (← exactly digits (satisfy Char.isDigit))

/-- A number of two digits within bounds. -/
def twoDigits (low high : Nat) : Reader Nat := do
  let number ← fixedNumber 2
  check (low ≤ number && number ≤ high)
  return number

/-- The number of days of a month. -/
def daysOfMonth (year month : Nat) : Nat :=
  if month = 2 then
    if year % 4 = 0 ∧ (year % 100 ≠ 0 ∨ year % 400 = 0) then 29 else 28
  else if month = 4 ∨ month = 6 ∨ month = 9 ∨ month = 11 then 30
  else 31

/-- A date. -/
def date : Reader Date := do
  let year ← fixedNumber 4
  char '-'
  let month ← twoDigits 1 12
  char '-'
  let day ← twoDigits 1 31
  check (day ≤ daysOfMonth year month)
  return ⟨year, month, day⟩

/-- The fraction of a second in nanoseconds; digits behind the ninth are dropped. -/
def secondFraction : Reader Nat := do
  char '.'
  let digits ← many1 (satisfy Char.isDigit)
  let kept := digits.take 9
  return numberOf 10 (kept ++ List.replicate (9 - kept.length) '0')

/-- A time of day; a minute may have a leap second. -/
def time : Reader Time := do
  let hour ← twoDigits 0 23
  char ':'
  let minute ← twoDigits 0 59
  char ':'
  let second ← twoDigits 0 60
  let fraction? ← optional secondFraction
  return ⟨hour, minute, second, fraction?.getD 0⟩

/-- The distance from universal time. -/
def timeOffset : Reader Offset :=
  (do discard (satisfy fun c => c == 'Z' || c == 'z'); return .universal) <|>
    (do
      let mark ← satisfy fun c => c == '+' || c == '-'
      let hour ← twoDigits 0 23
      char ':'
      let minute ← twoDigits 0 59
      return .minutes (mark == '-') (60 * hour + minute))

/-- A date, a time, or both. -/
def datetime : Reader Datetime :=
  (do
    let day ← date
    let clock? ← optional do
      discard (satisfy fun c => c == 'T' || c == 't' || c == ' ')
      let clock ← time
      let offset? ← optional timeOffset
      return (clock, offset?)
    match clock? with
    | none => return .date day
    | some (clock, offset?) => return .both day clock offset?) <|>
    (do return .time (← time))

end Toml

end ScssLint
