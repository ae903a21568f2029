import ScssLint.Decimal.Shortest

/-!
# Decimals as text

A floating-point number is written with the digits of its shortest decimal, either with all digits
in their places or with an exponent.
-/

namespace ScssLint

namespace Decimal

/-- The digits without zeros at the end. -/
def digitText (number : Decimal) : List Char :=
  ((Nat.toDigits 10 number.digits).reverse.dropWhile (· == '0')).reverse

/-- How many digits stand in front of the decimal point. -/
def place (number : Decimal) : Int :=
  (Nat.toDigits 10 number.digits).length + number.exponent

/-- The number with all digits in their places and at least one behind the point. -/
def positional (number : Decimal) : List Char :=
  let digits := number.digitText
  let place := number.place
  if place ≤ 0 then
    ['0', '.'] ++ List.replicate (-place).toNat '0' ++ digits
  else if digits.length ≤ place then
    digits ++ List.replicate (place.toNat - digits.length) '0' ++ ['.', '0']
  else
    digits.take place.toNat ++ ['.'] ++ digits.drop place.toNat

/-- The number with one digit in front of the point, and an exponent. -/
def scientific (number : Decimal) : List Char :=
  let rest := number.digitText.drop 1
  let fraction := if rest.isEmpty then [] else '.' :: rest
  number.digitText.take 1 ++ fraction ++ ['e'] ++ (toString (number.place - 1)).toList

end Decimal

/-- How floating-point numbers are written. -/
structure FloatLayout where
  /-- Whether a number with its point behind so many digits is written without an exponent. -/
  isPositional : Int → Bool

namespace FloatLayout

/-- The layout of values: numbers from a ten-thousandth up to ten quadrillions have no exponent. -/
def value : FloatLayout where
  isPositional place := -3 ≤ place && place ≤ 16

/-- The layout in messages, where no number has an exponent. -/
def message : FloatLayout where
  isPositional _ := true

/-- The text of a number that is not negative. -/
def magnitude (layout : FloatLayout) (number : Float) : String :=
  if number.isInf then
    "inf"
  else if number == 0.0 then
    "0.0"
  else
    let decimal := (Binary.ofFloat number).shortest
    String.ofList
      (if layout.isPositional decimal.place then decimal.positional else decimal.scientific)

/-- The text of a number; zero has a sign, but what is no number has none. -/
def text (layout : FloatLayout) (number : Float) : String :=
  if number.isNaN then
    "NaN"
  else if number.toBits.toNat < 0x8000000000000000 then
    layout.magnitude number
  else
    "-" ++ layout.magnitude number.abs

end FloatLayout

end ScssLint
