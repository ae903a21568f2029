/-!
# Shortest decimals

A floating-point number stands for all reals that round to it.  `Binary.shortest` finds a decimal
among them with as few digits as possible, and of these the one closest to the number itself.
-/

namespace ScssLint

/-- The number `digits · 10 ^ exponent`. -/
structure Decimal where
  digits : Nat
  exponent : Int
deriving DecidableEq, Repr

/-- The number `mantissa · 2 ^ exponent`. -/
structure Binary where
  mantissa : Nat
  exponent : Int
deriving DecidableEq, Repr

namespace Binary

/-- The least mantissa of a number that has all its bits: it has 53 of them. -/
def fullMantissa : Nat := 0x10000000000000

/-- The exponent of the smallest numbers. -/
def leastExponent : Int := -1074

/-- The magnitude of a finite floating-point number. -/
def ofFloat (number : Float) : Binary :=
  let bits := number.toBits.toNat
  let fraction := bits % fullMantissa
  let level := bits / fullMantissa % 0x800
  if level = 0 then
    ⟨fraction, leastExponent⟩
  else
    ⟨fullMantissa + fraction, leastExponent + level - 1⟩

/-- A power; it is one if the exponent is negative. -/
def power (base : Nat) (exponent : Int) : Nat :=
  base.pow exponent.toNat

/-- The number of decimal digits of a natural number. -/
def digitCount (number : Nat) : Nat :=
  (Nat.toDigits 10 number).length

/-- How many digits a positive number has in front of its decimal point; if it is below one, minus
how many zeros follow the point. -/
def place (number : Binary) : Int :=
  let numerator := number.mantissa * power 2 number.exponent
  let denominator := power 2 (-number.exponent)
  let guess : Int := digitCount numerator - digitCount denominator
  if power 10 guess * denominator ≤ numerator * power 10 (-guess) then guess + 1 else guess

/-- The ends of the interval of reals that round to the number, in quarters of its unit. -/
def interval (number : Binary) : Nat × Nat :=
  let quarters := 4 * number.mantissa
  let isLowest := number.mantissa = fullMantissa ∧ number.exponent ≠ leastExponent
  (if isLowest then quarters - 1 else quarters - 2, quarters + 2)

/-- The best multiple of `10 ^ exponent` among the reals that round to the number.  Only the two
multiples next to the number are tried: if any is in the interval, one of them is. -/
def onGrid? (number : Binary) (exponent : Int) : Option Decimal :=
  let quarter := number.exponent - 2
  let unit := power 2 quarter * power 10 (-exponent)
  let step := power 10 exponent * power 2 (-quarter)
  let (low, high) := number.interval
  let exact := 4 * number.mantissa * unit
  let below := exact / step
  let rounds := fun count =>
    if number.mantissa % 2 = 0 then
      low * unit ≤ count * step ∧ count * step ≤ high * unit
    else
      low * unit < count * step ∧ count * step < high * unit
  if rounds below ∧ (2 * exact < (2 * below + 1) * step ∨ ¬ rounds (below + 1)) then
    some ⟨below, exponent⟩
  else if rounds (below + 1) then
    some ⟨below + 1, exponent⟩
  else
    none

/-- The shortest decimal that rounds to a positive number; 17 digits are always enough. -/
def shortest (number : Binary) : Decimal :=
  let place := number.place
  ((List.range 17).findSome? fun (more : Nat) => number.onGrid? (place - (more + 1))).getD ⟨0, 0⟩

end Binary

end ScssLint
