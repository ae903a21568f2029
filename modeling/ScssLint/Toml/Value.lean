/-!
# TOML values

The values of a TOML document.  A table keeps its entries in the order in which the document gives
them.
-/

namespace ScssLint

namespace Toml

/-- A day of the calendar. -/
structure Date where
  year : Nat
  month : Nat
  day : Nat
deriving DecidableEq, Repr

/-- A time of day; `nanosecond` counts within the second. -/
structure Time where
  hour : Nat
  minute : Nat
  second : Nat
  nanosecond : Nat
deriving DecidableEq, Repr

/-- The distance of a local time from universal time. -/
inductive Offset where
  /-- The time is universal time. -/
  | universal
  /-- The local clock is ahead, or behind, by so many minutes. -/
  | minutes (behind : Bool) (count : Nat)
deriving DecidableEq, Repr

/-- A date, a time, or both. -/
inductive Datetime where
  | date (day : Date)
  | time (clock : Time)
  | both (day : Date) (clock : Time) (offset? : Option Offset)
deriving DecidableEq, Repr

/-- A value of a TOML document. -/
inductive Value where
  | string (text : String)
  | integer (number : Int)
  | float (number : Float)
  | boolean (value : Bool)
  | datetime (value : Datetime)
  | array (items : List Value)
  | table (entries : List (String × Value))
deriving Repr

/-- The entries of a table in the order of the document. -/
abbrev Entries := List (String × Value)

/-! ### Text of dates and times -/

/-- A number in decimal digits, with zeros in front to reach a width. -/
def padded (width number : Nat) : String :=
  let digits := toString number
  String.ofList (List.replicate (width - digits.length) '0') ++ digits

/-- The digits of a fraction of a second, without the zeros at the end. -/
def fractionText (nanosecond : Nat) : String :=
  if nanosecond = 0 then
    ""
  else
    let digits := (padded 9 nanosecond).toList.reverse.dropWhile (· == '0')
    "." ++ String.ofList digits.reverse

namespace Date

/-- A date as it is written. -/
def text (date : Date) : String :=
  s!"{padded 4 date.year}-{padded 2 date.month}-{padded 2 date.day}"

end Date

namespace Time

/-- A time as it is written. -/
def text (time : Time) : String :=
  s!"{padded 2 time.hour}:{padded 2 time.minute}:{padded 2 time.second}" ++
    fractionText time.nanosecond

end Time

namespace Offset

/-- An offset as it is written. -/
def text : Offset → String
  | universal => "Z"
  | minutes behind count =>
      let sign := if behind && count != 0 then "-" else "+"
      s!"{sign}{padded 2 (count / 60)}:{padded 2 (count % 60)}"

end Offset

namespace Datetime

/-- A date, a time, or both, as it is written. -/
def text : Datetime → String
  | date day => day.text
  | time clock => clock.text
  | both day clock offset? =>
      s!"{day.text}T{clock.text}" ++ (offset?.map Offset.text).getD ""

end Datetime

end Toml

end ScssLint
