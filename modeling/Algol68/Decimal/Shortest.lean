import Algol68.Decimal.Binary64

/-
  The shortest decimal text of a real number.

  A number is written with the fewest digits that still read back as the same number. Of several
  such digit strings the nearest to the number is taken, and of two equally near ones the greater.
-/

------ Rounding Intervals

namespace Algol68

namespace Decimal

/-
  A number and the ratios that round to it, as numerators over one denominator. The ends belong to
  the interval when the significand is even.
-/
structure Interval where
  value : Nat
  low : Nat
  high : Nat
  denominator : Nat
  closed : Bool
deriving DecidableEq, Repr

namespace Interval

variable (interval : Interval)

/-
  The interval of a number. Below a power of two the gap to the next number is half as wide,
  except at the least exponent.
-/
def ofFinite (number : Finite) : Interval :=
  let quarters := 4 * number.significand
  let gap :=
    if number.significand = Nat.pow 2 52 ∧ -1074 < number.exponent
    then 1 else 2
  let scale := number.exponent - 2
  let factor := Nat.pow 2 scale.toNat
  { value := quarters * factor
    low := (quarters - gap) * factor
    high := (quarters + 2) * factor
    denominator := Nat.pow 2 (-scale).toNat
    closed := number.significand % 2 == 0 }

def inUnits (power : Int) : Interval :=
  let up := Nat.pow 10 (-power).toNat
  { interval with
    value := interval.value * up
    low := interval.low * up
    high := interval.high * up
    denominator := interval.denominator * Nat.pow 10 power.toNat }

/- Whether a whole number of units lies in the interval. -/
def contains (units : Nat) : Bool :=
  let point := units * interval.denominator
  if interval.closed then decide (interval.low ≤ point ∧ point ≤ interval.high)
  else decide (interval.low < point ∧ point < interval.high)

/-
  The whole number of units nearest to the value among the
  two neighbours that lie in the interval.
-/
def nearestUnits? : Option Nat :=
  let below := interval.value / interval.denominator
  let above := below + 1
  match interval.contains below, interval.contains above with
  | true, true =>
    let down := interval.value - below * interval.denominator
    let up := above * interval.denominator - interval.value
    some (if up ≤ down then above else below)
  | true, false => some below
  | false, true => some above
  | false, false => none

end Interval

------ Shortest Digits

structure Scientific where
  digits : Nat
  power : Int
deriving DecidableEq, Repr

namespace Scientific

/- Move trailing zeros of the digits into the power. -/
def normalize (fuel : Nat) (decimal : Scientific) : Scientific :=
  match fuel with
  | 0 => decimal
  | fuel + 1 =>
    if decimal.digits ≠ 0 ∧ decimal.digits % 10 = 0 then
      normalize fuel ⟨decimal.digits / 10, decimal.power + 1⟩
    else decimal

/- One digit, a point and the others if there are any, then the exponent. -/
def text (decimal : Scientific) : String :=
  let digits := Nat.toDigits 10 decimal.digits
  let exponent := decimal.power + (digits.length - 1 : Nat)
  String.ofList (digits.take 1) ++ (if digits.length ≤ 1 then ""
      else "." ++ String.ofList (digits.drop 1)) ++
    "e" ++ toString exponent

end Scientific

/- The number of decimal digits of a natural number. -/
def decimalLength (n : Nat) : Nat := (Nat.toDigits 10 n).length

/- The greatest `k` with `10 ^ k` at most the ratio, for ratios of at least `10 ^ (-330)`. -/
def floorLog10 (numerator denominator : Nat) : Int :=
  (decimalLength (numerator * Nat.pow 10 330 / denominator) : Int) - 331

/- The first digit count, from `count` on, at which one of the value's neighbours reads back. -/
def shortestFrom (interval : Interval) (leading : Int) (count : Nat) : Nat → Scientific
  | 0 => ⟨interval.value / interval.denominator, 0⟩
  | fuel + 1 =>
    let power := leading - (count : Int) + 1
    match (interval.inUnits power).nearestUnits? with
    | some units => ⟨units, power⟩
    | none => shortestFrom interval leading (count + 1) fuel

/- The shortest decimal that reads back as the number. -/
def shortest (number : Finite) : Scientific :=
  let interval := Interval.ofFinite number
  let leading := floorLog10 interval.value interval.denominator
  (shortestFrom interval leading 1 20).normalize 20

def realText (real : Float) : String :=
  if real.isNaN then "NaN"
  else
    let bits := real.toBits
    let sign := if bits.toNat < Nat.pow 2 63 then "" else "-"
    match Finite.ofBits? bits with
    | none => sign ++ "inf"
    | some ⟨0, _⟩ => sign ++ "0e0"
    | some number => sign ++ (shortest number).text

end Decimal

end Algol68
