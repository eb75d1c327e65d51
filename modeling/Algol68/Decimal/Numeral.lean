import Algol68.Decimal.Binary64

/-
  Numerals as they stand in denotations and arguments.

  A whole number is a run of digits behind an optional sign. A real number has a point, an
  exponent or both as options, with a digit on at least one side of the point, or is one of the
  words for infinity and not-a-number.
-/

------ Whole Numbers

namespace Algol68

variable (radix : Nat) (chars : List Char)

namespace Decimal

/- The value of a digit below `radix`, at most sixteen. -/
def digitValue? (c : Char) : Option Nat :=
  let value :=
    if '0' ≤ c ∧ c ≤ '9' then c.toNat - '0'.toNat
    else if 'a' ≤ c ∧ c ≤ 'f' then c.toNat - 'a'.toNat + 10
    else if 'A' ≤ c ∧ c ≤ 'F' then c.toNat - 'A'.toNat + 10
    else radix
  if value < radix then some value else none

/- The number that digits continue, most significant first. -/
def natFrom? (radix : Nat) (number : Nat) : List Char → Option Nat
  | [] => some number
  | c :: rest => do
    let digit ← digitValue? radix c
    natFrom? radix (number * radix + digit) rest

/- The number of a nonempty run of digits. -/
def natOfDigits? : Option Nat := if chars.isEmpty then none else natFrom? radix 0 chars

/- A number without a minus sign; a plus sign may stand first. -/
def unsigned? : List Char → Option Nat
  | '+' :: rest => natOfDigits? radix rest
  | chars => natOfDigits? radix chars

/- A decimal number with an optional sign. -/
def signed? : List Char → Option Int
  | '-' :: rest => (natOfDigits? 10 rest).map fun n => -(n : Int)
  | chars => (unsigned? 10 chars).map Int.ofNat

------ Real Numbers

/-
  The bits of the number nearest to `digits * 10 ^ power`, where `length` bounds the number of
  digits. Powers too large or too small for any number are settled first.
-/
def scientificBits (digits length : Nat) (power : Int) : Nat :=
  if digits = 0 then 0
  else if 310 < (length : Int) + power then infinityBits
  else if (length : Int) + power < -330 then 0
  else nearestBits (digits * Nat.pow 10 power.toNat) (Nat.pow 10 (-power).toNat)

def exponent? : List Char → Option Int
  | [] => some 0
  | 'e' :: rest => signed? rest
  | _ => none

/- The digits behind a point, and what follows them. -/
def fractionDigits : List Char → List Char × List Char
  | '.' :: rest => rest.span Char.isDigit
  | chars => ([], chars)

def positionalBits? : Option Nat := do
  let (whole, rest) := chars.span Char.isDigit
  let (fraction, rest) := fractionDigits rest
  let exponent ← exponent? rest
  let digits ← natOfDigits? 10 (whole ++ fraction)
  let significant := (whole ++ fraction).dropWhile (· == '0')
  pure (scientificBits digits significant.length (exponent - (fraction.length : Int)))

/- The bits of a numeral without its sign. -/
def magnitudeBits? : Option Nat :=
  if chars = "inf".toList ∨ chars = "infinity".toList then some infinityBits
  else if chars = "nan".toList then some (infinityBits + Nat.pow 2 51)
  else positionalBits? chars

/- The bits of a numeral, whose letters are small. -/
def realBits? : List Char → Option Nat
  | '-' :: rest => (magnitudeBits? rest).map (· + Nat.pow 2 63)
  | '+' :: rest => magnitudeBits? rest
  | chars => magnitudeBits? chars

/- The real number nearest to a numeral. -/
def real? : Option Float :=
  (realBits? (chars.map Char.toLower)).map fun bits => Float.ofBits bits.toUInt64

end Decimal

end Algol68
