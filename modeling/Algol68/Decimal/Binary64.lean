/-
  Binary floating-point numbers of 64 bits as exact ratios.

  A finite number is a significand times a power of two. The nearest number to a ratio is found in
  exact arithmetic, a tie going to the even significand.
-/

------ Finite Numbers

namespace Algol68

namespace Decimal

structure Finite where
  significand : Nat
  exponent : Int
deriving DecidableEq, Repr

/- The magnitude with the given bits; the sign bit is ignored. -/
def Finite.ofBits? (bits : UInt64) : Option Finite :=
  let raw := bits.toNat
  let fraction : Nat := raw % Nat.pow 2 52
  let biased : Nat := raw / Nat.pow 2 52 % Nat.pow 2 11
  if biased = 2047 then none
  else if biased = 0 then some ⟨fraction, -1074⟩
  else some ⟨Nat.pow 2 52 + fraction, (biased : Int) - 1075⟩

------ Nearest Numbers

def roundHalfEven (numerator denominator : Nat) : Nat :=
  let quotient := numerator / denominator
  let twice := 2 * (numerator % denominator)
  if twice < denominator then quotient
  else if denominator < twice then quotient + 1
  else if quotient % 2 = 0 then quotient
  else quotient + 1

/- The greatest `k` with `2 ^ k` at most the ratio. -/
def floorLog2 (numerator denominator : Nat) : Int :=
  let estimate := (numerator.log2 : Int) - (denominator.log2 : Int)
  let reached :=
    if 0 ≤ estimate then decide (denominator * Nat.pow 2 estimate.toNat ≤ numerator)
    else decide (denominator ≤ numerator * Nat.pow 2 (-estimate).toNat)
  if reached then estimate else estimate - 1

def infinityBits : Nat := 2047 * Nat.pow 2 52

/-
  The bits of the number nearest to a positive ratio. The significand takes 53 bits unless the
  number is too small for that; a carry out of it moves into the exponent.
-/
def nearestBits (numerator denominator : Nat) : Nat :=
  let exponent := max (-1074) (floorLog2 numerator denominator - 52)
  let significand :=
    if 0 ≤ exponent then roundHalfEven numerator (denominator * Nat.pow 2 exponent.toNat)
    else roundHalfEven (numerator * Nat.pow 2 (-exponent).toNat) denominator
  let bits :=
    if significand < Nat.pow 2 52 then significand
    else (exponent + 1075).toNat * Nat.pow 2 52 + (significand - Nat.pow 2 52)
  min bits infinityBits

end Decimal

end Algol68
