import Algol68.Builtin
import Algol68.Value.Text

/-
  The meaning of the builtins on evaluated operands.

  Integers are words of 64 bits and every result is computed exactly before it is fitted into a
  word, so an overflow is an error and never a wrong value.
-/

------ Failures

namespace Algol68

/- Why a builtin has no result. -/
inductive BuiltinFailure
  | intOverflow
  | divisionByZero
  | outOfRange
  | invalidOperands
deriving DecidableEq, Repr

structure BuiltinError where
  failure : BuiltinFailure
  builtin : Builtin
deriving DecidableEq, Repr

def BuiltinError.message (error : BuiltinError) : String :=
  let quoted := "\"" ++ error.builtin.name ++ "\""
  match error.failure with
  | .intOverflow => "INT overflow in " ++ quoted
  | .divisionByZero => "Division by zero in " ++ quoted
  | .outOfRange => "Argument out of range for " ++ quoted
  | .invalidOperands => "Invalid operands for " ++ quoted

------ Operands

variable (operands : List Value)

namespace Builtin

abbrev Applied (α : Type) := Except BuiltinFailure α

def operand {α : Type} (view : Value → Option α) (operands : List Value)
    (position : Nat) : Applied α :=
  match operands[position]?.bind view with
  | some value => .ok value
  | none => .error .invalidOperands

def intAt : List Value → Nat → Applied Int64 := operand Value.int?

def realAt : List Value → Nat → Applied Float := operand Value.real?

def boolAt : List Value → Nat → Applied Bool := operand Value.bool?

def charAt : List Value → Nat → Applied UInt8 := operand Value.char?

def bitsAt : List Value → Nat → Applied UInt64 := operand Value.bits?

def complexAt : List Value → Nat → Applied (Float × Float) := operand Value.complex?

------ Integer Results

def leastInt : Int := -Int.pow 2 63

def greatestInt : Int := Int.pow 2 63 - 1

/- An exact result as a word, or an overflow. -/
def fit (n : Int) : Applied Value :=
  if leastInt ≤ n ∧ n ≤ greatestInt then .ok (.int (Int64.ofInt n)) else .error .intOverflow

/-
  A power as a word. The powers of a base of magnitude at most one repeat with period two, and a
  greater base leaves the range at the exponent 64, so no large power is formed.
-/
def fitPower (base : Int) (exponent : Nat) : Applied Value :=
  if base.natAbs ≤ 1 then fit (base.pow (if exponent = 0 then 0 else 2 - exponent % 2))
  else if 64 ≤ exponent then .error .intOverflow
  else fit (base.pow exponent)

/-
  The integer equal to a whole real number. The greatest
  bound is the first power of two outside the range.
-/
def intOfReal (x : Float) : Applied Value :=
  if x.isFinite && decide (-9223372036854775808.0 ≤ x) &&
      decide (x < 9223372036854775808.0) then
    .ok (.int x.toInt64)
  else .error .intOverflow

def divisorAt : Applied Int64 := do
  let divisor ← intAt operands 1
  if divisor.toInt = 0 then throw .divisionByZero
  pure divisor

------ Real Results

/-
  The product `result * base ^ exponent`, by squaring. The
  fuel bounds the number of binary digits of the exponent.
-/
def powerFrom (result base : Float) (exponent : Nat) : Nat → Float
  | 0 => result
  | fuel + 1 =>
    let result := if exponent % 2 = 1 then result * base else result
    if exponent / 2 = 0 then result else powerFrom result (base * base) (exponent / 2) fuel

def realPower (base : Float) (exponent : Int) : Float :=
  let power := powerFrom 1.0 base exponent.natAbs 64
  if exponent < 0 then 1.0 / power else power

def realSignum (x : Float) : Int64 := if 0.0 < x then 1 else if x < 0.0 then -1 else 0

def circleRatio : Float := Float.ofBits 0x400921fb54442d18

/- The distance from one to the next real number. -/
def epsilon : Float := Float.ofBits 0x3cb0000000000000

------ Application

def compareInts (test : Int → Int → Bool) : Applied Value := do
  let left ← intAt operands 0
  let right ← intAt operands 1
  pure (.bool (test left.toInt right.toInt))

def compareReals (test : Float → Float → Bool) : Applied Value := do
  let left ← realAt operands 0
  let right ← realAt operands 1
  pure (.bool (test left right))

def combineReals (combine : Float → Float → Float) : Applied Value := do
  let left ← realAt operands 0
  let right ← realAt operands 1
  pure (.real (combine left right))

def combineBools (combine : Bool → Bool → Bool) : Applied Value := do
  let left ← boolAt operands 0
  let right ← boolAt operands 1
  pure (.bool (combine left right))

def compareChars (test : Nat → Nat → Bool) : Applied Value := do
  let left ← charAt operands 0
  let right ← charAt operands 1
  pure (.bool (test left.toNat right.toNat))

def mapReal (function : Float → Float) : Applied Value := do
  let x ← realAt operands 0
  pure (.real (function x))

/- Combine two integers into an exact result. -/
def combineInts (combine : Int → Int → Int) : Applied Value := do
  let left ← intAt operands 0
  let right ← intAt operands 1
  fit (combine left.toInt right.toInt)

/-
  The result of a builtin on its operands. A divisor or an exponent is inspected before the left
  operand is. The procedure `random` has no meaning without a seed.
-/
def applyTo (builtin : Builtin) (operands : List Value) : Applied Value :=
  match builtin with
  | .intAdd => combineInts operands (· + ·)
  | .intSub => combineInts operands (· - ·)
  | .intMul => combineInts operands (· * ·)
  | .intOver => do
    let divisor ← divisorAt operands
    let dividend ← intAt operands 0
    fit (dividend.toInt.tdiv divisor.toInt)
  | .intMod => do
    let divisor ← divisorAt operands
    let dividend ← intAt operands 0
    if dividend.toInt = leastInt ∧ divisor.toInt = -1 then throw .intOverflow
    fit (dividend.toInt % divisor.toInt)
  | .intDiv => do
    let divisor ← divisorAt operands
    let dividend ← intAt operands 0
    pure (.real (dividend.toFloat / divisor.toFloat))
  | .intPow => do
    let exponent ← intAt operands 1
    if exponent.toInt < 0 ∨ Int.pow 2 32 ≤ exponent.toInt then throw .outOfRange
    let base ← intAt operands 0
    fitPower base.toInt exponent.toInt.toNat
  | .intEq => compareInts operands fun i j => decide (i = j)
  | .intNe => compareInts operands fun i j => decide (i ≠ j)
  | .intLt => compareInts operands fun i j => decide (i < j)
  | .intLe => compareInts operands fun i j => decide (i ≤ j)
  | .intGt => compareInts operands fun i j => decide (j < i)
  | .intGe => compareInts operands fun i j => decide (j ≤ i)
  | .intNeg => do
    let n ← intAt operands 0
    fit (-n.toInt)
  | .intPlus => do
    let n ← intAt operands 0
    pure (.int n)
  | .intAbs => do
    let n ← intAt operands 0
    fit n.toInt.natAbs
  | .intSign => do
    let n ← intAt operands 0
    pure (.int (Int64.ofInt n.toInt.sign))
  | .intOdd => do
    let n ← intAt operands 0
    pure (.bool (decide (n.toInt % 2 ≠ 0)))
  | .realAdd => combineReals operands (· + ·)
  | .realSub => combineReals operands (· - ·)
  | .realMul => combineReals operands (· * ·)
  | .realDiv => do
    let divisor ← realAt operands 1
    if divisor.beq 0.0 then throw .divisionByZero
    let dividend ← realAt operands 0
    pure (.real (dividend / divisor))
  | .realPow => do
    let exponent ← intAt operands 1
    if exponent.toInt < -Int.pow 2 31 ∨ Int.pow 2 31 ≤ exponent.toInt then throw .outOfRange
    let base ← realAt operands 0
    pure (.real (realPower base exponent.toInt))
  | .realEq => compareReals operands Float.beq
  | .realNe => compareReals operands fun x y => !x.beq y
  | .realLt => compareReals operands fun x y => decide (x < y)
  | .realLe => compareReals operands fun x y => decide (x ≤ y)
  | .realGt => compareReals operands fun x y => decide (y < x)
  | .realGe => compareReals operands fun x y => decide (y ≤ x)
  | .realNeg => mapReal operands fun x => -x
  | .realAbs => mapReal operands Float.abs
  | .realSign => do
    let x ← realAt operands 0
    pure (.int (realSignum x))
  | .entier => do
    let x ← realAt operands 0
    intOfReal x.floor
  | .round => do
    let x ← realAt operands 0
    intOfReal x.round
  | .boolNot => do
    let b ← boolAt operands 0
    pure (.bool !b)
  | .boolAnd => combineBools operands fun a b => a && b
  | .boolOr => combineBools operands fun a b => a || b
  | .boolEq => combineBools operands fun a b => a == b
  | .boolNe => combineBools operands fun a b => a != b
  | .charEq => compareChars operands fun c d => decide (c = d)
  | .charNe => compareChars operands fun c d => decide (c ≠ d)
  | .charLt => compareChars operands fun c d => decide (c < d)
  | .charGt => compareChars operands fun c d => decide (d < c)
  | .charRepr => do
    let n ← intAt operands 0
    if n.toInt < 0 ∨ 256 ≤ n.toInt then throw .outOfRange
    pure (.char n.toInt.toNat.toUInt8)
  | .charAbs => do
    let c ← charAt operands 0
    pure (.int (Int64.ofNat c.toNat))
  | .bitsAnd => do
    let left ← bitsAt operands 0
    let right ← bitsAt operands 1
    pure (.bits (left &&& right))
  | .bitsOr => do
    let left ← bitsAt operands 0
    let right ← bitsAt operands 1
    pure (.bits (left ||| right))
  | .bitsNot => do
    let word ← bitsAt operands 0
    pure (.bits (~~~word))
  | .bitsEq => do
    let left ← bitsAt operands 0
    let right ← bitsAt operands 1
    pure (.bool (left == right))
  | .bitsNe => do
    let left ← bitsAt operands 0
    let right ← bitsAt operands 1
    pure (.bool (left != right))
  | .complexI => do
    let re ← realAt operands 0
    let im ← realAt operands 1
    pure (.complex re im)
  | .re => do
    let z ← complexAt operands 0
    pure (.real z.1)
  | .im => do
    let z ← complexAt operands 0
    pure (.real z.2)
  | .complexAdd => do
    let (a, b) ← complexAt operands 0
    let (c, d) ← complexAt operands 1
    pure (.complex (a + c) (b + d))
  | .complexSub => do
    let (a, b) ← complexAt operands 0
    let (c, d) ← complexAt operands 1
    pure (.complex (a - c) (b - d))
  | .complexMul => do
    let (a, b) ← complexAt operands 0
    let (c, d) ← complexAt operands 1
    pure (.complex (a * c - b * d) (a * d + b * c))
  | .sqrt => do
    let x ← realAt operands 0
    if x < 0.0 then throw .outOfRange
    pure (.real x.sqrt)
  | .exp => mapReal operands Float.exp
  | .ln => do
    let x ← realAt operands 0
    if x ≤ 0.0 then throw .outOfRange
    pure (.real x.log)
  | .sin => mapReal operands Float.sin
  | .cos => mapReal operands Float.cos
  | .tan => mapReal operands Float.tan
  | .arctan => mapReal operands Float.atan
  | .pi => pure (.real circleRatio)
  | .maxInt => pure (.int (Int64.ofInt greatestInt))
  | .maxReal => pure (.real Value.maxReal)
  | .minReal => pure (.real Value.minReal)
  | .smallReal => pure (.real epsilon)
  | .random => throw .invalidOperands

def apply (builtin : Builtin) (operands : List Value) : Except BuiltinError Value :=
  match builtin.applyTo operands with
  | .ok value => .ok value
  | .error failure => .error ⟨failure, builtin⟩

end Builtin

end Algol68
