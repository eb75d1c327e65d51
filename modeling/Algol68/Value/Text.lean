import Algol68.Value
import Algol68.Decimal.Shortest

/-
  The texts of a value: as the source language shows it, as a
  C literal, and as a part of a generated name.
-/

------ Hexadecimal Words

namespace Algol68

namespace Text

/- The hexadecimal digits of a number, without leading zeros. -/
def hex (n : Nat) : String := String.ofList (Nat.toDigits 16 n)

/- The hexadecimal digits of a number, at least `width` long. -/
def paddedHex (width n : Nat) : String :=
  let digits := Nat.toDigits 16 n
  String.ofList (List.replicate (width - digits.length) '0' ++ digits)

/- The sixteen hexadecimal digits of a real number's bits. -/
def realHex (x : Float) : String := paddedHex 16 x.toBits.toNat

end Text

------ Display

namespace Value

/- The value as the source language shows it. -/
def display : Value → String
  | .int n => toString n.toInt
  | .real x => Decimal.realText x
  | .bool true => "TRUE"
  | .bool false => "FALSE"
  | .char c => "\"" ++ String.singleton (Char.ofNat c.toNat) ++ "\""
  | .bits word => "16r" ++ Text.hex word.toNat
  | .complex re im => Decimal.realText re ++ " I " ++ Decimal.realText im

------ C Literals

/- The greatest finite real number. -/
def maxReal : Float := Float.ofBits 0x7fefffffffffffff

/- The least positive normal real number. -/
def minReal : Float := Float.ofBits 0x0010000000000000

/- The literal of a real number; a sign calls for brackets. -/
def realLiteral (x : Float) : String :=
  if x.beq maxReal then "A68_MAX_REAL"
  else if x.beq (-maxReal) then "(-A68_MAX_REAL)"
  else if x.beq minReal then "A68_MIN_REAL"
  else if Nat.pow 2 63 ≤ x.toBits.toNat then "(" ++ Decimal.realText x ++ ")"
  else Decimal.realText x

def charLiteral (c : UInt8) : String :=
  let code := c.toNat
  if code = 0x27 then "'\\''"
  else if code = 0x5c then "'\\\\'"
  else if code = 0xa then "'\\n'"
  else if code = 0x9 then "'\\t'"
  else if code = 0xd then "'\\r'"
  else if code = 0 then "'\\0'"
  else if 0x20 ≤ code ∧ code ≤ 0x7e then "'" ++ String.singleton (Char.ofNat code) ++ "'"
  else "'\\x" ++ Text.paddedHex 2 code ++ "'"

/- The literal of an integer; the least one has no digits. -/
def intLiteral (n : Int) : String :=
  if n = -Int.pow 2 63 then "(-A68_MAX_INT - 1)"
  else if n < 0 then "(" ++ toString n ++ ")"
  else toString n

def literal : Value → String
  | .int n => intLiteral n.toInt
  | .real x => realLiteral x
  | .bool true => "A68_TRUE"
  | .bool false => "A68_FALSE"
  | .char c => charLiteral c
  | .bits word => "0x" ++ Text.hex word.toNat ++ "u"
  | .complex re im => "\x7b" ++ realLiteral re ++ ", " ++ realLiteral im ++ "\x7d"

/- The name of the file-scope array holding a complex number. -/
def pairName (re im : Float) : String := "_complex_" ++ Text.realHex re ++ "_" ++ Text.realHex im

def codeText : Value → String
  | .complex re im => pairName re im
  | value => value.literal

/- The part of a generated name that identifies the value. -/
def key : Value → String
  | .int n => if n.toInt < 0 then "m" ++ toString n.toInt.natAbs else toString n.toInt
  | .real x => Text.realHex x
  | .bool true => "true"
  | .bool false => "false"
  | .char c => Text.paddedHex 2 c.toNat
  | .bits word => Text.hex word.toNat
  | .complex re im => Text.realHex re ++ "_" ++ Text.realHex im

end Value

end Algol68
