/- Primitive values and their categories. -/

------ Categories

namespace Algol68

/- The categories of primitive values. -/
inductive Prim
  | int
  | real
  | bool
  | char
  | bits
  | complex
deriving DecidableEq, Repr, Inhabited

/- The source-language name of a category. -/
def Prim.modeName : Prim → String
  | .int => "INT"
  | .real => "REAL"
  | .bool => "BOOL"
  | .char => "CHAR"
  | .bits => "BITS"
  | .complex => "COMPL"

------ Values

/-
  A value on the evaluation stack. An integer is a word of 64 bits, a character is a byte, and a
  complex number is kept as its two real parts.
-/
inductive Value
  | int (n : Int64)
  | real (x : Float)
  | bool (b : Bool)
  | char (c : UInt8)
  | bits (word : UInt64)
  | complex (re im : Float)
deriving DecidableEq, Repr, Inhabited

namespace Value

def prim : Value → Prim
  | .int _ => .int
  | .real _ => .real
  | .bool _ => .bool
  | .char _ => .char
  | .bits _ => .bits
  | .complex _ _ => .complex

def int? : Value → Option Int64
  | .int n => some n
  | _ => none

def real? : Value → Option Float
  | .real x => some x
  | _ => none

def bool? : Value → Option Bool
  | .bool b => some b
  | _ => none

def char? : Value → Option UInt8
  | .char c => some c
  | _ => none

def bits? : Value → Option UInt64
  | .bits word => some word
  | _ => none

/- The parts of a complex number, if the value is one. -/
def complex? : Value → Option (Float × Float)
  | .complex re im => some (re, im)
  | _ => none

def isFinite : Value → Bool
  | .real x => x.isFinite
  | .complex re im => re.isFinite && im.isFinite
  | _ => true

end Value

end Algol68
