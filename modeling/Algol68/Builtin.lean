import Algol68.Value
import Algol68.Text.Words

/- The standard environment: the operators and procedures that are known without a declaration. -/

------ Signatures

namespace Algol68

/- How a builtin is written in generated code. -/
inductive Rendering
  /- `(a OP b)` -/
  | infixOp (op : String)
  /- `(OP a)` -/
  | prefixOp (op : String)
  /- `f (a, b)` -/
  | call (function : String)
  /- A named constant. -/
  | constant (name : String)
  /- `f (result, a, b)`, used for complex results. -/
  | out (function : String)
deriving DecidableEq, Repr

/- The name, the operands, the result and the C form. -/
structure Signature where
  name : String
  params : List Prim
  result : Prim
  rendering : Rendering
deriving DecidableEq, Repr

------ Builtins

/- An operator, procedure or constant of the environment. -/
inductive Builtin
  | intAdd
  | intSub
  | intMul
  | intOver
  | intMod
  | intDiv
  | intPow
  | intEq
  | intNe
  | intLt
  | intLe
  | intGt
  | intGe
  | intNeg
  | intPlus
  | intAbs
  | intSign
  | intOdd
  | realAdd
  | realSub
  | realMul
  | realDiv
  | realPow
  | realEq
  | realNe
  | realLt
  | realLe
  | realGt
  | realGe
  | realNeg
  | realAbs
  | realSign
  | entier
  | round
  | boolNot
  | boolAnd
  | boolOr
  | boolEq
  | boolNe
  | charEq
  | charNe
  | charLt
  | charGt
  | charRepr
  | charAbs
  | bitsAnd
  | bitsOr
  | bitsNot
  | bitsEq
  | bitsNe
  | complexI
  | re
  | im
  | complexAdd
  | complexSub
  | complexMul
  | sqrt
  | exp
  | ln
  | sin
  | cos
  | tan
  | arctan
  | pi
  | maxInt
  | maxReal
  | minReal
  | smallReal
  | random
deriving DecidableEq, Repr, Inhabited

variable (builtin : Builtin)

namespace Builtin

def all : List Builtin :=
  [.intAdd, .intSub, .intMul, .intOver, .intMod, .intDiv,
   .intPow, .intEq, .intNe, .intLt, .intLe, .intGt, .intGe,
   .intNeg, .intPlus, .intAbs, .intSign, .intOdd, .realAdd,
   .realSub, .realMul, .realDiv, .realPow, .realEq,
   .realNe, .realLt, .realLe, .realGt, .realGe, .realNeg,
   .realAbs, .realSign, .entier, .round, .boolNot,
   .boolAnd, .boolOr, .boolEq, .boolNe, .charEq, .charNe,
   .charLt, .charGt, .charRepr, .charAbs, .bitsAnd,
   .bitsOr, .bitsNot, .bitsEq, .bitsNe, .complexI, .re,
   .im, .complexAdd, .complexSub, .complexMul, .sqrt, .exp,
   .ln, .sin, .cos, .tan, .arctan, .pi, .maxInt, .maxReal,
   .minReal, .smallReal, .random]

/- The spelling of a builtin in the written form of a tree. -/
def spelling : Builtin → String
  | .intAdd => "IntAdd"
  | .intSub => "IntSub"
  | .intMul => "IntMul"
  | .intOver => "IntOver"
  | .intMod => "IntMod"
  | .intDiv => "IntDiv"
  | .intPow => "IntPow"
  | .intEq => "IntEq"
  | .intNe => "IntNe"
  | .intLt => "IntLt"
  | .intLe => "IntLe"
  | .intGt => "IntGt"
  | .intGe => "IntGe"
  | .intNeg => "IntNeg"
  | .intPlus => "IntPlus"
  | .intAbs => "IntAbs"
  | .intSign => "IntSign"
  | .intOdd => "IntOdd"
  | .realAdd => "RealAdd"
  | .realSub => "RealSub"
  | .realMul => "RealMul"
  | .realDiv => "RealDiv"
  | .realPow => "RealPow"
  | .realEq => "RealEq"
  | .realNe => "RealNe"
  | .realLt => "RealLt"
  | .realLe => "RealLe"
  | .realGt => "RealGt"
  | .realGe => "RealGe"
  | .realNeg => "RealNeg"
  | .realAbs => "RealAbs"
  | .realSign => "RealSign"
  | .entier => "Entier"
  | .round => "Round"
  | .boolNot => "Not"
  | .boolAnd => "And"
  | .boolOr => "Or"
  | .boolEq => "BoolEq"
  | .boolNe => "BoolNe"
  | .charEq => "CharEq"
  | .charNe => "CharNe"
  | .charLt => "CharLt"
  | .charGt => "CharGt"
  | .charRepr => "Repr"
  | .charAbs => "CharAbs"
  | .bitsAnd => "BitsAnd"
  | .bitsOr => "BitsOr"
  | .bitsNot => "BitsNot"
  | .bitsEq => "BitsEq"
  | .bitsNe => "BitsNe"
  | .complexI => "ComplexI"
  | .re => "Re"
  | .im => "Im"
  | .complexAdd => "ComplexAdd"
  | .complexSub => "ComplexSub"
  | .complexMul => "ComplexMul"
  | .sqrt => "Sqrt"
  | .exp => "Exp"
  | .ln => "Ln"
  | .sin => "Sin"
  | .cos => "Cos"
  | .tan => "Tan"
  | .arctan => "Arctan"
  | .pi => "Pi"
  | .maxInt => "MaxInt"
  | .maxReal => "MaxReal"
  | .minReal => "MinReal"
  | .smallReal => "SmallReal"
  | .random => "Random"

def ofSpelling? (text : String) : Option Builtin :=
  all.find? fun builtin => builtin.spelling == text

def signature : Builtin → Signature
  | .intAdd => ⟨"+", [.int, .int], .int, .infixOp "+"⟩
  | .intSub => ⟨"-", [.int, .int], .int, .infixOp "-"⟩
  | .intMul => ⟨"*", [.int, .int], .int, .infixOp "*"⟩
  | .intOver => ⟨"OVER", [.int, .int], .int, .infixOp "/"⟩
  | .intMod => ⟨"MOD", [.int, .int], .int, .call "a68_mod_int"⟩
  | .intDiv => ⟨"/", [.int, .int], .real, .call "a68_div_int"⟩
  | .intPow => ⟨"**", [.int, .int], .int, .call "a68_pow_int"⟩
  | .intEq => ⟨"=", [.int, .int], .bool, .infixOp "=="⟩
  | .intNe => ⟨"/=", [.int, .int], .bool, .infixOp "!="⟩
  | .intLt => ⟨"<", [.int, .int], .bool, .infixOp "<"⟩
  | .intLe => ⟨"<=", [.int, .int], .bool, .infixOp "<="⟩
  | .intGt => ⟨">", [.int, .int], .bool, .infixOp ">"⟩
  | .intGe => ⟨">=", [.int, .int], .bool, .infixOp ">="⟩
  | .intNeg => ⟨"-", [.int], .int, .prefixOp "-"⟩
  | .intPlus => ⟨"+", [.int], .int, .prefixOp "+"⟩
  | .intAbs => ⟨"ABS", [.int], .int, .call "A68_ABS"⟩
  | .intSign => ⟨"SIGN", [.int], .int, .call "A68_SIGN"⟩
  | .intOdd => ⟨"ODD", [.int], .bool, .call "A68_ODD"⟩
  | .realAdd => ⟨"+", [.real, .real], .real, .infixOp "+"⟩
  | .realSub => ⟨"-", [.real, .real], .real, .infixOp "-"⟩
  | .realMul => ⟨"*", [.real, .real], .real, .infixOp "*"⟩
  | .realDiv => ⟨"/", [.real, .real], .real, .infixOp "/"⟩
  | .realPow => ⟨"**", [.real, .int], .real, .call "a68_pow_real_int"⟩
  | .realEq => ⟨"=", [.real, .real], .bool, .infixOp "=="⟩
  | .realNe => ⟨"/=", [.real, .real], .bool, .infixOp "!="⟩
  | .realLt => ⟨"<", [.real, .real], .bool, .infixOp "<"⟩
  | .realLe => ⟨"<=", [.real, .real], .bool, .infixOp "<="⟩
  | .realGt => ⟨">", [.real, .real], .bool, .infixOp ">"⟩
  | .realGe => ⟨">=", [.real, .real], .bool, .infixOp ">="⟩
  | .realNeg => ⟨"-", [.real], .real, .prefixOp "-"⟩
  | .realAbs => ⟨"ABS", [.real], .real, .call "fabs"⟩
  | .realSign => ⟨"SIGN", [.real], .int, .call "A68_SIGN"⟩
  | .entier => ⟨"ENTIER", [.real], .int, .call "a68_entier"⟩
  | .round => ⟨"ROUND", [.real], .int, .call "a68_round"⟩
  | .boolNot => ⟨"NOT", [.bool], .bool, .prefixOp "!"⟩
  | .boolAnd => ⟨"AND", [.bool, .bool], .bool, .infixOp "&"⟩
  | .boolOr => ⟨"OR", [.bool, .bool], .bool, .infixOp "|"⟩
  | .boolEq => ⟨"=", [.bool, .bool], .bool, .infixOp "=="⟩
  | .boolNe => ⟨"/=", [.bool, .bool], .bool, .infixOp "!="⟩
  | .charEq => ⟨"=", [.char, .char], .bool, .infixOp "=="⟩
  | .charNe => ⟨"/=", [.char, .char], .bool, .infixOp "!="⟩
  | .charLt => ⟨"<", [.char, .char], .bool, .infixOp "<"⟩
  | .charGt => ⟨">", [.char, .char], .bool, .infixOp ">"⟩
  | .charRepr => ⟨"REPR", [.int], .char, .call "a68_repr"⟩
  | .charAbs => ⟨"ABS", [.char], .int, .call "A68_TO_UCHAR"⟩
  | .bitsAnd => ⟨"AND", [.bits, .bits], .bits, .infixOp "&"⟩
  | .bitsOr => ⟨"OR", [.bits, .bits], .bits, .infixOp "|"⟩
  | .bitsNot => ⟨"NOT", [.bits], .bits, .prefixOp "~"⟩
  | .bitsEq => ⟨"=", [.bits, .bits], .bool, .infixOp "=="⟩
  | .bitsNe => ⟨"/=", [.bits, .bits], .bool, .infixOp "!="⟩
  | .complexI => ⟨"I", [.real, .real], .complex, .out "a68_complex_i"⟩
  | .re => ⟨"RE", [.complex], .real, .call "A68_RE"⟩
  | .im => ⟨"IM", [.complex], .real, .call "A68_IM"⟩
  | .complexAdd => ⟨"+", [.complex, .complex], .complex, .out "a68_complex_add"⟩
  | .complexSub => ⟨"-", [.complex, .complex], .complex, .out "a68_complex_sub"⟩
  | .complexMul => ⟨"*", [.complex, .complex], .complex, .out "a68_complex_mul"⟩
  | .sqrt => ⟨"sqrt", [.real], .real, .call "sqrt"⟩
  | .exp => ⟨"exp", [.real], .real, .call "exp"⟩
  | .ln => ⟨"ln", [.real], .real, .call "log"⟩
  | .sin => ⟨"sin", [.real], .real, .call "sin"⟩
  | .cos => ⟨"cos", [.real], .real, .call "cos"⟩
  | .tan => ⟨"tan", [.real], .real, .call "tan"⟩
  | .arctan => ⟨"arctan", [.real], .real, .call "atan"⟩
  | .pi => ⟨"pi", [], .real, .constant "A68_PI"⟩
  | .maxInt => ⟨"max int", [], .int, .constant "A68_MAX_INT"⟩
  | .maxReal => ⟨"max real", [], .real, .constant "A68_MAX_REAL"⟩
  | .minReal => ⟨"min real", [], .real, .constant "A68_MIN_REAL"⟩
  | .smallReal => ⟨"small real", [], .real, .constant "A68_SMALL_REAL"⟩
  | .random => ⟨"random", [], .real, .call "a68_random"⟩

def name : String := builtin.signature.name

def arity : Nat := builtin.signature.params.length

/- Operators are not spelled with a small letter first. -/
def isOperator : Bool :=
  match builtin.name.toList with
  | c :: _ => !c.isLower
  | [] => false

/- Whether the result depends on the operands alone. -/
def isConstant : Bool := builtin != .random

/- Whether a checked build tests the result for an error. -/
def mayRaiseMathError : Builtin → Bool
  | .sqrt | .exp | .ln | .tan
  | .realDiv | .realPow | .intDiv => true
  | _ => false

/- The builtin of a name whose operands have these categories. -/
def lookup? (name : String) (operands : List Prim) : Option Builtin :=
  all.find? fun builtin => Text.equalIgnoringCase builtin.name name &&
      builtin.signature.params == operands

end Builtin

end Algol68
