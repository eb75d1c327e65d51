import Algol68.Machine

/- The values that denotations stand for. -/

------ Denotations

namespace Algol68

variable (chars : List Char)

namespace Denoter

/- An integer that fits a word. -/
def int? : Option Value := do
  let n ← Decimal.signed? chars
  if Builtin.leastInt ≤ n ∧ n ≤ Builtin.greatestInt then some (.int (Int64.ofInt n)) else none

def bool? : Option Value :=
  if chars = "TRUE".toList then some (.bool true)
  else if chars = "FALSE".toList then some (.bool false)
  else none

/- The characters between two quotes, or all of them. -/
def unquoted : List Char :=
  match chars with
  | '"' :: rest => if rest.getLast? = some '"' then rest.dropLast else chars
  | _ => chars

def joinQuotes : List Char → List Char
  | '"' :: '"' :: rest => '"' :: joinQuotes rest
  | c :: rest => c :: joinQuotes rest
  | [] => []

def char? : Option Value :=
  match joinQuotes (unquoted chars) with
  | [c] => if c.toNat < 0x80 then some (.char c.toNat.toUInt8) else none
  | _ => none

/- The radix of a word and its digits; binary by default. -/
def radixAndDigits : List Char × List Char :=
  match chars.span fun c => c != 'r' && c != 'R' with
  | (radix, _ :: digits) => (radix, digits)
  | (digits, []) => (['2'], digits)

/- A word in radix two, four, eight or sixteen. -/
def bits? : Option Value := do
  let (radix, digits) := radixAndDigits chars
  let radix ← Decimal.unsigned? 10 radix
  if radix = 2 ∨ radix = 4 ∨ radix = 8 ∨ radix = 16 then
    let word ← Decimal.unsigned? radix digits
    if word < Nat.pow 2 64 then some (.bits word.toUInt64) else none
  else none

/- The value of a trimmed text as a denotation of a kind. -/
def value? (kind : ModeKind) (chars : List Char) : Option Value :=
  match kind with
  | .int => int? chars
  | .real => (Decimal.real? chars).map Value.real
  | .bool => bool? chars
  | .char => char? chars
  | .bits => bits? chars
  | _ => none

end Denoter

end Algol68
