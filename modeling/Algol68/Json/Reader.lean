import Algol68.Json

/-
  Reading of the data format.

  The reader takes the strict form: no comments, no leading zeros, no control characters in texts
  and nothing behind the value. Each function gives what it read and the characters behind that.
-/

------ Numbers

namespace Algol68

variable (chars : List Char)

namespace Json

namespace Reader

/- Whether a character may stand between tokens. -/
def isSpace (c : Char) : Bool := c == ' ' || c == '\n' || c == '\t' || c == '\r'

def skipSpace : List Char := chars.dropWhile isSpace

def afterWord? : List Char → List Char → Option (List Char)
  | [], chars => some chars
  | _ :: _, [] => none
  | w :: word, c :: chars => if w = c then afterWord? word chars else none

def digits? : Option (List Char × List Char) :=
  match chars.span Char.isDigit with
  | ([], _) => none
  | (digits, rest) => some (digits, rest)

/- A whole number; a zero stands alone. -/
def whole? : List Char → Option (List Char × List Char)
  | '0' :: rest => some (['0'], rest)
  | chars => digits? chars

def fraction? : List Char → Option (List Char × List Char)
  | '.' :: rest => do
    let (digits, rest) ← digits? rest
    some ('.' :: digits, rest)
  | chars => some ([], chars)

def exponentSign : List Char → List Char × List Char
  | '+' :: rest => (['+'], rest)
  | '-' :: rest => (['-'], rest)
  | chars => ([], chars)

def exponent? : List Char → Option (List Char × List Char)
  | [] => some ([], [])
  | c :: rest =>
    if c = 'e' ∨ c = 'E' then do
      let (sign, rest) := exponentSign rest
      let (digits, rest) ← digits? rest
      some (c :: (sign ++ digits), rest)
    else some ([], c :: rest)

/- A number without its sign. -/
def magnitude? : Option (List Char × List Char) := do
  let (whole, rest) ← whole? chars
  let (fraction, rest) ← fraction? rest
  let (exponent, rest) ← exponent? rest
  some (whole ++ fraction ++ exponent, rest)

def number? : List Char → Option (List Char × List Char)
  | '-' :: rest => do
    let (spelling, rest) ← magnitude? rest
    some ('-' :: spelling, rest)
  | chars => magnitude? chars

------ Texts

/- The number of four hexadecimal digits. -/
def hexUnit? (a b c d : Char) : Option Nat := Decimal.natOfDigits? 16 [a, b, c, d]

/- The code of an escaped character other than `u`. -/
def escapeCode? : Char → Option Nat
  | '"' => some 0x22
  | '\\' => some 0x5c
  | '/' => some 0x2f
  | 'b' => some 0x8
  | 'f' => some 0xc
  | 'n' => some 0xa
  | 'r' => some 0xd
  | 't' => some 0x9
  | _ => none

/-
  The codes of a text up to its closing quote. An escape in
  digits gives one code, which may be half of a pair.
-/
def codes? : List Char → Option (List Nat × List Char)
  | '"' :: rest => some ([], rest)
  | '\\' :: 'u' :: a :: b :: c :: d :: rest => do
    let unit ← hexUnit? a b c d
    let (codes, rest) ← codes? rest
    some (unit :: codes, rest)
  | '\\' :: e :: rest => do
    let code ← escapeCode? e
    let (codes, rest) ← codes? rest
    some (code :: codes, rest)
  | c :: rest =>
    if c = '\\' ∨ c.toNat < 0x20 then none
    else do
      let (codes, rest) ← codes? rest
      some (c.toNat :: codes, rest)
  | [] => none

/- Whether a code is the first half of a pair. -/
def isHigh (code : Nat) : Bool := decide (0xd800 ≤ code) && decide (code < 0xdc00)

/- Whether a code is the second half of a pair. -/
def isLow (code : Nat) : Bool := decide (0xdc00 ≤ code) && decide (code < 0xe000)

/- The characters of codes, if every half has its other half. -/
def joinPairs? : List Nat → Option (List Char)
  | [] => some []
  | high :: rest =>
    if isHigh high then
      match rest with
      | low :: rest =>
        if isLow low then do
          let chars ← joinPairs? rest
          some (Char.ofNat (0x10000 + (high - 0xd800) * 0x400 + (low - 0xdc00)) :: chars)
        else none
      | [] => none
    else if isLow high then none
    else do
      let chars ← joinPairs? rest
      some (Char.ofNat high :: chars)

def quoted? : Option (Quoted × List Char) := do
  let (codes, rest) ← codes? chars
  match joinPairs? codes with
  | some content => some (.text (String.ofList content), rest)
  | none => some (.unpaired, rest)

------ Values

mutual

/- A value; `fuel` bounds the number of tokens. -/
def value? : Nat → List Char → Option (Json × List Char)
  | 0, _ => none
  | fuel + 1, chars =>
    match skipSpace chars with
    | '"' :: rest => do
      let (content, rest) ← quoted? rest
      some (.string content, rest)
    | '[' :: rest =>
      match skipSpace rest with
      | ']' :: rest => some (.array [], rest)
      | rest => do
        let (items, rest) ← items? fuel rest
        some (.array items, rest)
    | '{' :: rest =>
      match skipSpace rest with
      | '}' :: rest => some (.object [], rest)
      | rest => do
        let (members, rest) ← members? fuel rest
        some (.object members, rest)
    | 'n' :: rest => do
      let rest ← afterWord? ['u', 'l', 'l'] rest
      some (.null, rest)
    | 't' :: rest => do
      let rest ← afterWord? ['r', 'u', 'e'] rest
      some (.bool true, rest)
    | 'f' :: rest => do
      let rest ← afterWord? ['a', 'l', 's', 'e'] rest
      some (.bool false, rest)
    | rest => do
      let (spelling, rest) ← number? rest
      some (.number spelling, rest)

def items? : Nat → List Char → Option (List Json × List Char)
  | 0, _ => none
  | fuel + 1, chars => do
    let (item, rest) ← value? fuel chars
    match skipSpace rest with
    | ',' :: rest => do
      let (items, rest) ← items? fuel rest
      some (item :: items, rest)
    | ']' :: rest => some ([item], rest)
    | _ => none

def members? : Nat → List Char → Option (List (Quoted × Json) × List Char)
  | 0, _ => none
  | fuel + 1, chars =>
    match skipSpace chars with
    | '"' :: rest => do
      let (name, rest) ← quoted? rest
      match skipSpace rest with
      | ':' :: rest => do
        let (value, rest) ← value? fuel rest
        match skipSpace rest with
        | ',' :: rest => do
          let (members, rest) ← members? fuel rest
          some ((name, value) :: members, rest)
        | '}' :: rest => some ([(name, value)], rest)
        | _ => none
      | _ => none
    | _ => none

end

end Reader

/- The value a text holds, if it holds exactly one. -/
def parse? (text : String) : Option Json := do
  let chars := text.toList
  let (json, rest) ← Reader.value? (2 * chars.length + 2) chars
  if (Reader.skipSpace rest).isEmpty then some json else none

end Json

end Algol68
