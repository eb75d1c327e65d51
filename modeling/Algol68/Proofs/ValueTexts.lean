import Algol68.Proofs.Folding
import Algol68.Proofs.Integers
import Algol68.Proofs.JsonText
import Algol68.Proofs.Labels

/-
  Texts of values are read back.

  A literal of generated code is read by the rules of C: a
  leading zero makes a number octal, brackets and a sign may
  stand around it, and a character constant may be an escape.
  A denotation is read as the machine reads it.

  Main declarations:
    * `Value.literals_read_back`
    * `Value.display_denotes`
-/

------ Characters

namespace Algol68

namespace Text

theorem toNat_ofNat (hCode : code < 0xd800) : (Char.ofNat code).toNat = code := by
  unfold Char.ofNat
  rw [dif_pos (Or.inl hCode)]
  rfl

theorem not_mem_toDigits (hOther : c.isDigit = false) : c ∉ Nat.toDigits 10 n := by
  intro hMem
  simp [Nat.isDigit_of_mem_toDigits (by decide) (by decide) hMem] at hOther

theorem toList_toString (n : Int) : (toString n).toList =
    if n < 0 then '-' :: Nat.toDigits 10 n.natAbs else Nat.toDigits 10 n.natAbs := by
  cases n with
  | ofNat n => exact Nat.toList_repr
  | negSucc n =>
    have hText : toString (Int.negSucc n) = "-" ++ Nat.repr (n + 1) := rfl
    rw [hText, String.toList_append, Nat.toList_repr, if_pos (Int.negSucc_lt_zero n)]
    rfl

theorem isBlank_of_isAlphanum (hWord : c.isAlphanum = true) : isBlank c = false := by
  have hRange : 0x30 ≤ c.toNat ∧ c.toNat ≤ 0x7a := by
    delta Char.isAlphanum Char.isAlpha Char.isUpper Char.isLower Char.isDigit at hWord
    simp [UInt32.le_iff_toNat_le] at hWord
    omega
  simp [isBlank, blankRanges]
  omega

variable {before chars after : List Char}

theorem dropWhile_blank (hBefore : ∀ c ∈ before, isBlank c = true)
    (hFirst : ∀ c ∈ chars.head?, isBlank c = false) :
    (before ++ chars).dropWhile isBlank = chars := by
  rw [List.dropWhile_append_of_pos hBefore]
  cases chars with
  | nil => rfl
  | cons c rest => exact List.dropWhile_cons_of_neg (by simp [hFirst c rfl])

theorem trim_surrounded (hBefore : ∀ c ∈ before, isBlank c = true)
    (hAfter : ∀ c ∈ after, isBlank c = true) (hSome : chars ≠ [])
    (hFirst : ∀ c ∈ chars.head?, isBlank c = false)
    (hLast : ∀ c ∈ chars.getLast?, isBlank c = false) :
    trim (before ++ (chars ++ after)) = chars := by
  unfold trim
  rw [dropWhile_blank hBefore (by rwa [List.head?_append_of_ne_nil _ hSome]), List.reverse_append,
    dropWhile_blank (by simpa using hAfter) (by rwa [List.head?_reverse]), List.reverse_reverse]

end Text

------ C Literals

namespace Literal

/- The characters in front of the one that ends a text. -/
def endedBy? (closing : Char) (chars : List Char) : Option (List Char) :=
  if chars.getLast? = some closing then some chars.dropLast else none

/- An unsigned integer constant; a leading zero makes it octal. -/
def number? : List Char → Option Nat
  | '0' :: c :: rest => Decimal.natOfDigits? 8 (c :: rest)
  | chars => Decimal.natOfDigits? 10 chars

/- An integer with an optional sign, or the least one as a difference. -/
def signed? : List Char → Option Int
  | '-' :: rest =>
    if rest = "A68_MAX_INT - 1".toList then some (-Builtin.greatestInt - 1)
    else (number? rest).map fun n => -(n : Int)
  | chars => (number? chars).map Int.ofNat

/- An integer that fits a word, in brackets or without. -/
def int? (chars : List Char) : Option Value := do
  let n ←
    match chars with
    | '(' :: rest => (endedBy? ')' rest).bind signed?
    | _ => signed? chars
  if Builtin.IsWord n then some (.int (Int64.ofInt n)) else none

/- A word in hexadecimal digits with a suffix. -/
def bits? (chars : List Char) : Option Value := do
  let word ← Decimal.natOfDigits? 16 (← endedBy? 'u' chars)
  if word < 2 ^ 64 then some (.bits word.toUInt64) else none

/- The quote of character constants. -/
def quote : Char := Char.ofNat 0x27

/- What is written behind a backslash, and the codes meant. -/
def escapes : List (Char × Nat) :=
  [(quote, 0x27), ('\\', 0x5c), ('n', 0xa), ('t', 0x9), ('r', 0xd), ('0', 0)]

/- The code of the character between two quotes. -/
def code? : List Char → Option Nat
  | [c] => if c = quote ∨ c = '\\' ∨ c = '\n' then none else some c.toNat
  | '\\' :: 'x' :: digits => Decimal.natOfDigits? 16 digits
  | ['\\', c] => escapes.lookup c
  | _ => none

/- A character constant without its first quote. -/
def char? (chars : List Char) : Option Value := do
  let code ← code? (← endedBy? quote chars)
  if code < 256 then some (.char code.toUInt8) else none

/- The value of a literal. -/
def value? : List Char → Option Value
  | '0' :: 'x' :: rest => bits? rest
  | 'A' :: rest =>
    if rest = "68_TRUE".toList then some (.bool true)
    else if rest = "68_FALSE".toList then some (.bool false)
    else none
  | c :: rest => if c = quote then char? rest else int? (c :: rest)
  | [] => none

------ Numbers

theorem endedBy?_append (closing : Char) (chars : List Char) :
    endedBy? closing (chars ++ [closing]) = some chars := by
  simp [endedBy?]

theorem number?_toDigits (n : Nat) : number? (Nat.toDigits 10 n) = some n := by
  unfold number?
  split
  · rename_i c rest hDigits
    rcases Json.Reader.toDigits_head n with rfl | hHead
    · simp at hDigits
    · simp [hDigits] at hHead
  · exact Decimal.natOfDigits?_toDigits (by decide) (by decide) n

theorem signed?_toString (n : Int) : signed? (toString n).toList = some n := by
  rw [Text.toList_toString]
  split
  · have hDigits : Nat.toDigits 10 n.natAbs ≠ "A68_MAX_INT - 1".toList := by
      intro hSame
      have hLetter : 'A' ∈ Nat.toDigits 10 n.natAbs := by simp [hSame]
      exact Text.not_mem_toDigits rfl hLetter
    refine (if_neg hDigits).trans ?_
    rw [number?_toDigits]
    exact congrArg some (by dsimp only; omega)
  · unfold signed?
    split
    · rename_i rest hDigits
      exact absurd (hDigits ▸ List.mem_cons_self)
        (Text.not_mem_toDigits (rfl : '-'.isDigit = false))
    · rw [number?_toDigits]
      exact congrArg some (by simp only [Int.ofNat_eq_natCast]; omega)

theorem int?_of_signed? (hSigned : signed? chars = some n.toInt) (hPlain : '(' ∉ chars) :
    int? chars = some (.int n) ∧ int? ('(' :: chars ++ [')']) = some (.int n) := by
  have hFits : (if Builtin.IsWord n.toInt then some (Value.int (Int64.ofInt n.toInt)) else none) =
      some (.int n) := by
    rw [if_pos (Builtin.isWord_toInt n), Int64.ofInt_toInt]
  constructor
  · unfold int?
    split
    · simp at hPlain
    · simp only [hSigned]
      exact hFits
  · simp only [int?, List.cons_append, endedBy?_append, Option.bind_some, hSigned]
    exact hFits

theorem value?_intLiteral (n : Int64) :
    value? (Value.intLiteral n.toInt).toList = some (.int n) := by
  have hPlain : '(' ∉ (toString n.toInt).toList := by
    rw [Text.toList_toString]
    split <;> simp [Text.not_mem_toDigits]
  have hBoth := int?_of_signed? (signed?_toString n.toInt) hPlain
  unfold Value.intLiteral
  split
  · rename_i hLeast
    have hSigned : signed? ('-' :: "A68_MAX_INT - 1".toList) = some n.toInt := by
      rw [hLeast]
      rfl
    exact (int?_of_signed? hSigned (by decide)).2
  · split
    · rw [String.toList_append, String.toList_append]
      exact hBoth.2
    · rename_i hPos
      -- A text of digits opens no other kind of literal.
      have hNot (c : Char) (hOther : c.isDigit = false) : c ∉ (toString n.toInt).toList := by
        rw [Text.toList_toString, if_neg hPos]
        exact Text.not_mem_toDigits hOther
      unfold value?
      split
      · rename_i rest hText
        exact absurd (hText ▸ by simp) (hNot 'x' rfl)
      · rename_i rest hText
        exact absurd (hText ▸ by simp) (hNot 'A' rfl)
      · rename_i c rest _ _ hText
        have hQuote : c ≠ quote := by
          rintro rfl
          exact absurd (hText ▸ by simp) (hNot quote rfl)
        rw [if_neg hQuote, ← hText]
        exact hBoth.1
      · rename_i hText
        rw [hText] at hBoth
        exact nomatch hBoth.1

theorem value?_literal_bits (word : UInt64) :
    value? (Value.literal (.bits word)).toList = some (.bits word) := by
  have hRead : Decimal.natOfDigits? 16 (Nat.toDigits 16 word.toNat) = some word.toNat :=
    Decimal.natOfDigits?_toDigits (by decide) (by decide) _
  have hText : (Value.literal (.bits word)).toList =
      '0' :: 'x' :: (Nat.toDigits 16 word.toNat ++ ['u']) := by
    simp [Value.literal, Text.hex]
  simp [hText, value?, bits?, endedBy?_append, hRead, word.toNat_lt]

theorem natOfDigits?_paddedHex (width n : Nat) :
    Decimal.natOfDigits? 16 (Text.paddedHex width n).toList = some n := by
  have hFrom (count : Nat) : Decimal.natFrom? 16 0
      (List.replicate count '0' ++ Nat.toDigits 16 n) = some n := by
    induction count with
    | zero => exact Decimal.natFrom?_toDigits (by decide) (by decide) n
    | succ count ih => exact ih
  simp [Text.paddedHex, Decimal.natOfDigits?, hFrom]

theorem value?_charLiteral (c : UInt8) : value? (Value.charLiteral c).toList = some (.char c) := by
  have hRange := c.toNat_lt
  have hRead (body : List Char) (hCode : code? body = some c.toNat) :
      value? (quote :: body ++ [quote]) = some (.char c) := by
    have hChar : char? (body ++ [quote]) = some (.char c) := by
      simp [char?, endedBy?_append, hCode, hRange]
    exact hChar
  unfold Value.charLiteral
  dsimp only
  split
  · rename_i hCode
    exact hRead ['\\', quote] (by rw [hCode]; rfl)
  split
  · rename_i hCode
    exact hRead ['\\', '\\'] (by rw [hCode]; rfl)
  split
  · rename_i hCode
    exact hRead ['\\', 'n'] (by rw [hCode]; rfl)
  split
  · rename_i hCode
    exact hRead ['\\', 't'] (by rw [hCode]; rfl)
  split
  · rename_i hCode
    exact hRead ['\\', 'r'] (by rw [hCode]; rfl)
  split
  · rename_i hCode
    exact hRead ['\\', '0'] (by rw [hCode]; rfl)
  split
  · rename_i hQuote hBackslash hLine _ _ _ hPlain
    have hCode : (Char.ofNat c.toNat).toNat = c.toNat := Text.toNat_ofNat (by omega)
    have hOther (d : Char) (hApart : c.toNat ≠ d.toNat) : Char.ofNat c.toNat ≠ d := by
      rintro rfl
      exact hApart hCode.symm
    rw [String.toList_append, String.toList_append, String.toList_singleton]
    refine hRead [Char.ofNat c.toNat] ?_
    rw [code?, if_neg, hCode]
    rintro (hSame | hSame | hSame)
    · exact hOther quote hQuote hSame
    · exact hOther '\\' hBackslash hSame
    · exact hOther '\n' hLine hSame
  · have hText : ("'\\x" ++ Text.paddedHex 2 c.toNat ++ "'").toList =
        quote :: ('\\' :: 'x' :: (Text.paddedHex 2 c.toNat).toList) ++ [quote] := by
      rw [String.toList_append, String.toList_append]
      rfl
    rw [hText]
    exact hRead _ (natOfDigits?_paddedHex 2 c.toNat)

end Literal

namespace Value

/-
  The literal of an integer, a word, a truth value or a character is read as that
  value, so that no two of them have one literal.
-/
theorem literals_read_back (value : Value) (hReal : value.prim ≠ .real)
    (hComplex : value.prim ≠ .complex) :
    Literal.value? value.literal.toList = some value ∧
      ∀ other : Value, other.prim = value.prim → other.literal = value.literal → other = value := by
  have hRead : ∀ value : Value, value.prim ≠ .real → value.prim ≠ .complex →
      Literal.value? value.literal.toList = some value := by
    rintro (n | x | (_ | _) | c | word | ⟨re, im⟩) hReal hComplex
    · exact Literal.value?_intLiteral n
    · exact absurd rfl hReal
    · rfl
    · rfl
    · exact Literal.value?_charLiteral c
    · exact Literal.value?_literal_bits word
    · exact absurd rfl hComplex
  refine ⟨hRead value hReal hComplex, ?_⟩
  intro other hPrim hSame
  have hOther := hRead other (hPrim ▸ hReal) (hPrim ▸ hComplex)
  rw [hSame, hRead value hReal hComplex] at hOther
  exact (Option.some.inj hOther).symm

theorem literals_read_back_least :
    Literal.value? "(-A68_MAX_INT - 1)".toList = some (.int Int64.minValue) :=
  (literals_read_back (.int Int64.minValue) (by decide) (by decide)).1

------ Denotations

/- The texts of numbers, truth values and characters have no white space around them. -/
theorem display_solid (value : Value) (hReal : value.prim ≠ .real)
    (hComplex : value.prim ≠ .complex) : value.display.toList ≠ [] ∧
      (∀ c ∈ value.display.toList.head?, Text.isBlank c = false) ∧
      ∀ c ∈ value.display.toList.getLast?, Text.isBlank c = false := by
  have hWords (chars : List Char) (hSome : chars ≠ [])
      (hSolid : ∀ c ∈ chars, Text.isBlank c = false) : chars ≠ [] ∧
      (∀ c ∈ chars.head?, Text.isBlank c = false) ∧ ∀ c ∈ chars.getLast?, Text.isBlank c = false :=
    ⟨hSome, fun c hFirst => hSolid c (List.mem_of_head? hFirst),
      fun c hLast => hSolid c (List.mem_of_getLast? hLast)⟩
  have hDigit (n : Nat) : ∀ c ∈ Nat.toDigits 10 n, Text.isBlank c = false := by
    intro c hMem
    have hDigit := Nat.isDigit_of_mem_toDigits (by decide) (by decide) hMem
    exact Text.isBlank_of_isAlphanum (by simp [Char.isAlphanum, hDigit])
  have hLetters (text : String) (hText : text.toList.all Char.isAlphanum = true) :
      ∀ c ∈ text.toList, Text.isBlank c = false :=
    fun c hMem => Text.isBlank_of_isAlphanum (List.all_eq_true.mp hText c hMem)
  rcases value with n | x | (_ | _) | c | word | ⟨re, im⟩
  · rw [display, Text.toList_toString]
    split
    · exact hWords _ (List.cons_ne_nil _ _) (List.forall_mem_cons.mpr ⟨rfl, hDigit _⟩)
    · exact hWords _ Nat.toDigits_ne_nil (hDigit _)
  · exact absurd rfl hReal
  · exact hWords _ (by decide) (hLetters "FALSE" (by decide))
  · exact hWords _ (by decide) (hLetters "TRUE" (by decide))
  · simp [display, Text.isBlank, Text.blankRanges]
  · refine hWords _ (by simp [display]) ?_
    simp only [display, Text.hex, String.toList_append, String.toList_ofList]
    refine List.forall_mem_append.mpr ⟨hLetters "16r" (by decide), ?_⟩
    exact fun c hMem => Text.isBlank_of_isAlphanum (Text.isAlphanum_of_mem_toDigits hMem)
  · exact absurd rfl hComplex

theorem unsigned?_toDigits (hBase : 1 < radix) (hRadix : radix ≤ 16)
    (hSign : '+' ∉ Nat.toDigits radix n) :
    Decimal.unsigned? radix (Nat.toDigits radix n) = some n := by
  unfold Decimal.unsigned?
  split
  · rename_i rest hDigits
    exact absurd (hDigits ▸ List.mem_cons_self) hSign
  · exact Decimal.natOfDigits?_toDigits hBase hRadix n

theorem signed?_toString (n : Int) : Decimal.signed? (toString n).toList = some n := by
  have hNot (c : Char) (hOther : c.isDigit = false) : c ∉ Nat.toDigits 10 n.natAbs :=
    Text.not_mem_toDigits hOther
  rw [Text.toList_toString]
  split
  · simp only [Decimal.signed?, Decimal.natOfDigits?_toDigits (by decide : 1 < 10) (by decide)]
    exact congrArg some (by dsimp only; omega)
  · unfold Decimal.signed?
    split
    · rename_i rest hDigits
      exact absurd (hDigits ▸ List.mem_cons_self) (hNot '-' rfl)
    · rw [unsigned?_toDigits (by decide) (by decide) (hNot '+' rfl)]
      exact congrArg some (by simp only [Int.ofNat_eq_natCast]; omega)

theorem int?_display (n : Int64) : Denoter.int? (display (.int n)).toList = some (.int n) := by
  simp only [Denoter.int?, display, signed?_toString, Option.bind_eq_bind, Option.bind_some]
  rw [if_pos (Builtin.isWord_toInt n), Int64.ofInt_toInt]

theorem bits?_display (word : UInt64) :
    Denoter.bits? (display (.bits word)).toList = some (.bits word) := by
  have hSign : '+' ∉ Nat.toDigits 16 word.toNat := fun hMem =>
    absurd (Text.isAlphanum_of_mem_toDigits hMem) (by decide)
  have hParts : Denoter.radixAndDigits (display (.bits word)).toList =
      (['1', '6'], Nat.toDigits 16 word.toNat) := by
    simp [display, Text.hex, Denoter.radixAndDigits]
  have hRadix : Decimal.unsigned? 10 ['1', '6'] = some 16 := by decide
  simp [Denoter.bits?, hParts, hRadix, unsigned?_toDigits (by decide) (by decide) hSign,
    word.toNat_lt]

theorem char?_display (hByte : c.toNat < 0x80) :
    Denoter.char? (display (.char c)).toList = some (.char c) := by
  have hCode : (Char.ofNat c.toNat).toNat = c.toNat := Text.toNat_ofNat (by omega)
  simp [Denoter.char?, display, Denoter.unquoted, Denoter.joinQuotes, hCode, hByte]

theorem value?_display {table : ModeTable}
    (hPrim : table.prim? mode = .ok (some value.prim)) (hReal : value.prim ≠ .real)
    (hComplex : value.prim ≠ .complex) (hByte : ∀ c, value = .char c → c.toNat < 0x80) :
    ∃ kind, table.kind mode = .ok kind ∧ Denoter.value? kind value.display.toList = some value := by
  rcases Walk.bind_eq_ok.mp hPrim with ⟨kind, hKind, hMatch⟩
  refine ⟨kind, hKind, ?_⟩
  split at hMatch
  · cases value <;> simp [prim] at hMatch
    exact int?_display _
  · exact absurd (by simpa using hMatch.symm) hReal
  · cases value <;> simp [prim] at hMatch
    rename_i b
    cases b <;> decide
  · cases value <;> simp [prim] at hMatch
    exact char?_display (hByte _ rfl)
  · cases value <;> simp [prim] at hMatch
    exact bits?_display _
  · split at hMatch
    · exact absurd (by simpa using hMatch.symm) hComplex
    · simp at hMatch

/-
  The text that shows an integer, a truth value, a word or a character of seven bits
  is a denotation of it, with white space around it or not. Characters beyond that are
  shown by more than one byte, which no denotation has.
-/
theorem display_denotes (tree : SyntaxTree) (machine : Machine) (before after : List Char)
    {id : NodeId} {node : Node} {mode : ModeId} {value : Value}
    (hNode : tree.node id = .ok node) (hMode : node.mode = some mode)
    (hPrim : tree.modes.prim? mode = .ok (some value.prim)) (hReal : value.prim ≠ .real)
    (hComplex : value.prim ≠ .complex) (hByte : ∀ c, value = .char c → c.toNat < 0x80)
    (hBefore : ∀ c ∈ before, Text.isBlank c = true) (hAfter : ∀ c ∈ after, Text.isBlank c = true)
    (hSymbol : node.symbol = String.ofList before ++ value.display ++ String.ofList after) :
    (Machine.pushDenoter tree id).run.run machine =
      .ok (.ok (), { machine with stack := value :: machine.stack }) := by
  rcases value?_display hPrim hReal hComplex hByte with ⟨kind, hKind, hValue⟩
  rcases display_solid value hReal hComplex with ⟨hSome, hFirst, hLast⟩
  have hTrim : Text.trim node.symbol.toList = value.display.toList := by
    rw [hSymbol, String.toList_append, String.toList_append, String.toList_ofList,
      String.toList_ofList, List.append_assoc]
    exact Text.trim_surrounded hBefore hAfter hSome hFirst hLast
  have hFound : node.mode.mapM tree.modes.kind = .ok (some kind) := by
    simp [hMode, hKind]
  rw [Machine.pushDenoter, Machine.reading_bind hNode]
  dsimp only
  rw [Machine.reading_bind hFound, hTrim, Option.bind_some, hValue]
  rfl

/- A denotation of a mode in a tree of its own. -/
def loneDenoter (mode : ModeId) (symbol : String) : SyntaxTree where
  nodes := ⟨#[{ attr := .denoter, mode := some mode, symbol := symbol }]⟩
  root := some ⟨0⟩

theorem display_denotes_quote :
    (Machine.pushDenoter (loneDenoter ⟨4⟩ " \"\"\"\n") ⟨0⟩).run.run {} =
      .ok (.ok (), { stack := [.char 0x22] }) :=
  display_denotes (loneDenoter ⟨4⟩ " \"\"\"\n") {} [' '] ['\n'] rfl rfl rfl (by decide) (by decide)
    (fun _ hSame => by cases hSame; decide) (List.forall_mem_singleton.mpr (by decide))
    (List.forall_mem_singleton.mpr (by decide)) rfl

theorem accent_not_denoted :
    (Machine.pushDenoter (loneDenoter ⟨4⟩ (display (.char 0xe9))) ⟨0⟩).run.run {} =
      .ok (.error (.invalidDenoter ⟨0⟩ (display (.char 0xe9))), {}) := by
  rfl

end Value

end Algol68
