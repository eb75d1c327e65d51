import Mathlib.Data.List.Basic
import Mathlib.Data.List.DropRight
import Mathlib.Data.List.TakeDrop
import Algol68.Json.Reader
import Algol68.Json.Writer
import Algol68.Proofs.Texts

/-
  Written values are read back.

  The reader meets a written value in front of other characters. What follows matters to a number
  only, which would take up a digit, a point or an exponent behind it. The bound of the reader
  counts two for each character.
-/

------ Numbers

namespace Algol68

open List

namespace Json

namespace Reader

/- A number ends in front of the characters. -/
def EndsNumber (rest : List Char) : Prop :=
  ∀ c ∈ rest.head?, c.isDigit = false ∧ c ≠ '.' ∧ c ≠ 'e' ∧ c ≠ 'E'

/- Digits are read as far as they go. -/
theorem digits?_append (hDigits : ∀ c ∈ digits, c.isDigit = true) (hSome : digits ≠ [])
    (hRest : EndsNumber rest) : digits? (digits ++ rest) = some (digits, rest) := by
  have hSpan : (digits ++ rest).span Char.isDigit = (digits, rest) := by
    rw [span_eq_takeWhile_dropWhile, takeWhile_append_of_pos hDigits,
      dropWhile_append_of_pos hDigits]
    cases rest with
    | nil => simp
    | cons c rest =>
      have hEnd := (hRest c rfl).1
      simp [hEnd]
  unfold digits?
  rw [hSpan]
  cases digits with
  | nil => exact absurd rfl hSome
  | cons first digits => rfl

/- No digit but of zero itself is a zero in front. -/
theorem toDigits_head (n : Nat) : n = 0 ∨ (Nat.toDigits 10 n).head? ≠ some '0' := by
  induction n using Nat.strongRecOn with
  | ind n ih =>
    by_cases hSmall : n < 10
    · rw [Nat.toDigits_of_lt_base hSmall]
      clear ih
      revert n
      decide
    · right
      have hLess : n / 10 < n := by omega
      rw [Nat.toDigits_of_base_le (by decide) (Nat.le_of_not_lt hSmall),
        head?_append_of_ne_nil _ Nat.toDigits_ne_nil]
      rcases ih (n / 10) hLess with hZero | hHead
      · omega
      · exact hHead

/- A written number is read as a whole. -/
theorem whole?_toDigits (n : Nat) (hRest : EndsNumber rest) :
    whole? (Nat.toDigits 10 n ++ rest) = some (Nat.toDigits 10 n, rest) := by
  have hDigits := digits?_append (fun c hMem => Nat.isDigit_of_mem_toDigits
      (b := 10) (by decide) (by decide) hMem)
    (Nat.toDigits_ne_nil (n := n)) hRest
  rcases toDigits_head n with rfl | hHead
  · rfl
  · cases hChars : Nat.toDigits 10 n with
    | nil => exact absurd hChars Nat.toDigits_ne_nil
    | cons first digits =>
      rw [hChars] at hHead hDigits
      unfold whole?
      split
      · rename_i hZero
        simp only [cons_append, cons.injEq] at hZero
        simp [hZero.1] at hHead
      · exact hDigits

/- Behind it stand neither a fraction nor an exponent. -/
theorem magnitude?_toDigits (n : Nat) (hRest : EndsNumber rest) :
    magnitude? (Nat.toDigits 10 n ++ rest) = some (Nat.toDigits 10 n, rest) := by
  have hFraction : fraction? rest = some ([], rest) := by
    unfold fraction?
    split
    · exact absurd rfl (hRest '.' rfl).2.1
    · rfl
  have hExp : exponent? rest = some ([], rest) := by
    cases rest with
    | nil => rfl
    | cons c rest =>
      have hEnd := hRest c rfl
      simp [exponent?, hEnd.2.2]
  simp [magnitude?, whole?_toDigits n hRest, hFraction, hExp]

theorem number?_toDigits (n : Nat) (hRest : EndsNumber rest) :
    number? (Nat.toDigits 10 n ++ rest) = some (Nat.toDigits 10 n, rest) := by
  unfold number?
  split
  · rename_i hMinus
    have hDigit : ('-' : Char).isDigit = true := by
      apply Nat.isDigit_of_mem_toDigits (b := 10) (n := n) (by decide) (by decide)
      cases hChars : Nat.toDigits 10 n with
      | nil => exact absurd hChars Nat.toDigits_ne_nil
      | cons first digits =>
        rw [hChars, cons_append] at hMinus
        injection hMinus with hFirst _
        simp [hFirst]
    exact absurd hDigit (by decide)
  · exact magnitude?_toDigits n hRest

------ Texts

theorem paddedHex_control (hControl : n < 0x20) :
    (Text.paddedHex 4 n).toList.length = 4 ∧ Decimal.natOfDigits? 16 (Text.paddedHex 4 n).toList =
        some n := by
  revert n
  decide +kernel

/- A code that is read in front of others. -/
def withCode (code : Nat) (read : List Nat × List Char) : List Nat × List Char :=
  (code :: read.1, read.2)

theorem codes?_digits (hLen : digits.length = 4)
    (hNum : Decimal.natOfDigits? 16 digits = some n) (rest : List Char) :
    codes? ('\\' :: 'u' :: (digits ++ rest)) = (codes? rest).map (withCode n) := by
  match digits, hLen with
  | [a, b, c, d], _ =>
    simp only [cons_append, nil_append, codes?, hexUnit?, hNum]
    cases codes? rest <;> rfl

theorem codes?_letter (hLetter : letter ≠ 'u') (hCode : escapeCode? letter = some code)
    (rest : List Char) : codes? ('\\' :: letter :: rest) = (codes? rest).map (withCode code) := by
  have hStep : codes? ('\\' :: letter :: rest) = (escapeCode? letter).bind fun code =>
        (codes? rest).bind fun read => some (code :: read.1, read.2) := by
    rw [codes?.eq_def]
    split
    · simp_all
    · simp_all
    · simp_all
    · rename_i hNoEscape hChars
      injection hChars with hFirst hRest
      exact absurd hRest.symm (hNoEscape letter rest hFirst.symm)
    · simp_all
  rw [hStep, hCode]
  cases codes? rest <;> rfl

/- Any other character stands for itself. -/
theorem codes?_plain (hQuote : c ≠ '"') (hEscape : c ≠ '\\') (hControl : ¬c.toNat < 0x20)
    (rest : List Char) : codes? (c :: rest) = (codes? rest).map (withCode c.toNat) := by
  rw [codes?.eq_def]
  split
  · simp_all
  · simp_all
  · simp_all
  · rename_i hChars
    injection hChars with hFirst hRest
    subst hFirst hRest
    rw [if_neg (by simp [hEscape, hControl])]
    cases codes? rest <;> rfl
  · simp_all

/- A written character is read as its code. -/
theorem codes?_escape (c : Char) (rest : List Char) :
    codes? (escape c ++ rest) = (codes? rest).map (withCode c.toNat) := by
  unfold escape
  split_ifs with hQuote hEscape hLine hReturn hTab hBack hFeed hControl
  iterate 5
    subst c
    exact codes?_letter (by decide) rfl rest
  · rw [hBack]
    exact codes?_letter (by decide) rfl rest
  · rw [hFeed]
    exact codes?_letter (by decide) rfl rest
  · have hDigits := paddedHex_control hControl
    exact codes?_digits hDigits.1 hDigits.2 rest
  · exact codes?_plain hQuote hEscape hControl rest

theorem codes?_flatMap_escape (content rest : List Char) :
    codes? (content.flatMap escape ++ '"' :: rest) = some (content.map Char.toNat, rest) := by
  induction content with
  | nil => simp [codes?]
  | cons c content ih =>
    rw [flatMap_cons, append_assoc, codes?_escape, ih]
    rfl

/- The codes of characters pair up by themselves. -/
theorem joinPairs?_toNat (content : List Char) :
    joinPairs? (content.map Char.toNat) = some content := by
  induction content with
  | nil => rfl
  | cons c content ih =>
    have hValid : c.toNat < 0xd800 ∨ 0xdfff < c.toNat := by
      rcases c.valid with hLow | ⟨hHigh, -⟩
      · exact .inl hLow
      · exact .inr hHigh
    have hHigh : isHigh c.toNat = false := by
      simp [isHigh]
      omega
    have hLow : isLow c.toNat = false := by
      simp [isLow]
      omega
    rw [map_cons, joinPairs?.eq_def]
    simp [hHigh, hLow, ih]

theorem quotedChars_text (content : String) :
    quotedChars (.text content) = '"' :: content.toList.flatMap escape ++ ['"'] :=
  rfl

theorem quotedChars_unpaired :
    quotedChars .unpaired = ['"', '\\', 'u', 'd', '8', '0', '0', '"'] := by
  decide

/- A quoted text is read back. -/
theorem quoted?_quotedChars (content : Quoted) (rest : List Char) :
    ∃ chars, quotedChars content ++ rest = '"' :: chars ∧ quoted? chars = some (content, rest) := by
  cases content with
  | text content =>
    refine ⟨content.toList.flatMap escape ++ '"' :: rest, ?_, ?_⟩
    · simp [quotedChars_text]
    · unfold quoted?
      rw [codes?_flatMap_escape]
      simp [joinPairs?_toNat]
  | unpaired =>
    refine ⟨'\\' :: 'u' :: (['d', '8', '0', '0'] ++ '"' :: rest), ?_, ?_⟩
    · rw [quotedChars_unpaired]
      rfl
    · unfold quoted?
      rfl

end Reader

------ Values

/- A value whose numbers are whole. -/
inductive Plain : Json → Prop
  | null : Plain .null
  | bool (value : Bool) : Plain (.bool value)
  | nat (n : Nat) : Plain (nat n)
  | string (content : Quoted) : Plain (.string content)
  | array {items : List Json} (hItems : ∀ item ∈ items, Plain item) : Plain (.array items)
  | object {members : List (Quoted × Json)} (hMembers : ∀ entry ∈ members, Plain entry.2) :
      Plain (.object members)

namespace Reader

@[simp] theorem skipSpace_newLine (depth : Nat) (chars : List Char) :
    skipSpace (newLine depth ++ chars) = skipSpace chars := by
  have hSpaces : ∀ c ∈ newLine depth, isSpace c = true := by
    intro c hMem
    simp only [newLine, mem_cons, mem_replicate] at hMem
    rcases hMem with rfl | ⟨-, rfl⟩ <;> rfl
  exact dropWhile_append_of_pos hSpaces

theorem skipSpace_cons (hToken : isSpace c = false) (chars : List Char) :
    skipSpace (c :: chars) = c :: chars := by
  simp [skipSpace, hToken]

@[simp] theorem skipSpace_skipSpace (chars : List Char) :
    skipSpace (skipSpace chars) = skipSpace chars :=
  dropWhile_idempotent _ _

theorem value?_skipSpace (fuel : Nat) (chars : List Char) :
    value? fuel (skipSpace chars) = value? fuel chars := by
  cases fuel with
  | zero => rfl
  | succ fuel => simp only [value?, skipSpace_skipSpace]

theorem value?_newLine (fuel depth : Nat) (chars : List Char) :
    value? fuel (newLine depth ++ chars) = value? fuel chars := by
  rw [← value?_skipSpace, skipSpace_newLine, value?_skipSpace]

theorem value?_blank (fuel : Nat) (chars : List Char) :
    value? fuel (' ' :: chars) = value? fuel chars := by
  have hSkip : skipSpace (' ' :: chars) = skipSpace chars := by simp [skipSpace, isSpace]
  rw [← value?_skipSpace, hSkip, value?_skipSpace]

theorem items?_newLine (fuel depth : Nat) (chars : List Char) :
    items? fuel (newLine depth ++ chars) = items? fuel chars := by
  cases fuel with
  | zero => rfl
  | succ fuel => simp only [items?, value?_newLine]

theorem members?_newLine (fuel depth : Nat) (chars : List Char) :
    members? fuel (newLine depth ++ chars) = members? fuel chars := by
  cases fuel with
  | zero => rfl
  | succ fuel => simp only [members?, skipSpace_newLine]

theorem value?_bracket (hBracket : skipSpace chars = ']' :: rest) : value? fuel chars = none := by
  cases fuel with
  | zero => rfl
  | succ fuel =>
    simp only [value?, hBracket]
    rfl

/- Items behind a bracket make an array. -/
theorem value?_of_items (hItems : items? fuel chars = some (items, rest)) :
    value? (fuel + 1) ('[' :: chars) = some (.array items, rest) := by
  have hOpen : skipSpace ('[' :: chars) = '[' :: chars := skipSpace_cons rfl chars
  have hSkip : items? fuel (skipSpace chars) = items? fuel chars := by
    cases fuel with
    | zero => rfl
    | succ fuel => simp only [items?, value?_skipSpace]
  simp only [value?, hOpen]
  split
  · rename_i hBracket
    cases fuel with
    | zero => simp [items?] at hItems
    | succ fuel => simp [items?, value?_bracket hBracket] at hItems
  · rw [hSkip, hItems]
    rfl

/- Members behind a brace make an object. -/
theorem value?_of_members (hMembers : members? fuel chars = some (members, rest)) :
    value? (fuel + 1) ('\x7b' :: chars) = some (.object members, rest) := by
  have hOpen : skipSpace ('\x7b' :: chars) = '\x7b' :: chars := skipSpace_cons rfl chars
  have hSkip : members? fuel (skipSpace chars) = members? fuel chars := by
    cases fuel with
    | zero => rfl
    | succ fuel => simp only [members?, skipSpace_skipSpace]
  simp only [value?, hOpen]
  split
  · rename_i hBrace
    cases fuel with
    | zero => simp [members?] at hMembers
    | succ fuel => simp [members?, hBrace] at hMembers
  · rw [hSkip, hMembers]
    rfl

/- A value is read back at every depth, whatever follows. -/
def ReadBack (json : Json) : Prop :=
  ∀ depth fuel rest, 2 * (json.prettyChars depth).length ≤ fuel → EndsNumber rest →
        value? fuel (json.prettyChars depth ++ rest) = some (json, rest)

theorem endsNumber_prettyItems (depth : Nat) (items : List Json) (rest : List Char) :
    EndsNumber (prettyItems depth items ++ rest) := by
  cases items <;>
    simp [EndsNumber, prettyItems, newLine]

theorem endsNumber_prettyMembers (depth : Nat) (members : List (Quoted × Json)) (rest : List Char) :
    EndsNumber (prettyMembers depth members ++ rest) := by
  cases members <;>
    simp [EndsNumber, prettyMembers, newLine]

theorem items?_prettyItems (hItem : ReadBack item) (hItems : ∀ other ∈ items, ReadBack other)
    (hFuel : 2 * ((item.prettyChars (depth + 1)).length +
      (prettyItems depth items).length) ≤ fuel) :
    items? fuel (item.prettyChars (depth + 1) ++ (prettyItems depth items ++ rest)) =
        some (item :: items, rest) := by
  induction items generalizing item fuel with
  | nil =>
    cases fuel with
    | zero => simp [prettyItems] at hFuel
    | succ fuel =>
      have hVal := hItem (depth + 1) fuel (prettyItems depth [] ++ rest)
        (by simp only [prettyItems, length_append, length_singleton] at hFuel
            omega)
        (endsNumber_prettyItems depth [] rest)
      have hClose : skipSpace (prettyItems depth [] ++ rest) = ']' :: rest := by
        simp [prettyItems, skipSpace_cons, isSpace]
      simp [items?, hVal, hClose]
  | cons other items ih =>
    cases fuel with
    | zero => simp [prettyItems] at hFuel
    | succ fuel =>
      have hLen : (prettyItems depth (other :: items)).length =
          1 + (newLine (depth + 1)).length + ((other.prettyChars (depth + 1)).length +
              (prettyItems depth items).length) := by
        simp only [prettyItems, length_cons, length_append]
        omega
      have hVal := hItem (depth + 1) fuel (prettyItems depth (other :: items) ++ rest)
        (by omega) (endsNumber_prettyItems depth _ rest)
      have hMore : items? fuel (other.prettyChars (depth + 1) ++
            (prettyItems depth items ++ rest)) = some (other :: items, rest) := by
        apply ih (hItems other mem_cons_self)
        · exact fun next hNext => hItems next (.tail other hNext)
        · omega
      have hComma : skipSpace (prettyItems depth (other :: items) ++ rest) =
          ',' :: (newLine (depth + 1) ++ (other.prettyChars (depth + 1) ++
              (prettyItems depth items ++ rest))) := by
        simp [prettyItems, skipSpace_cons, isSpace]
      simp [items?, hVal, hComma, items?_newLine, hMore]

theorem members?_prettyMembers (hVal : ReadBack val)
    (hMembers : ∀ entry ∈ members, ReadBack entry.2)
    (hFuel : 2 * ((val.prettyChars (depth + 1)).length +
      (prettyMembers depth members).length) ≤ fuel) :
    members? fuel (quotedChars name ++ ':' :: ' ' :: (val.prettyChars (depth + 1) ++
        (prettyMembers depth members ++ rest))) = some ((name, val) :: members, rest) := by
  induction members generalizing name val fuel with
  | nil =>
    cases fuel with
    | zero => simp [prettyMembers] at hFuel
    | succ fuel =>
      rcases quoted?_quotedChars name (':' :: ' ' :: (val.prettyChars (depth + 1) ++
          (prettyMembers depth [] ++ rest))) with
        ⟨chars, hChars, hQuoted⟩
      have hRead := hVal (depth + 1) fuel (prettyMembers depth [] ++ rest)
        (by simp only [prettyMembers, length_append, length_singleton] at hFuel
            omega)
        (endsNumber_prettyMembers depth [] rest)
      have hClose : skipSpace (prettyMembers depth [] ++ rest) = '\x7d' :: rest := by
        simp [prettyMembers, skipSpace_cons, isSpace]
      rw [hChars]
      simp [members?, skipSpace_cons, isSpace, hQuoted, value?_blank, hRead, hClose]
  | cons other members ih =>
    cases fuel with
    | zero => simp [prettyMembers] at hFuel
    | succ fuel =>
      have hLen : (prettyMembers depth (other :: members)).length =
            3 + (newLine (depth + 1)).length + (quotedChars other.1).length +
              ((other.2.prettyChars (depth + 1)).length +
                (prettyMembers depth members).length) := by
        simp only [prettyMembers, length_cons, length_append]
        omega
      rcases quoted?_quotedChars name (':' :: ' ' :: (val.prettyChars (depth + 1) ++
          (prettyMembers depth (other :: members) ++ rest))) with
        ⟨chars, hChars, hQuoted⟩
      have hRead := hVal (depth + 1) fuel (prettyMembers depth (other :: members) ++ rest)
        (by omega) (endsNumber_prettyMembers depth _ rest)
      have hMore : members? fuel (quotedChars other.1 ++ ':' :: ' ' ::
            (other.2.prettyChars (depth + 1) ++ (prettyMembers depth members ++ rest))) =
                some (other :: members, rest) := by
        apply ih (hMembers other mem_cons_self)
        · exact fun next hNext => hMembers next (.tail other hNext)
        · omega
      have hComma : skipSpace (prettyMembers depth (other :: members) ++ rest) =
          ',' :: (newLine (depth + 1) ++ (quotedChars other.1 ++ ':' :: ' ' ::
              (other.2.prettyChars (depth + 1) ++ (prettyMembers depth members ++ rest)))) := by
        simp [prettyMembers, skipSpace_cons, isSpace]
      rw [hChars]
      simp [members?, skipSpace_cons, isSpace, hQuoted,
        value?_blank, hRead, hComma, members?_newLine, hMore]

/- A digit starts a number and no other value. -/
theorem value?_of_digit (hDigit : c.isDigit = true)
    (hNum : number? (c :: chars) = some (spelling, rest)) :
    value? (fuel + 1) (c :: chars) = some (.number spelling, rest) := by
  have hSpace : isSpace c = false := by
    by_contra hBlank
    simp only [isSpace, Bool.or_eq_true, beq_iff_eq, Bool.not_eq_false] at hBlank
    rcases hBlank with ((rfl | rfl) | rfl) | rfl <;>
      exact absurd hDigit (by decide)
  simp only [value?, skipSpace_cons hSpace]
  split
  case h_7 => simp [hNum]
  all_goals
    rename_i hChars
    injection hChars with hFirst
    subst hFirst
    exact absurd hDigit (by decide)

/- Whatever is written is read back. -/
theorem readBack_of_plain (hPlain : Plain json) : ReadBack json := by
  induction hPlain with
  | null =>
    intro depth fuel rest hFuel hRest
    cases fuel with
    | zero => simp [prettyChars] at hFuel
    | succ fuel => rfl
  | bool val =>
    intro depth fuel rest hFuel hRest
    cases fuel with
    | zero => cases val <;> simp [prettyChars] at hFuel
    | succ fuel => cases val <;> rfl
  | nat n =>
    intro depth fuel rest hFuel hRest
    have hNum := number?_toDigits n hRest
    simp only [Json.nat, prettyChars] at hFuel ⊢
    cases hChars : Nat.toDigits 10 n with
    | nil => exact absurd hChars Nat.toDigits_ne_nil
    | cons c digits =>
      have hDigit : c.isDigit = true := by
        apply Nat.isDigit_of_mem_toDigits (b := 10) (n := n) (by decide) (by decide)
        simp [hChars]
      rw [hChars] at hFuel hNum
      cases fuel with
      | zero => simp at hFuel
      | succ fuel => exact value?_of_digit hDigit hNum
  | string content =>
    intro depth fuel rest hFuel hRest
    rcases quoted?_quotedChars content rest with ⟨chars, hChars, hQuoted⟩
    simp only [prettyChars] at hFuel ⊢
    rw [hChars]
    cases fuel with
    | zero =>
      cases content with
      | text content => simp [quotedChars_text] at hFuel
      | unpaired => simp [quotedChars_unpaired] at hFuel
    | succ fuel =>
      have hQuote : skipSpace ('"' :: chars) = '"' :: chars := skipSpace_cons rfl chars
      simp [value?, hQuote, hQuoted]
  | @array items hItems ih =>
    intro depth fuel rest hFuel hRest
    cases fuel with
    | zero => cases items <;> simp [prettyChars] at hFuel
    | succ fuel =>
      cases items with
      | nil => rfl
      | cons item items =>
        simp only [prettyChars, cons_append, append_assoc]
        apply value?_of_items
        rw [items?_newLine]
        apply items?_prettyItems (ih item mem_cons_self)
        · exact fun other hOther => ih other (.tail item hOther)
        · simp only [prettyChars, length_cons, length_append] at hFuel
          omega
  | @object members hMembers ih =>
    intro depth fuel rest hFuel hRest
    cases fuel with
    | zero => cases members <;> simp [prettyChars] at hFuel
    | succ fuel =>
      cases members with
      | nil => rfl
      | cons entry members =>
        simp only [prettyChars, cons_append, append_assoc]
        apply value?_of_members
        rw [members?_newLine]
        apply members?_prettyMembers (ih entry mem_cons_self)
        · exact fun other hOther => ih other (.tail entry hOther)
        · simp only [prettyChars, length_cons, length_append] at hFuel
          omega

end Reader

/- A written value is the value of its text. -/
theorem parse?_pretty (hPlain : Plain json) : parse? json.pretty = some json := by
  have hChars : json.pretty.toList = json.prettyChars 0 := String.toList_ofList
  have hEnds : Reader.EndsNumber [] := by
    intro digit hDigit
    cases hDigit
  have hVal := Reader.readBack_of_plain hPlain 0 (2 * (json.prettyChars 0).length + 2) []
    (Nat.le_add_right _ 2) hEnds
  rw [append_nil] at hVal
  rw [parse?, hChars, hVal]
  rfl

end Json

end Algol68
