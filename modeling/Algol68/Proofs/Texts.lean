import Algol68.Decimal.Numeral
import Algol68.Inline.Parts
import Mathlib.Data.List.Basic
import Mathlib.Data.Nat.Digits.Defs

/- Texts that can be taken apart again. -/

------ Separators

namespace Algol68

namespace Text

/- The last separator of a text takes it apart in one way. -/
theorem split_at_last (hTail : separator ∉ tail) (hOther : separator ∉ other)
    (hSame : first ++ separator :: tail = second ++ separator :: other) :
    first = second ∧ tail = other := by
  rcases List.append_eq_append_iff.mp hSame with ⟨rest, hSecond, hRest⟩ | ⟨rest, hFirst, hRest⟩
  · cases rest with
    | nil =>
      simp only [List.append_nil] at hSecond
      simp only [List.nil_append, List.cons.injEq] at hRest
      exact ⟨hSecond.symm, hRest.2⟩
    | cons head rest =>
      simp only [List.cons_append, List.cons.injEq] at hRest
      exact absurd (by simp [hRest.2]) hTail
  · cases rest with
    | nil =>
      simp only [List.append_nil] at hFirst
      simp only [List.nil_append, List.cons.injEq] at hRest
      exact ⟨hFirst, hRest.2.symm⟩
    | cons head rest =>
      simp only [List.cons_append, List.cons.injEq] at hRest
      exact absurd (by simp [hRest.2]) hOther

theorem split_at_first (hFirst : separator ∉ first) (hSecond : separator ∉ second)
    (hSame : first ++ separator :: tail = second ++ separator :: other) :
    first = second ∧ tail = other := by
  have hReverse := congrArg List.reverse hSame
  simp only [List.reverse_append, List.reverse_cons, List.append_assoc] at hReverse
  have hParts := split_at_last (by simpa using hFirst) (by simpa using hSecond) hReverse
  exact ⟨List.reverse_inj.mp hParts.2, List.reverse_inj.mp hParts.1⟩

theorem isDigit_of_mem_toString {n : Nat} (hMem : c ∈ (toString n).toList) : c.isDigit = true := by
  rw [Nat.toString_eq_repr, Nat.toList_repr] at hMem
  exact Nat.isDigit_of_mem_toDigits (by decide) (by decide) hMem

theorem toString_inj {right : Nat} (hText : toString left = toString right) : left = right := by
  have hDigits := congrArg String.toList hText
  have hNumbers := congrArg (Nat.ofDigitChars 10 · 0) hDigits
  simpa using hNumbers

end Text

namespace Handle

variable {entity : Type}

theorem isDigit_of_mem_text {handle : Handle entity} (hMem : c ∈ handle.text.toList) :
    c.isDigit = true :=
  Text.isDigit_of_mem_toString hMem

theorem text_injective : Function.Injective (text : Handle entity → String) :=
  fun _ _ hText => ext (Text.toString_inj hText)

end Handle

/- Addresses of different tags are booked under different names. -/
theorem Inline.bookingName_inj (hName : bookingName left first = bookingName right second) :
    first.name = second.name ∧ left = right := by
  have hPlain : ∀ tag : TagId, '#' ∉ tag.text.toList := by
    intro tag hMem
    exact absurd (Handle.isDigit_of_mem_text hMem) (by decide)
  have hLists := congrArg String.toList hName
  simp only [bookingName, String.toList_append, List.append_assoc] at hLists
  rcases Text.split_at_last (hPlain left) (hPlain right) hLists with ⟨hFirst, hSecond⟩
  exact ⟨String.toList_inj.mp hFirst, Handle.text_injective (String.toList_inj.mp hSecond)⟩

------ Digits

namespace Decimal

/- The last digit of a numeral counts once. -/
theorem natFrom?_append_digit (radix number : Nat) (digits : List Char) (c : Char) :
    natFrom? radix number (digits ++ [c]) = (natFrom? radix number digits).bind fun front =>
        (digitValue? radix c).map (front * radix + ·) := by
  induction digits generalizing number with
  | nil =>
    cases hDigit : digitValue? radix c <;>
      simp [natFrom?, hDigit]
  | cons first digits ih =>
    simp only [List.cons_append, natFrom?, ih]
    cases digitValue? radix first <;> rfl

theorem digitValue?_digitChar (hRadix : radix ≤ 16) (hDigit : n < radix) :
    digitValue? radix (Nat.digitChar n) = some n := by
  have hAll : ∀ radix ≤ 16, ∀ n < radix, digitValue? radix (Nat.digitChar n) = some n := by decide
  exact hAll radix hRadix n hDigit

/- A number is read from the digits written for it. -/
theorem natFrom?_toDigits (hBase : 1 < radix) (hRadix : radix ≤ 16) (n : Nat) :
    natFrom? radix 0 (Nat.toDigits radix n) = some n := by
  induction n using Nat.strongRecOn with
  | ind n ih =>
    by_cases hSmall : n < radix
    · rw [Nat.toDigits_of_lt_base hSmall]
      simp [natFrom?, digitValue?_digitChar hRadix hSmall]
    · have hLess : n / radix < n := Nat.div_lt_self (by omega) hBase
      have hLast : n % radix < radix := Nat.mod_lt n (by omega)
      rw [Nat.toDigits_of_base_le hBase (Nat.le_of_not_lt hSmall), natFrom?_append_digit,
        ih (n / radix) hLess, digitValue?_digitChar hRadix hLast]
      exact congrArg some (Nat.div_add_mod' n radix)

theorem natFrom?_zeros (count : Nat) (digits : List Char) :
    natFrom? 16 0 (List.replicate count '0' ++ digits) = natFrom? 16 0 digits := by
  induction count with
  | zero => rfl
  | succ count ih => exact ih

theorem natOfDigits?_toDigits (hBase : 1 < radix) (hRadix : radix ≤ 16) (n : Nat) :
    natOfDigits? radix (Nat.toDigits radix n) = some n := by
  have hSome : (Nat.toDigits radix n).isEmpty = false := by simp
  simp [natOfDigits?, natFrom?_toDigits hBase hRadix n]

end Decimal

end Algol68
