import Mathlib.Data.Int.Lemmas
import Mathlib.Algebra.Order.Ring.Int
import Mathlib.Algebra.Order.Group.Unbundled.Int
import Algol68.Builtin.Apply

/-
  Integer builtins against exact integers.

  A result that fits a word is given as it is, and any other
  is an overflow. The remainder of the least integer by -1 is
  the one exception: it is 0, and an overflow is reported.

  Main declarations:
    * `Builtin.integers_exact`
-/

------ Exact Results

namespace Algol68

namespace Builtin

/- A word of 64 bits can hold the integer. -/
abbrev IsWord (n : Int) : Prop := leastInt ≤ n ∧ n ≤ greatestInt

/- The builtin gives an integer if a word can hold it, and otherwise reports an overflow. -/
def Computes (builtin : Builtin) (operands : List Int64) (n : Int) : Prop :=
  (IsWord n → ∃ word : Int64, word.toInt = n ∧
    builtin.apply (operands.map .int) = .ok (.int word)) ∧
  (¬ IsWord n → builtin.apply (operands.map .int) = .error ⟨.intOverflow, builtin⟩)

/- The quotient that is cut off toward zero: what is left has the sign of the dividend. -/
def IsQuotient (dividend divisor quotient : Int) : Prop :=
  ∃ rest, dividend = divisor * quotient + rest ∧ |rest| < |divisor| ∧ 0 ≤ rest * dividend

/- The remainder between zero and the divisor. -/
def IsRemainder (dividend divisor rest : Int) : Prop :=
  0 ≤ rest ∧ rest < |divisor| ∧ divisor ∣ dividend - rest

variable {builtin : Builtin} {operands : List Int64} {n : Int}

theorem toInt_ofInt_of_isWord (hWord : IsWord n) : (Int64.ofInt n).toInt = n := by
  simp only [IsWord, leastInt] at hWord
  exact Int64.toInt_ofInt_of_le (by simpa using hWord.1)
    (by simpa using Int.lt_of_le_sub_one hWord.2)

theorem isWord_toInt (n : Int64) : IsWord n.toInt := by
  have hLeast := n.le_toInt
  have hGreatest := n.toInt_lt
  simp only [IsWord, leastInt, greatestInt, Int.pow_eq]
  omega

theorem fit_eq_ok (hWord : IsWord n) : fit n = .ok (.int (Int64.ofInt n)) := if_pos hWord

theorem fit_eq_error (hWord : ¬ IsWord n) : fit n = .error .intOverflow := if_neg hWord

/- A result that is fitted into a word is exact. -/
theorem computes_of_fit (hApplied : builtin.applyTo (operands.map .int) = fit n) :
    builtin.Computes operands n := by
  unfold Computes apply
  rw [hApplied]
  constructor
  · intro hWord
    rw [fit_eq_ok hWord]
    exact ⟨_, toInt_ofInt_of_isWord hWord, rfl⟩
  · intro hWord
    rw [fit_eq_error hWord]

------ Powers

/- No power of a base of magnitude two from the exponent 64 on is a word. -/
theorem not_isWord_pow (hBase : 1 < base.natAbs)
    (hExp : 64 ≤ exponent) : ¬ IsWord (base ^ exponent) := by
  have hLarge : 2 ^ 64 ≤ (base ^ exponent).natAbs := by
    rw [Int.natAbs_pow]
    calc 2 ^ 64 ≤ 2 ^ exponent := Nat.pow_le_pow_right (by omega) hExp
      _ ≤ base.natAbs ^ exponent := Nat.pow_le_pow_left hBase exponent
  simp only [IsWord, leastInt, greatestInt]
  intro hWord
  simp at hWord
  omega

/- Powers of a base of magnitude one at most repeat after two. -/
theorem pow_eq_of_natAbs_le_one {base : Int} (exponent : Nat) (hBase : base.natAbs ≤ 1) :
    base ^ (if exponent = 0 then 0 else 2 - exponent % 2) = base ^ exponent := by
  have hCases : base = 0 ∨ base = 1 ∨ base = -1 := by omega
  by_cases hZero : exponent = 0
  · simp [hZero]
  · rw [if_neg hZero]
    rcases hCases with rfl | rfl | rfl
    · rw [zero_pow hZero, zero_pow (by omega)]
    · simp
    · rcases Nat.mod_two_eq_zero_or_one exponent with hEven | hOdd
      · rw [hEven, (Nat.even_iff.mpr hEven).neg_one_pow]
        rfl
      · rw [hOdd, (Nat.odd_iff.mpr hOdd).neg_one_pow]
        rfl

/- The shortcuts of powers change no result. -/
theorem fitPower_eq (base : Int) (exponent : Nat) :
    fitPower base exponent = fit (base ^ exponent) := by
  unfold fitPower
  split
  · rename_i hBase
    exact congrArg fit (pow_eq_of_natAbs_le_one exponent hBase)
  · rename_i hBase
    split
    · rename_i hExp
      exact (fit_eq_error (not_isWord_pow (by omega) hExp)).symm
    · rfl

------ Quotients and Remainders

variable {dividend divisor : Int}

/- Division that truncates gives the quotient. -/
theorem isQuotient_tdiv (hDivisor : divisor ≠ 0) :
    IsQuotient dividend divisor (dividend.tdiv divisor) := by
  refine ⟨dividend.tmod divisor, (Int.mul_tdiv_add_tmod dividend divisor).symm, ?_, ?_⟩
  · have hRest := Int.natAbs_tmod dividend divisor
    have hLess := Nat.mod_lt dividend.natAbs (Int.natAbs_pos.mpr hDivisor)
    rw [Int.abs_eq_natAbs, Int.abs_eq_natAbs]
    omega
  · rcases le_total 0 dividend with hSign | hSign
    · exact mul_nonneg (Int.tmod_nonneg divisor hSign) hSign
    · refine mul_nonneg_of_nonpos_of_nonpos ?_ hSign
      have hRest := Int.tmod_nonneg divisor (Int.neg_nonneg.mpr hSign)
      rw [Int.neg_tmod] at hRest
      omega

theorem isRemainder_iff (hDivisor : divisor ≠ 0) :
    IsRemainder dividend divisor rest ↔ rest = dividend % divisor := by
  constructor
  · rintro ⟨hLeast, hLess, hDivides⟩
    rw [Int.emod_eq_emod_iff_emod_sub_eq_zero.mpr (Int.emod_eq_zero_of_dvd hDivides),
      ← Int.emod_abs, Int.emod_eq_of_lt hLeast hLess]
  · rintro rfl
    exact ⟨Int.emod_nonneg dividend hDivisor, Int.emod_lt_abs dividend hDivisor,
      Int.dvd_self_sub_emod⟩

------ Integer Builtins

variable {left right : Int64}

theorem applyTo_intPow (hLeast : 0 ≤ right.toInt) (hLess : right.toInt < 2 ^ 32) :
    applyTo .intPow [.int left, .int right] = fit (left.toInt ^ right.toInt.toNat) := by
  have hRange : ¬ (right.toInt < 0 ∨ Int.pow 2 32 ≤ right.toInt) := by
    simp only [Int.pow_eq]
    omega
  rw [← fitPower_eq]
  exact if_neg hRange

/- The integer builtins are exact. A remainder is not asked of the least integer by -1. -/
theorem integers_exact (left right : Int64) :
    Computes .intAdd [left, right] (left.toInt + right.toInt) ∧
    Computes .intSub [left, right] (left.toInt - right.toInt) ∧
    Computes .intMul [left, right] (left.toInt * right.toInt) ∧
    Computes .intNeg [left] (-left.toInt) ∧
    Computes .intAbs [left] |left.toInt| ∧
    (right.toInt ≠ 0 →
      (∃ quotient, IsQuotient left.toInt right.toInt quotient ∧
        Computes .intOver [left, right] quotient) ∧
      (¬ (left.toInt = leastInt ∧ right.toInt = -1) →
        ∃ rest, (∀ other, IsRemainder left.toInt right.toInt other ↔ other = rest) ∧
          Computes .intMod [left, right] rest)) ∧
    (right.toInt = 0 → ∀ builtin : Builtin, builtin = .intOver ∨ builtin = .intMod →
      builtin.apply [.int left, .int right] = .error ⟨.divisionByZero, builtin⟩) ∧
    (0 ≤ right.toInt → right.toInt < 2 ^ 32 →
      Computes .intPow [left, right] (left.toInt ^ right.toInt.toNat)) := by
  refine ⟨computes_of_fit rfl, computes_of_fit rfl, computes_of_fit rfl, computes_of_fit rfl,
    ?_, ?_, ?_, ?_⟩
  · rw [Int.abs_eq_natAbs]
    exact computes_of_fit rfl
  · intro hRight
    have hDivisor : divisorAt [.int left, .int right] = .ok right := if_neg hRight
    refine ⟨⟨_, isQuotient_tdiv hRight, computes_of_fit ?_⟩, ?_⟩
    · exact congrArg (· >>= _) hDivisor
    · intro hLeast
      refine ⟨_, fun _ => isRemainder_iff hRight, computes_of_fit ?_⟩
      exact (congrArg (· >>= _) hDivisor).trans (if_neg hLeast)
  · intro hRight builtin hBuiltin
    have hDivisor : divisorAt [.int left, .int right] = .error .divisionByZero := if_pos hRight
    have hApplied : builtin.applyTo [.int left, .int right] = .error .divisionByZero := by
      rcases hBuiltin with rfl | rfl <;> exact congrArg (· >>= _) hDivisor
    rw [apply, hApplied]
  · intro hLeast hLess
    exact computes_of_fit (applyTo_intPow hLeast hLess)

theorem remainder_lost :
    ¬ ∃ rest, IsRemainder Int64.minValue.toInt (Int64.toInt (-1)) rest ∧
      Computes .intMod [Int64.minValue, -1] rest := by
  rintro ⟨rest, hRest, hComputes, -⟩
  have hZero : rest = 0 := (isRemainder_iff (by decide)).mp hRest
  rcases hComputes (by rw [hZero]; decide) with ⟨word, -, hApplied⟩
  exact nomatch hApplied

end Builtin

end Algol68
