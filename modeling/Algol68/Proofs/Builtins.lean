import Algol68.Builtin.Apply
import Mathlib.Data.List.Forall2

/-
  Builtins on operands of their own categories.

  A builtin other than `random` gives a value of its result's category, or fails for a reason that
  lies in the values: it never finds fault with the operands themselves.
-/

------ Results of a Category

namespace Algol68

namespace Builtin

/- A result of a category, or a failure that is not about the categories of the operands. -/
def Fits (prim : Prim) : Applied Value → Prop
  | .ok value => value.prim = prim
  | .error failure => failure ≠ .invalidOperands

variable {ops : List Value} {builtin : Builtin}

/- A value of a category. -/
def IsOf : Prim → Value → Prop
  | .int, val => ∃ n, val = .int n
  | .real, val => ∃ x, val = .real x
  | .bool, val => ∃ b, val = .bool b
  | .char, val => ∃ c, val = .char c
  | .bits, val => ∃ word, val = .bits word
  | .complex, val => ∃ re im, val = .complex re im

theorem isOf_of_map (hOps : ops.map Value.prim = prims) : List.Forall₂ IsOf prims ops := by
  subst hOps
  induction ops with
  | nil => exact .nil
  | cons first rest ih =>
    refine .cons ?_ ih
    cases first with
    | int | real | bool | char | bits => exact ⟨_, rfl⟩
    | complex => exact ⟨_, _, rfl⟩

theorem fit_fits (n : Int) : Fits .int (fit n) := by
  unfold fit
  split
  · exact rfl
  · simp [Fits]

theorem fitPower_fits (base : Int) (exponent : Nat) : Fits .int (fitPower base exponent) := by
  unfold fitPower
  split
  · exact fit_fits _
  · split
    · simp [Fits]
    · exact fit_fits _

theorem intOfReal_fits (x : Float) : Fits .int (intOfReal x) := by
  unfold intOfReal
  split
  · exact rfl
  · simp [Fits]

------ Application

/- A result unless the operands are out of range. -/
theorem guard_fits {fails : Prop} [Decidable fails] (hReason : reason ≠ .invalidOperands)
    (hRes : Fits prim res) : Fits prim (if fails then .error reason else res) := by
  split
  · exact hReason
  · exact hRes

/- Reading a divisor that must not be zero. -/
theorem divisorAt_bind (dividend : Value) (hRest : Fits prim (rest divisor)) :
    Fits prim (divisorAt [dividend, .int divisor] >>= rest) := by
  have hDivisor : divisorAt [dividend, .int divisor] =
      if divisor.toInt = 0 then .error .divisionByZero else .ok divisor := rfl
  rw [hDivisor]
  split
  · exact BuiltinFailure.noConfusion
  · exact hRest

/- Every builtin but `random` gives a result of its category on operands of its categories. -/
theorem applyTo_fits (hConst : builtin.isConstant = true)
    (hOps : ops.map Value.prim = builtin.signature.params) :
    Fits builtin.signature.result (builtin.applyTo ops) := by
  have hVals := isOf_of_map hOps
  cases builtin with
  | intAdd | intSub | intMul =>
    rcases hVals with _ | ⟨⟨left, rfl⟩, _ | ⟨⟨right, rfl⟩, ⟨⟩⟩⟩
    exact fit_fits _
  | intOver =>
    rcases hVals with _ | ⟨⟨dividend, rfl⟩, _ | ⟨⟨divisor, rfl⟩, ⟨⟩⟩⟩
    exact divisorAt_bind _ (fit_fits _)
  | intMod =>
    rcases hVals with _ | ⟨⟨dividend, rfl⟩, _ | ⟨⟨divisor, rfl⟩, ⟨⟩⟩⟩
    exact divisorAt_bind _ (guard_fits BuiltinFailure.noConfusion (fit_fits _))
  | intDiv =>
    rcases hVals with _ | ⟨⟨dividend, rfl⟩, _ | ⟨⟨divisor, rfl⟩, ⟨⟩⟩⟩
    exact divisorAt_bind _ rfl
  | intPow =>
    rcases hVals with _ | ⟨⟨base, rfl⟩, _ | ⟨⟨exponent, rfl⟩, ⟨⟩⟩⟩
    exact guard_fits BuiltinFailure.noConfusion (fitPower_fits _ _)
  | realPow | realDiv =>
    rcases hVals with _ | ⟨⟨left, rfl⟩, _ | ⟨⟨right, rfl⟩, ⟨⟩⟩⟩
    exact guard_fits BuiltinFailure.noConfusion rfl
  | intEq | intNe | intLt | intLe | intGt | intGe | realAdd | realSub | realMul | realEq | realNe
  | realLt | realLe | realGt | realGe | boolAnd | boolOr | boolEq | boolNe | charEq | charNe
  | charLt | charGt | bitsAnd | bitsOr | bitsEq | bitsNe | complexI =>
    rcases hVals with _ | ⟨⟨left, rfl⟩, _ | ⟨⟨right, rfl⟩, ⟨⟩⟩⟩
    exact rfl
  | complexAdd | complexSub | complexMul =>
    rcases hVals with _ | ⟨⟨_, _, rfl⟩, _ | ⟨⟨_, _, rfl⟩, ⟨⟩⟩⟩
    exact rfl
  | sqrt | ln | charRepr =>
    rcases hVals with _ | ⟨⟨op, rfl⟩, ⟨⟩⟩
    exact guard_fits BuiltinFailure.noConfusion rfl
  | intNeg | intAbs =>
    rcases hVals with _ | ⟨⟨n, rfl⟩, ⟨⟩⟩
    exact fit_fits _
  | entier | round =>
    rcases hVals with _ | ⟨⟨x, rfl⟩, ⟨⟩⟩
    exact intOfReal_fits _
  | intPlus | intSign | intOdd | realSign | realNeg | realAbs | exp | sin | cos | tan | arctan
  | boolNot | charAbs | bitsNot =>
    rcases hVals with _ | ⟨⟨op, rfl⟩, ⟨⟩⟩
    exact rfl
  | re | im =>
    rcases hVals with _ | ⟨⟨_, _, rfl⟩, ⟨⟩⟩
    exact rfl
  | pi | maxInt | maxReal | minReal | smallReal => exact rfl
  | random => simp [isConstant] at hConst

/- The same with the error that a failure becomes. -/
theorem apply_fits (hConst : builtin.isConstant = true)
    (hOps : ops.map Value.prim = builtin.signature.params) :
    (∃ val, builtin.apply ops = .ok val ∧ val.prim = builtin.signature.result) ∨
      ∃ error, builtin.apply ops = .error error ∧ error.failure ≠ .invalidOperands := by
  have hFits := applyTo_fits hConst hOps
  unfold apply
  cases hRes : builtin.applyTo ops with
  | ok val =>
    rw [hRes] at hFits
    exact .inl ⟨val, rfl, hFits⟩
  | error failure =>
    rw [hRes] at hFits
    exact .inr ⟨⟨failure, builtin⟩, rfl, hFits⟩

end Builtin

end Algol68
