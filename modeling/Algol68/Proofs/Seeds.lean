import Mathlib
import Algol68.Proofs.Folding

/-
  The random numbers of the machine.

  The step from a seed to the next one loses nothing, so a seed that is not zero never becomes
  zero, whatever is asked of the machine. A drawn number is a whole number over two to the power of
  53: both the conversion and the division are exact.

  Main declarations:
    * `Machine.draws_never_degenerate`
-/

------ Seeds

open Function

namespace Algol68

namespace Machine

/- A word can be told from its sum with a linear image of it, if only zero is its own image. -/
theorem xor_injective {image : UInt64 → UInt64}
    (hXor : ∀ left right, image (left ^^^ right) = image left ^^^ image right)
    (hFixed : ∀ word, image word = word → word = 0) :
    Injective fun word => word ^^^ image word := by
  intro left right hSame
  have hZero : (left ^^^ image left) ^^^ (right ^^^ image right) = 0 :=
    UInt64.xor_eq_zero_iff.mpr hSame
  rw [← UInt64.xor_eq_zero_iff]
  apply hFixed
  rw [hXor, ← UInt64.xor_eq_zero_iff, ← hZero]
  ac_rfl

/- Five shifts to the left by more than a fifth of a word leave nothing of it. -/
theorem eq_zero_of_shiftLeft {word : UInt64} (hCount : 64 ≤ 5 * (count.toNat % 64))
    (hWord : word <<< count = word) : word = 0 := by
  have hBits : word.toBitVec <<< (count.toNat % 64) = word.toBitVec := by
    simpa using congrArg UInt64.toBitVec hWord
  generalize count.toNat % 64 = shift at hCount hBits
  have hAgain : word.toBitVec <<< (shift + shift + shift + shift + shift) = word.toBitVec := by
    simp only [BitVec.shiftLeft_add, hBits]
  rw [← UInt64.toBitVec_inj, ← hAgain]
  exact BitVec.shiftLeft_eq_zero (by omega)

theorem nextSeed_injective : Injective nextSeed := by
  have hLeft : ∀ count : UInt64, 64 ≤ 5 * (count.toNat % 64) →
      Injective fun word => word ^^^ (word <<< count) := fun count hCount =>
    xor_injective (fun _ _ => UInt64.shiftLeft_xor) fun _ => eq_zero_of_shiftLeft hCount
  have hRight : Injective fun word : UInt64 => word ^^^ (word >>> 7) := by
    refine xor_injective (fun _ _ => UInt64.shiftRight_xor) ?_
    intro word hWord
    rw [← UInt64.toNat_inj] at hWord ⊢
    simp at hWord
    simp; omega
  exact (hLeft 17 (by decide)).comp (hRight.comp (hLeft 13 (by decide)))

theorem nextSeed_bijective : Bijective nextSeed := by
  have hFinite : Finite UInt64 := .of_injective UInt64.toFin fun _ _ => UInt64.toFin_inj.mp
  exact Finite.injective_iff_bijective.mp nextSeed_injective

/- Zero follows zero only. -/
theorem iterate_ne_zero {seed : UInt64} (hSeed : seed ≠ 0) (count : Nat) :
    nextSeed^[count] seed ≠ 0 := by
  have hZero : nextSeed^[count] 0 = 0 := iterate_fixed rfl count
  rw [← hZero]
  exact (nextSeed_injective.iterate count).ne hSeed

end Machine

------ Exact Arithmetic

namespace Decimal

open Float.Model Float.Model.UnpackedFloat

/- The number that a real stands for. -/
def ratio? (real : Float) : Option ℚ :=
  match real.toModel.unpack with
  | .zero _ => some 0
  | .finite sign mantissa exponent _ => some (sign.apply mantissa * 2 ^ exponent)
  | _ => none

theorem shift_exact (mantissa count : Nat) :
    (⟨mantissa * 2 ^ count, false, false⟩ : ExtendedMantissa) >>> count =
      ⟨mantissa, false, false⟩ := by
  change count.repeat _ _ = _
  induction count generalizing mantissa with
  | zero => simp [Nat.repeat]
  | succ count ih =>
    rw [Nat.repeat, Nat.pow_succ', ← Nat.mul_assoc, ih]
    simp [ExtendedMantissa.shiftRightOne]

section Normal

variable {mantissa : Nat} {exponent : Int} (hLow : 2 ^ 52 ≤ mantissa) (hHigh : mantissa < 2 ^ 53)
variable (hLeast : -1074 ≤ exponent)

include hLow hHigh

theorem log2_eq (count : Nat) : (mantissa * 2 ^ count).log2 = 52 + count := by
  rw [Nat.log2_eq_iff (Nat.mul_ne_zero (by omega) (by positivity))]
  constructor
  · rw [Nat.pow_add]
    gcongr
  · rw [Nat.add_right_comm, Nat.pow_add]
    gcongr

include hLeast

/- A significand of full length is kept when no bit that is set is lost. -/
theorem round_exact (hPos : 0 < mantissa) (count : Nat) :
    roundWithAccuracy .binary64 .positive (mantissa * 2 ^ count) (exponent - count) .exact =
      .finite .positive mantissa exponent hPos := by
  have hTarget : ∀ more : Nat, Format.binary64.targetExponent
      (totalExponent (mantissa * 2 ^ more) (exponent - more)) = exponent := by
    simp only [Format.targetExponent, totalExponent, log2_eq hLow hHigh, Format.mantissaBits,
      Format.minExponent]
    omega
  have hKept := hTarget 0
  rw [Nat.pow_zero, Nat.mul_one, Nat.cast_zero, Int.sub_zero] at hKept
  simp [roundWithAccuracy, shiftToTargetExponent, shiftToExponent, hTarget, hKept,
    ExtendedMantissa.ofMantissaAndAccuracy, shift_exact, ExtendedMantissa.roundedMantissa,
    ExtendedMantissa.accuracy, Accuracy.roundToNearestEven]
  exact dif_neg hPos.ne'

theorem unpack_pack (hMost : exponent ≤ 971) (hPos : 0 < mantissa) :
    UnpackedFloat.unpack .binary64 (UnpackedFloat.pack .binary64
        (.finite .positive mantissa exponent hPos)) =
      .finite .positive mantissa exponent hPos := by
  have hLog : mantissa.log2 = 52 := by simpa using log2_eq hLow hHigh 0
  rcases Int.eq_ofNat_of_zero_le (show 0 ≤ exponent + 1075 by omega) with ⟨biased, hBiased⟩
  have hNum : (exponent + 1023 + 52).toNat = biased := by omega
  have hBits : ((1#1) ++ BitVec.ofNat 52 mantissa).toNat = mantissa := by
    rw [BitVec.toNat_append, BitVec.toNat_ofNat, ← Nat.shiftLeft_add_eq_or_of_lt (by omega)]
    simp
    omega
  have hNormal : BitVec.ofNat 11 biased ≠ 2047#11 ∧ BitVec.ofNat 11 biased ≠ 0#11 := by
    simp [← BitVec.toNat_inj]
    omega
  have hExp : (biased : Int) % 2048 - 1075 = exponent := by omega
  have hFits : ¬ 2047 ≤ biased := by omega
  simp [UnpackedFloat.pack, hLog, Format.mantissaBits, Format.exponentBias, hNum,
    UnpackedFloat.unpack, hFits, Sign.toBitVec, hNormal, hBits, hExp, Sign.ofBitVec]

end Normal

/- A number of at most 53 bits is converted as it is. -/
theorem ofNat_eq (hPos : 0 < number) (hBound : number < 2 ^ 53) : ∃ mantissa exponent hMantissa,
      UnpackedFloat.ofNat .binary64 number = .finite .positive mantissa exponent hMantissa ∧
        2 ^ 52 ≤ mantissa ∧ mantissa < 2 ^ 53 ∧ -52 ≤ exponent ∧ exponent ≤ 0 ∧
        (mantissa : ℚ) * 2 ^ exponent = number := by
  rcases (Nat.log2_eq_iff hPos.ne').mp rfl with ⟨hLeast, hMost⟩
  have hLog : number.log2 ≤ 52 := Nat.lt_succ_iff.mp ((Nat.log2_lt hPos.ne').mpr hBound)
  rcases Nat.exists_eq_add_of_le hLog with ⟨shift, hShift⟩
  have hLow : 2 ^ 52 ≤ number * 2 ^ shift := by
    rw [hShift, Nat.pow_add]
    gcongr
  have hHigh : number * 2 ^ shift < 2 ^ 53 := by
    rw [show 53 = number.log2 + 1 + shift by omega, Nat.pow_add]
    gcongr
  have hRound := @round_exact _ (-shift) hLow hHigh (by omega) (by omega) 0
  refine ⟨_, _, _, Eq.trans ?_ hRound, hLow, hHigh, by omega, by omega, ?_⟩
  · have hTarget : Format.binary64.targetExponent (totalExponent number 0) = -shift := by
      simp only [Format.targetExponent, totalExponent, Format.mantissaBits, Format.minExponent]
      omega
    have hPlus : compare (number : Int) 0 = .gt := by
      rw [compare_gt_iff_gt]
      omega
    simp [UnpackedFloat.ofNat, UnpackedFloat.ofInt, UnpackedFloat.normalize, hPlus,
      UnpackedFloat.round, hTarget, decreaseExponent, Nat.shiftLeft_eq]
  · push_cast
    rw [mul_assoc, zpow_neg, zpow_natCast, mul_inv_cancel₀ (by positivity), mul_one]

theorem div_eq (hLow : 2 ^ 52 ≤ mantissa) (hHigh : mantissa < 2 ^ 53) (hLeast : -52 ≤ exponent)
    (hPos : 0 < mantissa) :
    UnpackedFloat.div .binary64 (.finite .positive mantissa exponent hPos)
        (.finite .positive (2 ^ 52) 1 (by decide)) =
      .finite .positive mantissa (exponent - 53) hPos := by
  rw [← @round_exact _ (exponent - 53) hLow hHigh (by omega) hPos 1]
  have hTarget : min (exponent - 1) (Format.binary64.targetExponent
      (totalExponent mantissa exponent - totalExponent (2 ^ 52) 1)) = exponent - 54 := by
    have hLog : mantissa.log2 = 52 := by simpa using log2_eq hLow hHigh 0
    simp only [Format.targetExponent, totalExponent, Nat.log2_two_pow, Format.mantissaBits,
      Format.minExponent]
    omega
  have hShift : (exponent - 1 - (exponent - 54)).toNat = 53 := by omega
  have hQuotient : mantissa <<< 53 / 2 ^ 52 = mantissa * 2 ^ 1 ∧ mantissa <<< 53 % 2 ^ 52 = 0 := by
    omega
  have hExp : exponent - 54 = exponent - 53 - (1 : Nat) := by omega
  simp only [UnpackedFloat.div, divCore, hTarget, hShift, hQuotient]
  rw [hExp]
  rfl

theorem unpack_modulus :
    (9007199254740992 : Float).toModel.unpack = .finite .positive (2 ^ 52) 1 (by decide) :=
  rfl

/- A seed stands for its upper 53 bits, as a fraction. -/
theorem ratio?_seedValue (seed : UInt64) :
    ∃ k : Nat, k < 2 ^ 53 ∧ ratio? (Machine.seedValue seed) = some ((k : ℚ) / 2 ^ 53) := by
  have hBound : (seed >>> 11).toNat < 2 ^ 53 := by
    have hSeed := seed.toNat_lt
    simp
    omega
  refine ⟨_, hBound, ?_⟩
  unfold Machine.seedValue
  generalize seed >>> 11 = word at hBound ⊢
  by_cases hZero : word = 0
  · have hRes : (word.toFloat / 9007199254740992).toModel.unpack = .zero .positive := by
      subst hZero
      rfl
    rw [ratio?, hRes, hZero]
    simp
  · have hPos : 0 < word.toNat := Nat.pos_of_ne_zero fun hNone => hZero (UInt64.toNat_inj.mp hNone)
    rcases ofNat_eq hPos hBound with
      ⟨mantissa, exponent, hMantissa, hNum, hLow, hHigh, hLeast, hMost, hVal⟩
    have hOp : word.toFloat.toModel.unpack = .finite .positive mantissa exponent hMantissa := by
      refine Eq.trans ?_ (unpack_pack hLow hHigh (by omega) (by omega) hMantissa)
      rw [← hNum]
      rfl
    have hRes : (word.toFloat / 9007199254740992).toModel.unpack =
        .finite .positive mantissa (exponent - 53) hMantissa := by
      refine Eq.trans ?_ (unpack_pack hLow hHigh (by omega) (by omega) hMantissa)
      rw [← div_eq hLow hHigh hLeast, ← hOp, ← unpack_modulus]
      rfl
    rw [ratio?, hRes, ← hVal]
    simp [Sign.apply, zpow_sub₀, mul_div_assoc]

end Decimal

------ Draws along a Run

namespace Machine

variable {α β : Type}

/- A run leaves the seed that some draws lead to. -/
def Advances (run : Run α) : Prop :=
  ∀ machine result, run.run.run machine = .ok result →
    ∃ count, result.2.seed = nextSeed^[count] machine.seed

namespace Advances

theorem of_kept {run : Run α} (hKept : ∀ machine res, run.run.run machine = .ok res →
    res.2.seed = machine.seed) : Advances run :=
  fun machine res hRun => ⟨0, hKept machine res hRun⟩

theorem of_reading (walk : Walk α) : Advances (reading walk) := by
  refine of_kept fun machine res hRun => ?_
  cases walk <;> cases hRun
  rfl

theorem of_throw (error : RuntimeError) : Advances (throw error : Run α) :=
  of_kept fun _ _ hRun => by cases hRun; rfl

theorem of_push (val : Value) : Advances (push val) := of_kept fun _ _ hRun => by cases hRun; rfl

theorem of_reset : Advances (modify reset : Run PUnit) := of_kept fun _ _ hRun => by cases hRun; rfl

theorem of_pop (node : NodeId) : Advances (pop node) := by
  refine of_kept fun machine res hRun => ?_
  rcases machine with ⟨_ | ⟨_, _⟩, seed⟩ <;> cases hRun <;> rfl

theorem bind {rest : α → Run β} (hRun : Advances run)
    (hRest : ∀ val, Advances (rest val)) : Advances (run >>= rest) := by
  intro machine res hBoth
  rcases Walk.bind_eq_ok.mp hBoth with ⟨⟨outcome, mid⟩, hFirst, hSecond⟩
  rcases hRun machine _ hFirst with ⟨count, hCount⟩
  cases outcome with
  | error error =>
    cases hSecond
    exact ⟨count, hCount⟩
  | ok val =>
    rcases hRest val mid _ hSecond with ⟨more, hMore⟩
    exact ⟨more + count, by rw [hMore, hCount, iterate_add_apply]⟩

theorem of_apply (builtin : Builtin) (node : NodeId) (line : Nat) :
    Advances (apply builtin node line) := by
  unfold apply
  split
  · intro machine res hRun
    cases hRun
    exact ⟨1, rfl⟩
  · refine of_kept fun machine res hRun => ?_
    rw [run_get_bind] at hRun
    dsimp only at hRun
    split at hRun
    · cases hRun
      rfl
    · rw [run_set_bind] at hRun
      split at hRun <;> cases hRun <;> rfl

theorem of_needing (node : NodeId) (walk : Walk (Option α)) : Advances (needing node walk) := by
  refine (of_reading walk).bind ?_
  rintro (_ | val)
  · exact of_throw _
  · exact of_reading (pure val)

theorem of_widen (target : Prim) (node : NodeId) : Advances (widen target node) := by
  refine (of_pop node).bind fun val => ?_
  split
  · exact of_push _
  · exact of_throw _

theorem of_pairReals (node : NodeId) : Advances (pairReals node) := by
  refine (of_pop node).bind fun im => (of_pop node).bind fun re => ?_
  split
  · exact of_push _
  · exact of_throw _

variable {tree : SyntaxTree} {execute : NodeId → Run Unit}

theorem of_pushDenoter (id : NodeId) : Advances (pushDenoter tree id) := by
  refine (of_reading _).bind fun node => (of_reading _).bind fun kind => ?_
  split
  · exact of_push _
  · exact of_throw _

theorem of_executeAll (hExec : ∀ id, Advances (execute id)) (fuel : Nat) (id : Option NodeId) :
    Advances (executeAll tree execute fuel id) := by
  induction fuel generalizing id with
  | zero =>
    cases id with
    | none => exact of_reading (pure ())
    | some id => exact of_reading _
  | succ fuel ih =>
    cases id with
    | none => exact of_reading (pure ())
    | some id => exact (of_reading _).bind fun node => (hExec id).bind fun _ => ih node.next

theorem of_executeUnit (hExec : ∀ id, Advances (execute id)) (id : NodeId) :
    Advances (executeUnit tree execute id) := by
  unfold executeUnit
  -- Every shape is a chain of readings, executions and one operation at its end.
  with_reducible repeat' first
    | exact of_reading _
    | exact of_needing id _
    | exact of_throw _
    | exact hExec _
    | exact of_executeAll hExec _ _
    | exact of_pushDenoter id
    | exact of_apply _ id _
    | exact of_widen _ id
    | exact of_pairReals id
    | refine bind ?_ fun _ => ?_
    | split

theorem of_execute (id : NodeId) : Advances (Machine.execute tree id) := by
  have hWithin : ∀ fuel id, Advances (executeWithin tree fuel id) := by
    intro fuel
    induction fuel with
    | zero => exact fun _ => of_reading _
    | succ fuel ih => exact of_executeUnit ih
  exact hWithin _ id

end Advances

------ Sessions

/- What can be asked of a machine. -/
inductive Operation
  | reset
  | push (value : Value)
  | pop (node : NodeId)
  | denoter (tree : SyntaxTree) (id : NodeId)
  | apply (builtin : Builtin) (node : NodeId) (line : Nat)
  | widen (target : Prim) (node : NodeId)
  | evaluate (tree : SyntaxTree) (id : NodeId)

def Operation.run : Operation → Run Unit
  | .reset => modify Machine.reset
  | .push value => Machine.push value
  | .pop node => do let _ ← Machine.pop node
  | .denoter tree id => pushDenoter tree id
  | .apply builtin node line => Machine.apply builtin node line
  | .widen target node => Machine.widen target node
  | .evaluate tree id => do let _ ← Machine.evaluate tree id

/- The machine after some operations; one that fails leaves what it has done. -/
def after (machine : Machine) (operations : List Operation) : Walk Machine :=
  operations.foldlM (fun machine operation => Prod.snd <$> operation.run.run.run machine) machine

theorem Operation.run_advances (operation : Operation) : Advances operation.run := by
  cases operation with
  | reset => exact .of_reset
  | push val => exact .of_push val
  | pop node => exact (Advances.of_pop node).bind fun _ => .of_reading (pure ())
  | denoter tree id => exact .of_pushDenoter id
  | apply builtin node line => exact .of_apply builtin node line
  | widen target node => exact .of_widen target node
  | evaluate tree id =>
    refine .bind ?_ fun _ => .of_reading (pure ())
    exact Advances.of_reset.bind fun _ => (Advances.of_execute id).bind fun _ => .of_pop id

theorem after_advances (hAfter : after machine operations = .ok last) :
    ∃ count, last.seed = nextSeed^[count] machine.seed := by
  induction operations generalizing machine with
  | nil =>
    cases hAfter
    exact ⟨0, rfl⟩
  | cons first rest ih =>
    rcases Walk.bind_eq_ok.mp hAfter with ⟨next, hFirst, hRest⟩
    rcases Walk.map_eq_ok.mp hFirst with ⟨res, hRun, rfl⟩
    rcases first.run_advances machine res hRun with ⟨count, hCount⟩
    rcases ih hRest with ⟨more, hMore⟩
    exact ⟨more + count, by rw [hMore, hCount, iterate_add_apply]⟩

/-
  The step from seed to seed loses nothing, so no operations on a new machine and no number of
  draws make its seed zero, and what a draw pushes is a fraction of 53 bits.
-/
theorem draws_never_degenerate :
    Bijective nextSeed ∧ (∀ count, nextSeed^[count] ({} : Machine).seed ≠ 0) ∧
      (∀ operations last, after {} operations = .ok last →
        last.seed ≠ 0 ∧ ∃ count, last.seed = nextSeed^[count] ({} : Machine).seed) ∧
      ∀ machine node line, ∃ x : Float, ∃ k : Nat, k < 2 ^ 53 ∧
        (apply .random node line).run.run machine =
            .ok (.ok (), { stack := .real x :: machine.stack, seed := nextSeed machine.seed }) ∧
          Decimal.ratio? x = some ((k : ℚ) / 2 ^ 53) := by
  have hNever := iterate_ne_zero (show ({} : Machine).seed ≠ 0 by decide)
  refine ⟨nextSeed_bijective, hNever, ?_, ?_⟩
  · intro operations last hAfter
    rcases after_advances hAfter with ⟨count, hCount⟩
    exact ⟨hCount ▸ hNever count, count, hCount⟩
  · intro machine node line
    rcases Decimal.ratio?_seedValue (nextSeed machine.seed) with ⟨k, hBound, hRatio⟩
    exact ⟨_, k, hBound, rfl, hRatio⟩

/- A failing division and a reset between two draws. -/
def session : List Operation :=
  [.apply .random ⟨0⟩ 1, .push (.int 0), .apply .intOver ⟨1⟩ 2, .reset, .apply .random ⟨2⟩ 3]

theorem draws_never_degenerate_session :
    ∃ last, after {} session = .ok last ∧ last.seed ≠ 0 ∧
      ∃ count, last.seed = nextSeed^[count] ({} : Machine).seed :=
  ⟨_, rfl, draws_never_degenerate.2.2.1 session _ rfl⟩

end Machine

end Algol68
