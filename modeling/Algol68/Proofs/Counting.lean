import Algol68.Code.Stmt
import Algol68.Proofs.Integers

/-
  Counting loops over exact integers.

  The head of a loop is read as C reads it. The count takes
  the values of an arithmetic progression up to the limit, all
  of which are words. Only the last advance may leave them.

  Main declarations:
    * `LoopHeader.counts_in_words`
-/

------ Heads of Loops

namespace Algol68

/- A comparison in generated code. -/
inductive Comparison
  | atMost
  | atLeast

def Comparison.text : Comparison → String
  | .atMost => "<="
  | .atLeast => ">="

def Comparison.Holds : Comparison → Int → Int → Prop
  | .atMost, left, right => left ≤ right
  | .atLeast, left, right => right ≤ left

/-
  The head of a loop that counts. The count is compared with the limit in one way if the step is
  not negative, and in another way if it is. Then the step is added or subtracted.
-/
structure Counting where
  forward : Comparison
  backward : Comparison
  adds : Bool

variable (head : Counting)

namespace Counting

/- The head over the names of its variables. -/
def text (count start step limit : String) : String :=
  let condition := "(" ++ step ++ " >= 0 ? " ++ count ++ " " ++ head.forward.text ++ " " ++ limit ++
    " : " ++ count ++ " " ++ head.backward.text ++ " " ++ limit ++ ")"
  "for (" ++ count ++ " = " ++ start ++ "; " ++ condition ++ "; " ++ count ++
    (if head.adds then " += " else " -= ") ++ step ++ ") \x7b"

/- The condition under which the body is entered. -/
def GoesOn (step limit count : Int) : Prop :=
  if 0 ≤ step then head.forward.Holds count limit else head.backward.Holds count limit

/- The count behind an advance. -/
def advanced (step count : Int) : Int :=
  if head.adds then count + step else count - step

/- The values that the count takes. -/
inductive Reaches (head : Counting) (start step limit : Int) : Int → Prop
  | start : Reaches head start step limit start
  | advance {count : Int} (hCount : Reaches head start step limit count)
      (hOn : head.GoesOn step limit count) :
      Reaches head start step limit (head.advanced step count)

/- The loop enters its body with some counts one after the other, and then ends. -/
inductive Visits (head : Counting) (step limit : Int) : Int → List Int → Prop
  | stop {count : Int} (hEnd : ¬ head.GoesOn step limit count) : Visits head step limit count []
  | round {count : Int} {counts : List Int} (hOn : head.GoesOn step limit count)
      (hRest : Visits head step limit (head.advanced step count) counts) :
      Visits head step limit count (count :: counts)

end Counting

namespace LoopHeader

/- How the header of a loop with a limit is read. -/
def counting (header : LoopHeader) : Counting :=
  if header.downwards then ⟨.atLeast, .atMost, false⟩ else ⟨.atMost, .atLeast, true⟩

/- The difference between a count and the next one. -/
def pace (header : LoopHeader) (step : Int) : Int := if header.downwards then -step else step

/- A count is not beyond the limit in the direction of the loop. -/
def IsWithin (header : LoopHeader) (step limit count : Int) : Prop :=
  if header.downwards = decide (step < 0) then count ≤ limit else limit ≤ count

/- The terms of the progression that the counts belong to. -/
def term (header : LoopHeader) (start step : Int) (k : Nat) : Int := start + k * header.pace step

theorem text_eq (header : LoopHeader) (hLimit : header.hasLimit = true) :
    header.text = header.counting.text (header.temp "count").text (header.temp "from").text
      (header.temp "by").text (header.temp "to").text := by
  unfold text condition counting
  rw [if_pos hLimit]
  cases header.downwards <;> rfl

variable {header : LoopHeader} {start step limit count : Int}

@[simp] theorem goesOn_iff : header.counting.GoesOn step limit count ↔
    header.IsWithin step limit count := by
  unfold counting Counting.GoesOn IsWithin
  by_cases hStep : 0 ≤ step <;> cases header.downwards <;> simp [hStep, Comparison.Holds]

@[simp] theorem advanced_eq : header.counting.advanced step count = count + header.pace step := by
  unfold counting Counting.advanced pace
  cases header.downwards <;> rfl

theorem isWithin_iff (header : LoopHeader) (step limit count : Int) :
    (0 < header.pace step → (header.IsWithin step limit count ↔ count ≤ limit)) ∧
      (header.pace step < 0 → (header.IsWithin step limit count ↔ limit ≤ count)) := by
  unfold pace IsWithin
  cases header.downwards <;> by_cases hStep : step < 0 <;> simp [hStep] <;> omega

------ Values of the Count

theorem start_le_of_reaches (hCount : header.counting.Reaches start step limit count) :
    (0 ≤ header.pace step → start ≤ count) ∧ (header.pace step ≤ 0 → count ≤ start) := by
  induction hCount with
  | start => simp
  | advance _ _ ih =>
    rw [advanced_eq]
    omega

theorem between_of_isWithin (hCount : header.counting.Reaches start step limit count)
    (hWithin : header.IsWithin step limit count) :
    (0 < header.pace step → start ≤ count ∧ count ≤ limit) ∧
      (header.pace step < 0 → limit ≤ count ∧ count ≤ start) ∧
        (header.pace step = 0 → count = start) := by
  have hBetween := start_le_of_reaches hCount
  have hCases := header.isWithin_iff step limit count
  refine ⟨fun hPace => ?_, fun hPace => ?_, fun hPace => ?_⟩
  · have := (hCases.1 hPace).mp hWithin
    omega
  · have := (hCases.2 hPace).mp hWithin
    omega
  · omega

/- An advance leaves the words only if it is the last and the limit leaves no room for it. -/
theorem isWord_advanced (hStart : Builtin.IsWord start) (hLimit : Builtin.IsWord limit)
    (hCount : header.counting.Reaches start step limit count)
    (hWithin : header.IsWithin step limit count)
    (hRoom : header.IsWithin step limit (count + header.pace step) ∨
      Builtin.IsWord (limit + header.pace step)) : Builtin.IsWord (count + header.pace step) := by
  have hBetween := between_of_isWithin hCount hWithin
  rcases hRoom with hNext | hRoom
  · have hAdvance := hCount.advance (goesOn_iff.mpr hWithin)
    rw [advanced_eq] at hAdvance
    have hLater := between_of_isWithin hAdvance hNext
    unfold Builtin.IsWord at *
    omega
  · unfold Builtin.IsWord at *
    omega

/- With a step the loop ends, and runs through an arithmetic progression. -/
theorem visits_progression (hPace : header.pace step ≠ 0) (start limit : Int) :
    ∃ n, header.counting.Visits step limit start ((List.range n).map (header.term start step)) ∧
      ∀ k, k < n ↔ header.IsWithin step limit (header.term start step k) := by
  -- The induction is on the distance from the start to the limit.
  generalize hBound : (if 0 < header.pace step then limit - start + 1
    else start - limit + 1).toNat = bound
  induction bound using Nat.strongRecOn generalizing start with
  | ind bound ih =>
    have hCases := header.isWithin_iff step limit start
    by_cases hWithin : header.IsWithin step limit start
    · have hLess : (if 0 < header.pace step then limit - (start + header.pace step) + 1
          else start + header.pace step - limit + 1).toNat < bound := by
        split <;> simp_all <;> omega
      rcases ih _ hLess (start + header.pace step) rfl with ⟨n, hVisits, hTerms⟩
      have hTerm (k : Nat) : header.term (start + header.pace step) step k =
          header.term start step (k + 1) := by
        simp only [term, Int.natCast_add, Int.add_mul]
        omega
      have hFirst : header.term start step 0 = start := by simp [term]
      refine ⟨n + 1, ?_, ?_⟩
      · rw [List.range_succ_eq_map, List.map_cons, List.map_map, hFirst]
        refine .round (goesOn_iff.mpr hWithin) ?_
        rw [advanced_eq]
        simpa [Function.comp_def, ← hTerm] using hVisits
      · rintro (_ | k)
        · simpa [hFirst] using hWithin
        · rw [Nat.add_lt_add_iff_right, hTerms, hTerm]
    · refine ⟨0, .stop (mt goesOn_iff.mp hWithin), ?_⟩
      intro k
      have hFar := header.isWithin_iff step limit (header.term start step k)
      rcases lt_or_gt_of_ne hPace with hBack | hOn
      · have hTerm : k * header.pace step ≤ 0 :=
          Int.mul_nonpos_of_nonneg_of_nonpos (Int.natCast_nonneg k) hBack.le
        rw [hFar.2 hBack]
        rw [hCases.2 hBack] at hWithin
        simp only [term]
        omega
      · have hTerm : 0 ≤ k * header.pace step := Int.mul_nonneg (Int.natCast_nonneg k) hOn.le
        rw [hFar.1 hOn]
        rw [hCases.1 hOn] at hWithin
        simp only [term]
        omega

/-
  The header of a loop with a limit is a loop that counts. With a step it ends behind the counts
  that are not beyond the limit, and every advance gives a word if the loop goes on behind it or
  if the limit leaves room for a step.
-/
theorem counts_in_words (header : LoopHeader) (hLimit : header.hasLimit = true)
    (start step limit : Int64) :
    header.text = header.counting.text (header.temp "count").text (header.temp "from").text
        (header.temp "by").text (header.temp "to").text ∧
      (∀ count, header.counting.Reaches start.toInt step.toInt limit.toInt count →
        header.counting.GoesOn step.toInt limit.toInt count →
        header.counting.GoesOn step.toInt limit.toInt (header.counting.advanced step.toInt count) ∨
          Builtin.IsWord (header.counting.advanced step.toInt limit.toInt) →
        Builtin.IsWord (header.counting.advanced step.toInt count)) ∧
      (step.toInt ≠ 0 → ∃ n, header.counting.Visits step.toInt limit.toInt start.toInt
          ((List.range n).map (header.term start.toInt step.toInt)) ∧
        ∀ k, k < n ↔ header.IsWithin step.toInt limit.toInt
          (header.term start.toInt step.toInt k)) := by
  refine ⟨header.text_eq hLimit, ?_, ?_⟩
  · simp only [goesOn_iff, advanced_eq]
    intro count hCount hWithin hRoom
    exact isWord_advanced (Builtin.isWord_toInt start) (Builtin.isWord_toInt limit) hCount hWithin
      hRoom
  · intro hStep
    refine visits_progression ?_ start.toInt limit.toInt
    unfold pace
    split <;> omega

theorem counts_in_words_descending :
    ∃ counts,
      (⟨⟨0⟩, true, true⟩ : LoopHeader).counting.Visits 2 (-3) Int64.maxValue.toInt counts := by
  rcases (counts_in_words ⟨⟨0⟩, true, true⟩ rfl Int64.maxValue 2 (-3)).2.2 (by decide) with
    ⟨n, hVisits, -⟩
  exact ⟨_, hVisits⟩

/- The count goes on beyond a limit that is the greatest word. -/
theorem count_leaves_words :
    ¬ ∀ count, (⟨⟨0⟩, true, false⟩ : LoopHeader).counting.Reaches Int64.maxValue.toInt 1
        Int64.maxValue.toInt count →
      (⟨⟨0⟩, true, false⟩ : LoopHeader).counting.GoesOn 1 Int64.maxValue.toInt count →
      Builtin.IsWord ((⟨⟨0⟩, true, false⟩ : LoopHeader).counting.advanced 1 count) := by
  intro hWords
  have hWithin : (⟨⟨0⟩, true, false⟩ : LoopHeader).IsWithin 1 Int64.maxValue.toInt
      Int64.maxValue.toInt :=
    ((isWithin_iff _ 1 _ _).1 (by decide)).mpr le_rfl
  exact absurd (hWords _ .start (goesOn_iff.mpr hWithin)) (by decide)

end LoopHeader

end Algol68
