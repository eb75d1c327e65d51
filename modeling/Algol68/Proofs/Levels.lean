import Algol68.Proofs.Coverage
import Algol68.Proofs.Layout
import Algol68.Proofs.Parallel

/-
  Compilations of one tree at different levels.

  Below the level of clauses a node gets a function only if it
  is accepted whatever stands below it, and then it is accepted
  at all higher levels. There it gets a function as well, unless
  a node above it has one. From the level of clauses on all
  compilations go alike.

  Main declarations:
    * `SyntaxTree.Conforms.coverage_grows`
    * `SyntaxTree.levels_coincide`
-/

------ Accepted Nodes

namespace Algol68

namespace SyntaxTree

open Generator Planner Run

variable {tree : SyntaxTree} {id : NodeId} {tier : Nat}

/- What is accepted stays so at higher tiers. -/
theorem Accepts.mono (hAccepts : tree.Accepts tier id) (hHigher : tier ≤ higher) :
    tree.Accepts higher id := by
  rcases hAccepts with ⟨gen, hMem, hTier, hLow, hAsks⟩
  refine ⟨gen, hMem, hTier.trans hHigher, hLow, ?_⟩
  simp only [table, List.mem_cons, List.not_mem_nil, or_false] at hMem
  rcases hMem with rfl | rfl | rfl | rfl | rfl | rfl | rfl | rfl | rfl
  iterate 6 exact absurd hLow (by decide)
  · rcases hAsks with ⟨op, hUnites⟩
    exact ⟨op, { hUnites with basic := isBasic_mono hHigher hUnites.basic }⟩
  · exact hAsks
  · exact isBasic_mono hHigher hAsks

------ Levels

variable (hTree : tree.Conforms) (hPending : tree.IsPending)

include hTree hPending

theorem CompilesTo.closed (hLevel : 1 ≤ options.level) (hRun : tree.CompilesTo options run)
    (hAnnotated : run.Annotated id) : run.context.tier = options.tier ∧ run.Closed tree id := by
  rcases hRun.exists_searches hTree hLevel with ⟨-, -, start, -, -, hStart, hTier, hSearches, -⟩
  rcases hSearches id hAnnotated with hBefore | hClosed
  · exact absurd hBefore (hPending.not_annotated hStart)
  · exact ⟨hTier, hClosed⟩

/- Below the level of clauses functions are for accepted nodes. -/
theorem CompilesTo.accepts (hLevel : 1 ≤ options.level) (hRun : tree.CompilesTo options run)
    (hLow : options.tier < Tier.clauses) (hCalls : run.Calls id name) :
    tree.Accepts options.tier id := by
  rcases hRun.closed hTree hPending hLevel ⟨_, hCalls, nofun⟩ with ⟨hTier, hClosed⟩
  cases hClosed with
  | compiled _ hAccepts =>
    rw [hTier] at hAccepts
    exact hAccepts hLow
  | givenUp hMarking | searched hMarking => cases hMarking.symm.trans hCalls

/- Without problems no accepted node is refused. -/
theorem CompilesTo.not_accepts (hLevel : 1 ≤ options.level) (hRun : tree.CompilesTo options run)
    (hNone : run.context.diagnostics = []) (hRefused : run.marking id = .ok .notGenerated) :
    ¬ tree.Accepts options.tier id := by
  rcases hRun.closed hTree hPending hLevel ⟨_, hRefused, nofun⟩ with ⟨hTier, hClosed⟩
  cases hClosed with
  | compiled hCalls _ => cases hCalls.symm.trans hRefused
  | givenUp _ hMem _ =>
    rw [hNone] at hMem
    cases hMem
  | searched _ hOther _ => exact hTier ▸ hOther

theorem CompilesTo.within (hRun : tree.CompilesTo options run) {root : NodeId}
    (hRoot : tree.root = some root) (hCalls : run.Calls id name) : Within tree root id := by
  rcases hRun.draws hTree.forest with ⟨first, tier, hFirst, hDraws⟩
  cases hFirst.symm.trans hRoot
  by_contra hOutside
  have hSame := hDraws.moves.marking_eq hOutside
  exact absurd ⟨_, hSame.symm.trans hCalls, nofun⟩ (hPending.not_annotated rfl)

omit hTree hPending

/- Whether a node has a function. -/
def IsCompiled (tree : SyntaxTree) (id : NodeId) : Prop :=
  ∃ name node, tree.node id = .ok node ∧ node.marking = .compiled name

theorem CompilesTo.isCompiled_iff (hForest : tree.IsForest) (hRun : tree.CompilesTo options run)
    (id : NodeId) : (tree.withMarkings run.markings).IsCompiled id ↔ ∃ name, run.Calls id name :=
  exists_congr fun name => hRun.marked_iff hForest id name

/-
  What is compiled at a level is so at higher ones, or stands
  below a node that is, if there are no problems at either.
-/
theorem Conforms.coverage_grows
    (hTree : tree.Conforms)
    (hPending : tree.IsPending)
    (hLevel : 1 ≤ low.level)
    (hLevels : low.level ≤ high.level) :
    ∃ few many : CompiledSource, ∃ before after : SyntaxTree,
      tree.compile low = .ok (.ok (few, before)) ∧
        tree.compile high = .ok (.ok (many, after)) ∧
          (few.diagnostics = [] → many.diagnostics = [] →
            ∀ id, before.IsCompiled id →
              after.IsCompiled id ∨
                ∃ ancestor, tree.Contains ancestor id ∧ after.IsCompiled ancestor) := by
  rcases hTree.exists_compilesTo low with ⟨left, hLeft⟩
  rcases hTree.exists_compilesTo high with ⟨right, hRight⟩
  refine ⟨_, _, _, _, hLeft.compile_eq, hRight.compile_eq, ?_⟩
  intro hFew hMany id hCompiled
  have hNode : ∃ node, tree.node id = .ok node := by
    rcases hCompiled with ⟨_, found, hFound, -⟩
    have hBound := Store.lt_size_of_fetch hFound
    rw [size_withMarkings] at hBound
    exact Store.exists_fetch hBound
  simp only [hLeft.isCompiled_iff hTree.forest, hRight.isCompiled_iff hTree.forest] at hCompiled ⊢
  rcases hCompiled with ⟨name, hCalls⟩
  by_cases hClauses : Tier.clauses ≤ low.level
  · -- The two compilations go alike.
    have hAlike := hLeft.alike hRight (by omega)
    refine .inl ⟨name, ?_⟩
    rw [Calls, ← hAlike.marking_eq]
    exact hCalls
  · have hTier : low.tier < Tier.clauses := (Nat.min_le_left _ _).trans_lt (Nat.not_le.mp hClauses)
    have hHigher : low.tier ≤ high.tier := min_le_min_right Tier.highest hLevels
    have hAccepts : tree.Accepts high.tier id :=
      (hLeft.accepts hTree hPending hLevel hTier hCalls).mono hHigher
    have hHigh : 1 ≤ high.level := hLevel.trans hLevels
    rcases hNode with ⟨node, hNode⟩
    rcases (hRight.isFull hTree.forest).marking_ends hNode with
      ⟨marking, hMarking⟩
    cases marking with
    | compiled other => exact .inl ⟨other, hMarking⟩
    | notGenerated => exact absurd hAccepts (hRight.not_accepts hTree hPending hHigh hMany hMarking)
    | pending =>
        rcases hRight.exists_visit hHigh with ⟨root, -, hRoot, -⟩
        have hWithin := hLeft.within hTree hPending hRoot hCalls
        rcases hRight.exists_nearest hTree hPending hHigh hRoot
          hWithin hMarking with
          ⟨ancestor, hContains, -, hCompiled | hGivenUp⟩
        · exact .inr ⟨ancestor, hContains, hCompiled⟩
        · rcases hGivenUp with ⟨-, diagnostic, hMember, -⟩
          rw [show right.context.diagnostics = [] from hMany] at hMember
          cases hMember

theorem coverage_grows_nestedLoop :
    nestedLoop.Conforms ∧ nestedLoop.IsPending ∧
      ∃ few many : CompiledSource, ∃ before after : SyntaxTree,
        nestedLoop.compile { level := 2 } = .ok (.ok (few, before)) ∧
          nestedLoop.compile { level := 3 } = .ok (.ok (many, after)) ∧
            few.diagnostics = [] ∧ many.diagnostics = [] ∧
              ∀ id, before.IsCompiled id →
                after.IsCompiled id ∨
                  ∃ ancestor, nestedLoop.Contains ancestor id ∧ after.IsCompiled ancestor := by
  have hTree : nestedLoop.Conforms := conforms_of_isOrderly (by decide +kernel)
  have hPending : nestedLoop.IsPending := by
    unfold IsPending
    decide +kernel
  have hLow : ((nestedLoop.compile { level := 2 }).toOption.bind
      (·.toOption)).map (·.1.diagnostics) = some [] := by
    decide +kernel
  have hHigh : ((nestedLoop.compile { level := 3 }).toOption.bind
      (·.toOption)).map (·.1.diagnostics) = some [] := by
    decide +kernel
  have hLevels : ({ level := 2 } : Options).level ≤ ({ level := 3 } : Options).level := by
    decide
  rcases hTree.coverage_grows hPending (by decide) hLevels with
    ⟨few, many, before, after, hFew, hMany, hGrows⟩
  rw [hFew] at hLow
  rw [hMany] at hHigh
  have hQuiet := Option.some.inj hLow
  have hStill := Option.some.inj hHigh
  exact ⟨hTree, hPending, few, many, before, after, hFew, hMany,
    hQuiet, hStill, hGrows hQuiet hStill⟩

end SyntaxTree

------ Levels That Coincide

/- Walks that agree exactly stay equal where what follows does not tell related results apart. -/
theorem Walk.Agree.bind_eq {left : α → Walk β} (hAgree : Agree True post first second)
    (hRest : ∀ val other, post val other → left val = right other) :
    first >>= left = second >>= right := by
  cases first with
  | ok val =>
    cases second with
    | ok other => exact hRest val other hAgree
    | error _ => exact absurd trivial hAgree
  | error _ =>
    cases second with
    | ok _ => exact absurd trivial hAgree
    | error _ => exact congrArg Except.error (hAgree trivial)

namespace SyntaxTree

/- Runs that differ in nothing have compiled the same. -/
theorem ofContext_eq_of_alike (hAlike : left.Alike True inside right) :
    CompiledSource.ofContext left = CompiledSource.ofContext right := by
  have hOut : left.output = right.output := by
    rw [← List.forall₂_eq_eq_eq]
    apply hAlike.output.imp
    rintro _ _ ⟨-, -, -, hExact⟩
    exact congrArg Fragment.function (hExact trivial)
  simp only [CompiledSource.ofContext, Context.globalsText, Context.outputText, hOut,
    hAlike.globals, hAlike.compiled, hAlike.diagnostics]

/-
  From the level of clauses on all levels are one: the compilations give the same text, functions,
  problems and marks, or stop at the same fault.
-/
theorem levels_coincide (tree : SyntaxTree) (options : Options) (hLow : Tier.clauses ≤ low)
    (hHigh : Tier.clauses ≤ high) :
    tree.compile { options with level := low } = tree.compile { options with level := high } := by
  unfold compile
  cases tree.root with
  | none => rfl
  | some root =>
    have hLevel : min low Tier.clauses = min high Tier.clauses := by
      rw [min_eq_right hLow, min_eq_right hHigh]
    have hAgree := @compilationPass_agree True tree
      { options with level := low } { options with level := high }
      (fun _ => rfl) (fun _ => rfl) hLevel root
    apply hAgree.bind_eq
    rintro ⟨⟨⟩, left⟩ ⟨⟨⟩, right⟩ ⟨-, hAlike⟩
    have hMarkings : left.markings = right.markings := hAlike.markings
    simp only [ofContext_eq_of_alike hAlike.context, hMarkings]

theorem levels_coincide_nestedLoop :
    Tier.clauses ≤ 3 ∧ Tier.clauses ≤ 9 ∧
      nestedLoop.compile { level := 3, checked := true } =
        nestedLoop.compile { level := 9, checked := true } := by
  have hLow : Tier.clauses ≤ 3 := by decide
  have hHigh : Tier.clauses ≤ 9 := by decide
  exact ⟨hLow, hHigh, nestedLoop.levels_coincide { checked := true } hLow hHigh⟩

end SyntaxTree

end Algol68
