import Algol68.Proofs.Agreement
import Algol68.Proofs.Compilation

/-
  Compilations of one tree with different settings.

  Whether checks are written, and at which of the tiers that
  admit clauses a compilation works, makes no difference to
  what is planned. So two such compilations decide alike about
  all nodes, and only the bodies of functions may differ.

  Main declarations:
    * `SyntaxTree.Conforms.checks_stay_in_functions`
-/

------ Alike Runs

namespace Algol68

open Step

variable {α β : Type} {exact : Prop}

/- Alike contexts, and the same decisions. -/
structure Run.Alike (exact : Prop) (left right : Run) : Prop where
  context : left.context.Alike exact False right.context
  markings : left.markings = right.markings

/- A step that goes alike in alike runs. -/
abbrev Generation.IsFair (exact : Prop) (step : Generation α) : Prop :=
  Step.Agrees exact (Run.Alike exact) (Run.Alike exact) step

/- A plan that goes alike in alike runs, and is as described. -/
def Planning.IsFair (exact : Prop) (planning : Planning α) (post : α → Prop) : Prop :=
  ∀ left right, Run.Alike exact left right → Walk.Agree exact (fun first second =>
      first.1 = second.1 ∧ first.2.Alike exact second.2 ∧ ∀ value ∈ first.1, post value)
    (planning.run left) (planning.run right)

namespace Run

variable {left : Run}

theorem Alike.marking_eq (hAlike : left.Alike exact right) (id : NodeId) :
    left.marking id = right.marking id := by
  unfold marking
  rw [hAlike.markings]

theorem Alike.mark (hAlike : left.Alike exact right) (id : NodeId) (marking : Marking) :
    (left.mark id marking).Alike exact (right.mark id marking) :=
  ⟨hAlike.context, congrArg (·.setIfInBounds id.number marking) hAlike.markings⟩

theorem inContext_fair (hTask : task.IsFair exact False) : (Run.inContext task).IsFair exact := by
  intro left right hAlike
  apply (lift_agree (hTask _ _ hAlike.context) left right).bind
  rintro ⟨⟨res, ctx⟩, _⟩ ⟨⟨other, last⟩, _⟩ ⟨⟨hSame, hNext⟩, rfl, rfl⟩
  exact ⟨hSame, hNext, hAlike.markings⟩

end Run

/- Tiers that admit clauses make no difference. -/
theorem Run.Alike.at_tier {left : Run} {rest : Nat → α} (hAlike : left.Alike exact right)
    (hCap : ∀ tier, rest (min tier Tier.clauses) = rest tier) :
    rest left.context.tier = rest right.context.tier := by
  rw [← hCap left.context.tier, hAlike.context.tier, hCap]

theorem Generation.IsFair.tier_bind {rest : Nat → Generation β}
    (hCap : ∀ tier, rest (min tier Tier.clauses) = rest tier)
    (hRest : ∀ tier, (rest tier).IsFair exact) : (Planner.currentTier >>= rest).IsFair exact := by
  intro left right hAlike
  have hSame := hAlike.at_tier hCap
  have hHere := hRest right.context.tier left right hAlike
  nth_rewrite 1 [← hSame] at hHere
  exact hHere

variable {rest : α → Planning β}

namespace Planning.IsFair

theorem of_pure (hPost : post val) : IsFair exact (pure val) post := by
  refine fun _ _ hAlike => ⟨rfl, hAlike, ?_⟩
  rintro _ ⟨⟩
  exact hPost

theorem of_failure : IsFair exact (failure : Planning α) post :=
  fun _ _ hAlike => ⟨rfl, hAlike, nofun⟩

theorem mono (hPlanning : IsFair exact planning post) (hPost : ∀ val, post val → weak val) :
    IsFair exact planning weak := by
  intro left right hAlike
  refine (hPlanning left right hAlike).mono ?_
  rintro first second ⟨hSame, hNext, hVal⟩
  exact ⟨hSame, hNext, fun val hFound => hPost val (hVal val hFound)⟩

theorem bind (hFirst : IsFair exact planning post)
    (hRest : ∀ val, post val → IsFair exact (rest val) after) :
    IsFair exact (planning >>= rest) after := by
  intro left right hAlike
  apply (hFirst left right hAlike).bind
  rintro ⟨_ | val, next⟩ ⟨_, last⟩ ⟨rfl, hNext, hVal⟩
  · exact ⟨rfl, hNext, nofun⟩
  · exact hRest val (hVal val rfl) next last hNext

theorem of_step {step : Generation α} (hStep : step.IsFair exact) :
    IsFair exact (liftM step) fun _ => True := by
  intro left right hAlike
  apply (hStep left right hAlike).bind
  rintro ⟨val, next⟩ ⟨_, last⟩ ⟨rfl, hNext⟩
  exact ⟨rfl, hNext, fun _ _ => trivial⟩

theorem of_task {task : Generation (Option α)} (hTask : task.IsFair exact) :
    IsFair exact (OptionT.mk task) fun _ => True := by
  intro left right hAlike
  refine (hTask left right hAlike).mono ?_
  rintro first second ⟨hSame, hNext⟩
  exact ⟨hSame, hNext, fun _ _ => trivial⟩

theorem walk_bind {walk : Walk α} (hRest : ∀ val, walk = .ok val → IsFair exact (rest val) after) :
    IsFair exact (liftM walk >>= rest) after := by
  cases walk with
  | ok val => exact hRest val rfl
  | error fault => exact fun _ _ _ _ => rfl

theorem read_bind {rest : Run → Planning β}
    (hSame : ∀ left right, left.Alike exact right → rest left = rest right)
    (hRest : ∀ run, IsFair exact (rest run) after) : IsFair exact (get >>= rest) after := by
  intro left right hAlike
  have hHere := hRest right left right hAlike
  nth_rewrite 1 [← hSame left right hAlike] at hHere
  exact hHere

theorem tier_bind {rest : Nat → Planning β}
    (hCap : ∀ tier, rest (min tier Tier.clauses) = rest tier)
    (hRest : ∀ tier, IsFair exact (rest tier) after) :
    IsFair exact (liftM Planner.currentTier >>= rest) after := by
  intro left right hAlike
  have hSame := hAlike.at_tier hCap
  have hHere := hRest right.context.tier left right hAlike
  nth_rewrite 1 [← hSame] at hHere
  exact hHere

end Planning.IsFair

------ Generators

variable {tree : SyntaxTree}

namespace Generator

open Planning Step Emission Planner

variable {visit : NodeId → Generation Unit} {id : NodeId}

theorem visitSiblings_fair (hVisit : ∀ id, (visit id).IsFair exact) (fuel : Nat)
    (first : Option NodeId) : (visitSiblings tree visit fuel first).IsFair exact := by
  induction fuel generalizing first with
  | zero =>
    cases first with
    | none => exact .of_pure ()
    | some id => exact .of_throw _
  | succ fuel ih =>
    cases first with
    | none => exact .of_pure ()
    | some id =>
      apply (hVisit id).bind
      intro _
      apply Agrees.lift_bind
      exact fun node => ih node.next

theorem called_fair (hVisit : (visit id).IsFair exact) :
    IsFair exact (do
        visit id
        match ← (← get).marking id with
        | .compiled func => pure (.call func)
        | _ => failure : Planning ItemKind)
      fun kind => ∃ func, kind = .call func ∧ True := by
  apply (IsFair.of_step hVisit).bind
  intro _ _
  apply IsFair.read_bind
  · intro left right hAlike
    rw [hAlike.marking_eq]
  intro run
  apply IsFair.walk_bind
  rintro (_ | _ | func) _
  · exact .of_failure
  · exact .of_failure
  · exact .of_pure ⟨func, rfl, trivial⟩

theorem emit_fair (id : NodeId) (name : String) (hWriter : Planned tree writer) :
    IsFair exact (emit tree id name writer) fun _ => True :=
  .of_task (Run.inContext_fair (Context.emitFunction_agrees tree id name
    (hWriter.draft.keeps (Inline.guides_fair tree) fun _ _ => trivial)
    hWriter.draft.execute_local))

/- The logic of alike runs. -/
def fairLogic (hVisit : ∀ id, (visit id).IsFair exact) (id : NodeId) :
    Generator.Logic tree visit id where
  total := False
  known := False
  tier := 0
  inside := fun _ => True
  Point := Unit
  Later := fun _ _ => True
  Calls := fun _ _ _ => True
  Holds := fun _ planning post => planning.IsFair exact (post ())
  spans := .anywhere
  conforms := conforms_of_false
  trans := fun _ _ => trivial
  calls := fun _ _ => trivial
  of_pure := fun hPost => .of_pure (hPost () trivial)
  of_failure := .of_failure
  mono := fun hPlanning hPost => IsFair.mono hPlanning fun value => hPost () value
  bind := fun hFirst hRest => IsFair.bind hFirst fun value hPost => hRest value () trivial hPost
  walk_bind := fun _ hRest => .walk_bind hRest
  tier_bind := fun hCap hRest => .tier_bind hCap fun tier => hRest tier False.elim
  of_item := fun {_ id} _ _ => called_fair (hVisit id)
  of_sources := fun _ _ _ => .of_step (visitSiblings_fair hVisit _ _)
  Attempts := fun _ planning => planning.IsFair exact fun _ => True
  leads := .anywhere id
  declined := .of_failure
  attempt := fun hFirst hRest => IsFair.bind hFirst fun value hPost => hRest value () hPost
  attempt_walk := fun _ hRest => .walk_bind hRest
  attempt_tier := fun hCap hRest => .tier_bind hCap fun tier => hRest tier False.elim
  attempt_emit := fun _ _ _ hDrawn _ => emit_fair id _ hDrawn.planned

/- The names of constants are taken alike. -/
theorem constantUnit_fair (hVisit : ∀ id, (visit id).IsFair exact) (id : NodeId) :
    IsFair exact (constantUnit tree visit id) fun _ => True := by
  let logic : Generator.Logic tree visit id := fairLogic hVisit id
  apply IsFair.walk_bind
  intro node _
  apply @Logic.unless_attempt _ _ _ logic ()
  intro _
  apply @Logic.needed_attempt _ _ _ _ logic () _ _ False.elim
  intro mode _
  apply @Logic.ensure_attempt _ _ _ logic _ () _ False.elim
  intro _
  apply @Logic.ensure_attempt _ _ _ logic _ () _ False.elim
  intro _
  apply (IsFair.of_task (Run.inContext_fair (Context.fold_fair tree id))).bind
  intro val _
  apply IsFair.walk_bind
  intro modeName _
  extract_lets name
  apply IsFair.read_bind
  · intro left right hAlike
    dsimp only
    rw [hAlike.context.hasName_eq]
  intro run
  dsimp only
  split
  · exact .of_pure trivial
  · have hTake : Generation.IsFair exact (Run.inContext (modify fun ctx => ctx.takeName name)) :=
      Run.inContext_fair (.of_modify fun _ _ hContext => hContext.takeName name)
    apply (IsFair.of_step hTake).bind
    intro _ _
    apply IsFair.walk_bind
    exact fun push _ => emit_fair id name .statements

theorem basicUnit_fair (hVisit : ∀ id, (visit id).IsFair exact) (id : NodeId) :
    IsFair exact (basicUnit tree visit id) fun _ => True := by
  let logic : Generator.Logic tree visit id := fairLogic hVisit id
  apply IsFair.tier_bind
  · intro tier
    simp
  intro tier
  apply @Logic.ensure_attempt _ _ _ logic _ () _ False.elim
  intro hBasic
  apply IsFair.walk_bind
  intro attr _
  apply IsFair.walk_bind
  exact fun name _ => emit_fair id name (.value (.unit hBasic))

/- All generators go alike in alike runs. -/
theorem attempt_fair (hVisit : ∀ id, (visit id).IsFair exact) (hGen : gen ∈ table)
    (id : NodeId) : IsFair exact (gen.attempt tree visit id) fun _ => True := by
  rw [← List.take_append_drop 7 table, List.mem_append] at hGen
  rcases hGen with hClause | hUnit
  · exact (fairLogic hVisit id).clauses_attempt hClause ()
  · simp only [table, List.drop_succ_cons, List.drop_zero, List.mem_cons, List.not_mem_nil,
      or_false] at hUnit
    rcases hUnit with rfl | rfl
    · exact constantUnit_fair hVisit id
    · exact basicUnit_fair hVisit id

theorem tier_le_clauses (hGen : gen ∈ table) : gen.tier ≤ Tier.clauses := by
  simp only [table, List.mem_cons, List.not_mem_nil, or_false] at hGen
  rcases hGen with rfl | rfl | rfl | rfl | rfl | rfl | rfl | rfl | rfl
  all_goals decide

theorem tryInOrder_fair (hVisit : ∀ id, (visit id).IsFair exact) (id : NodeId)
    (hGenerators : ∀ gen ∈ generators, gen ∈ table) :
    (tryInOrder tree visit id generators).IsFair exact := by
  induction generators with
  | nil => exact .of_pure none
  | cons gen rest ih =>
    have hRest := ih fun other hOther => hGenerators other (.tail gen hOther)
    apply Agrees.get_bind
    intro left right hAlike
    rw [hAlike.context.errorCount_eq]
    have hAttempt : Agrees exact (Run.Alike exact) (Run.Alike exact)
        (gen.attempt tree visit id).run :=
      fun left right hAlike =>
        (attempt_fair hVisit (hGenerators gen List.mem_cons_self) id left right hAlike).mono
          fun _ _ hBoth => ⟨hBoth.1, hBoth.2.1⟩
    apply hAttempt.bind (fun res => ?_) left right hAlike
    cases res with
    | some name => exact .of_pure (some name)
    | none =>
      apply Agrees.get_bind
      intro left right hAlike
      rw [hAlike.context.errorCount_eq]
      split
      · exact ⟨rfl, hAlike⟩
      · exact hRest left right hAlike

theorem generateWith_fair (hVisit : ∀ id, (visit id).IsFair exact) (id : NodeId) :
    (generateWith tree visit id).IsFair exact := by
  apply Generation.IsFair.tier_bind
  · intro tier
    have hSame : (table.filter fun gen => decide (gen.tier ≤ min tier Tier.clauses)) =
        table.filter fun gen => decide (gen.tier ≤ tier) := by
      apply List.filter_congr
      intro gen hGen
      simp [tier_le_clauses hGen]
    rw [hSame]
  intro tier
  exact tryInOrder_fair hVisit id fun gen hGen => List.mem_of_mem_filter hGen

------ Visits

/- Whoever compiles a node, it is decided about alike. -/
theorem visitNode_fair (hVisit : ∀ id, (visit id).IsFair exact) (id : NodeId) :
    (visitNode tree visit id).IsFair exact := by
  apply Agrees.get_bind
  intro left right hAlike
  rw [hAlike.marking_eq, hAlike.context.errorCount_eq]
  apply Agrees.lift_bind (fun marking => ?_) left right hAlike
  split
  · apply (generateWith_fair hVisit id).bind
    rintro (_ | name)
    · apply Agrees.bind (.of_modify fun _ _ hNext => hNext.mark id .notGenerated)
      intro _
      apply Agrees.get_bind
      intro left right hAlike
      rw [hAlike.context.errorCount_eq]
      split
      · exact Agrees.lift_bind (fun first => visitSiblings_fair hVisit _ first) left right hAlike
      · exact ⟨rfl, hAlike⟩
    · apply Agrees.of_modify
      intro left right hAlike
      have hNext : Run.Alike exact { left with context := left.context.recordCompiled id name }
          { right with
            context := right.context.recordCompiled id name } :=
        ⟨hAlike.context.recordCompiled id name, hAlike.markings⟩
      exact hNext.mark id (.compiled name)
  · exact .of_pure ()

theorem visitWithin_fair (fuel : Nat) (id : NodeId) : (visitWithin tree fuel id).IsFair exact := by
  induction fuel generalizing id with
  | zero => exact .of_throw _
  | succ fuel ih => exact visitNode_fair ih id

theorem visit_fair (tree : SyntaxTree) (id : NodeId) : (Generator.visit tree id).IsFair exact :=
  visitSiblings_fair (visitWithin_fair _) _ _

end Generator

------ Settings

namespace SyntaxTree

open Generator

theorem alike_tierStart (hChecked : exact → first.checked = second.checked)
    (hHasher : exact → first.hasher = second.hasher) {tier : Nat}
    (hTier : min tier Tier.clauses = min other Tier.clauses) :
    (tierStart (tree.startRun (.ofOptions first)) tier).Alike exact
      (tierStart (tree.startRun (.ofOptions second)) other) where
  context :=
    { checked := hChecked
      hasher := hHasher
      tier := hTier
      names := rfl
      machine := rfl
      output := .nil
      globals := rfl
      diagnostics := rfl
      compiled := rfl
      bookings := fun _ _ => rfl
      folded := fun _ => rfl
      declarations := fun _ _ => rfl }
  markings := rfl

/- Compilations at levels that admit the same shapes go alike, whether checks are written or not. -/
theorem compilationPass_agree (hChecked : exact → first.checked = second.checked)
    (hHasher : exact → first.hasher = second.hasher)
    (hLevel : min first.level Tier.clauses = min second.level Tier.clauses) (root : NodeId) :
    Walk.Agree exact (fun left right => left.1 = right.1 ∧ left.2.Alike exact right.2)
      ((tree.compilationPass first root).run (tree.startRun (.ofOptions first)))
      ((tree.compilationPass second root).run (tree.startRun (.ofOptions second))) := by
  have hTier : min first.tier Tier.clauses = min second.tier Tier.clauses := by
    unfold Options.tier Tier.highest
    omega
  unfold Tier.clauses at hLevel
  unfold compilationPass
  by_cases hNone : first.level = 0
  · have hOther : second.level = 0 := by omega
    rw [if_pos hNone, if_pos hOther]
    exact ⟨rfl, alike_tierStart hChecked hHasher hTier⟩
  · have hOther : second.level ≠ 0 := by omega
    rw [if_neg hNone, if_neg hOther]
    by_cases hUnits : first.level = Tier.units
    · have hSame : second.level = Tier.units := by
        unfold Tier.units at hUnits ⊢
        omega
      rw [if_pos hUnits, if_pos hSame]
      exact visit_fair tree root _ _ (alike_tierStart hChecked hHasher rfl)
    · have hSame : second.level ≠ Tier.units := by
        unfold Tier.units at hUnits ⊢
        omega
      rw [if_neg hUnits, if_neg hSame]
      exact visit_fair tree root _ _ (alike_tierStart hChecked hHasher hTier)

theorem CompilesTo.alike (hLeft : tree.CompilesTo first left)
    (hRight : tree.CompilesTo second right)
    (hLevel : min first.level Tier.clauses = min second.level Tier.clauses) :
    left.Alike False right := by
  rcases hLeft with ⟨root, hRoot, hFirst⟩
  rcases hRight with ⟨other, hOther, hSecond⟩
  cases hRoot.symm.trans hOther
  exact (Walk.Agree.of_ok hFirst hSecond
    (compilationPass_agree False.elim False.elim hLevel root)).2

/-
  Whether checks are written changes the bodies of functions and nothing else: the same nodes get
  the same functions, the same problems are recorded, and the same constants are defined outside
  functions.
-/
theorem Conforms.checks_stay_in_functions
    (hTree : tree.Conforms)
    (options : Options) :
    ∃ checked plain : Run, ∃ after : SyntaxTree,
      tree.CompilesTo { options with checked := true } checked ∧
        tree.CompilesTo { options with checked := false } plain ∧
          tree.compile { options with checked := true } =
              .ok (.ok (CompiledSource.ofContext checked.context, after)) ∧
            tree.compile { options with checked := false } =
                .ok (.ok (CompiledSource.ofContext plain.context, after)) ∧
              checked.context.compiled = plain.context.compiled ∧
              checked.context.diagnostics = plain.context.diagnostics ∧
              checked.context.errorCount = plain.context.errorCount ∧
              checked.context.globals = plain.context.globals ∧
              List.Forall₂
                (fun one other => ∃ first second : Function,
                  one = .function first ∧ other = .function second ∧ first.name = second.name ∧
                    first.source = second.source ∧ first.line = second.line)
                checked.context.output plain.context.output := by
  rcases hTree.exists_compilesTo { options with checked := true } with ⟨left, hLeft⟩
  rcases hTree.exists_compilesTo { options with checked := false } with ⟨right, hRight⟩
  have hAlike := hLeft.alike hRight rfl
  refine ⟨left, right, _, hLeft, hRight, hLeft.compile_eq, ?_,
    hAlike.context.compiled, hAlike.context.diagnostics,
    hAlike.context.errorCount_eq, hAlike.context.globals, ?_⟩
  · rw [hAlike.markings]
    exact hRight.compile_eq
  · apply hAlike.context.output.imp
    rintro _ _ ⟨hName, hSource, hLine, -⟩
    exact ⟨_, _, rfl, rfl, hName, hSource, hLine⟩

/- A variable that is divided by another one. -/
def division : SyntaxTree where
  nodes := Figure.nodes [.voided (.assign ⟨9⟩ ⟨0⟩ (.unit .formula ⟨2⟩
      [.valueOf ⟨2⟩ ⟨9⟩ ⟨0⟩, .tagged .operator ⟨2⟩, .valueOf ⟨2⟩ ⟨9⟩ ⟨1⟩]))]
  tags := ⟨#[{ name := "x", mode := ⟨9⟩, kind := .var },
      { name := "y", mode := ⟨9⟩, kind := .var },
      { name := "/", mode := ⟨2⟩, kind := .standard, builtin := some .realDiv }]⟩
  root := some ⟨0⟩

theorem checks_stay_in_functions_division :
    division.Conforms ∧
      ∃ checked plain : Run,
        division.CompilesTo { level := 2, checked := true } checked ∧
          division.CompilesTo { level := 2, checked := false } plain ∧
            checked.context.compiled = plain.context.compiled ∧
            checked.context.diagnostics = plain.context.diagnostics := by
  have hTree : division.Conforms := conforms_of_isOrderly (by decide +kernel)
  rcases hTree.checks_stay_in_functions { level := 2 } with
    ⟨checked, plain, _, hChecked, hPlain, -, -, hCompiled, hDiagnostics, -⟩
  exact ⟨hTree, checked, plain, hChecked, hPlain, hCompiled, hDiagnostics⟩

end SyntaxTree

end Algol68
