import Algol68.Proofs.Generation
import Algol68.Proofs.Reports

/-
  What a fragment comes to.

  A generator plans a fragment and writes its function. It may decline at once or in the middle of
  its plan. It may find problems with the constants of the units it writes in place, or it gives a
  function without any. The next generator is tried only if no problem came up, so what is known
  of a run at the first attempt is known at the last one too.
-/

------ Tours

namespace Algol68

open Relation

variable {α β : Type}

/- From a good run a plan leads to a fair one, and to a good one if it is not declined. -/
def Planning.Tours (good fair : Run → Prop) (planning : Planning α) (post : α → Prop) : Prop :=
  ∀ run, good run → Step.Meets False planning.run run fun result next =>
      fair next ∧ ∀ value ∈ result, good next ∧ post value

/-
  What visits do to a run while a fragment is planned. An item
  must get a function for the plan to go on.
-/
structure Planner.Touring (tree : SyntaxTree) (tier : Nat) (start : NodeId)
    (visit : NodeId → Generation Unit) (good fair : Run → Prop) : Prop where
  tiered : ∀ run, good run → run.context.tier = tier
  eased : ∀ run, good run → fair run
  item : ∀ id kid run, tree.Way tier start id → tree.IsChild id kid → tree.Delegates tier id kid →
      good run → Step.Meets False (visit kid) run fun _ next =>
        fair next ∧ ∀ name, next.Calls kid name → good next
  source : ∀ id kid run, tree.Way tier start id → tree.IsChild id kid → tree.IsInterpreted tier id →
      good run → Step.Meets False (visit kid) run fun _ next => good next

namespace Planning.Tours

theorem of_pure (hFair : ∀ run, good run → fair run) (hPost : post val) :
    Tours good fair (pure val) post := by
  intro run hGood
  refine ⟨hFair run hGood, ?_⟩
  rintro found ⟨⟩
  exact ⟨hGood, hPost⟩

theorem of_failure (hFair : ∀ run, good run → fair run) :
    Tours good fair (failure : Planning α) post :=
  fun run hGood => ⟨hFair run hGood, nofun⟩

/- Visits that are good in any case. -/
theorem of_step (hFair : ∀ run, good run → fair run) {step : Generation Unit}
    (hStep : ∀ run, good run → Step.Meets False step run fun _ next => good next) :
    Tours good fair (liftM step) fun _ => True := by
  intro run hGood
  have hRun : OptionT.run (liftM step : Planning Unit) = step >>= fun _ => pure (some ()) := rfl
  rw [hRun]
  apply (hStep run hGood).bind
  intro _ next hNext
  exact .of_pure ⟨hFair next hNext, fun _ _ => ⟨hNext, trivial⟩⟩

variable {rest : α → Planning β}

theorem bind (hFirst : Tours good fair planning post)
    (hRest : ∀ val, post val → Tours good fair (rest val) after) :
    Tours good fair (planning >>= rest) after := by
  intro run hGood
  rw [OptionT.run_bind]
  apply (hFirst run hGood).bind
  rintro (_ | val) mid ⟨hFair, hVal⟩
  · exact ⟨hFair, nofun⟩
  · rcases hVal val rfl with ⟨hMid, hPost⟩
    exact hRest val hPost mid hMid

theorem walk_bind {walk : Walk α}
    (hRest : ∀ val, walk = .ok val → Tours good fair (rest val) after) :
    Tours good fair (liftM walk >>= rest) after := by
  intro run hGood
  cases hVal : walk with
  | ok val => exact hRest val hVal run hGood
  | error fault => exact False.elim

end Planning.Tours

variable {tree : SyntaxTree}

namespace Planner

open Planning SyntaxTree

variable {id : NodeId}

theorem visitSiblings_keeps {keeps : Run → Prop} (hSibs : tree.Siblings first ids)
    (hVisit : ∀ id ∈ ids, ∀ run, keeps run →
      Step.Meets False (visit id) run fun _ next => keeps next) (hRun : keeps run) :
    Step.Meets False (visitSiblings tree visit fuel first) run fun _ next => keeps next := by
  induction fuel generalizing first ids run with
  | zero =>
    cases first with
    | none => exact hRun
    | some head => exact False.elim
  | succ fuel ih =>
    cases first with
    | none => exact hRun
    | some head =>
      rcases hSibs.exists_rest with ⟨rest, node, rfl, hNode, hRest⟩
      apply (hVisit head List.mem_cons_self run hRun).bind
      intro _ mid hMid
      apply Step.Meets.lift_bind hNode
      exact ih hRest (fun id hId => hVisit id (.tail head hId)) hMid

theorem visitSources_keeps (hShaped : tree.IsShaped)
    (hTouring : Touring tree tier start visit good fair) (hWay : tree.Way tier start id)
    (hInterpreted : tree.IsInterpreted tier id) (hSub : tree.sub? id = .ok first)
    (hGood : good run) :
    Step.Meets False (visitSiblings tree visit tree.bound first) run fun _ next => good next := by
  rcases Walk.bind_eq_ok.mp hSub with ⟨node, hNode, hFound⟩
  cases hFound
  rcases hShaped.children_ends hNode with ⟨kids, hKids⟩
  apply visitSiblings_keeps (siblings_of_children hNode hKids)
  · intro kid hKid run hRun
    exact hTouring.source id kid run hWay ⟨kids, hKids, hKid⟩ hInterpreted hRun
  · exact hGood

/- A unit that is not written in place must get a function. -/
theorem called_tours (hTouring : Touring tree tier start visit good fair)
    (hWay : tree.Way tier start list) (hChild : tree.IsChild list id)
    (hDelegates : tree.Delegates tier list id) :
    Tours good fair (do
        visit id
        match ← (← get).marking id with
        | .compiled func => pure (.call func)
        | _ => failure : Planning ItemKind)
      fun kind => ∃ func, kind = .call func ∧ True := by
  intro run hGood
  have hVisit := hTouring.item list id run hWay hChild hDelegates hGood
  rw [OptionT.run_bind]
  have hStep : Step.Meets False (OptionT.run (liftM (visit id) : Planning Unit)) run
      fun res next => res = some () ∧ fair next ∧ ∀ name, next.Calls id name → good next := by
    exact hVisit.bind fun _ _ hNext => .of_pure ⟨rfl, hNext⟩
  apply hStep.bind
  rintro _ next ⟨rfl, hFair, hGoods⟩
  apply meets_get_bind
  apply meets_walk_bind False.elim
  intro marking hMarking
  cases marking with
  | compiled func =>
    refine ⟨hFair, ?_⟩
    rintro kind ⟨⟩
    exact ⟨hGoods func hMarking, func, rfl, trivial⟩
  | pending | notGenerated => exact ⟨hFair, nofun⟩

end Planner

------ Attempts

theorem Context.Complains.mono (hComplains : Context.Complains known before after)
    (hWider : ∀ id, known id → wider id) : Context.Complains wider before after := by
  rcases hComplains with ⟨extra, hSome, hNew, hOnce, hEach⟩
  refine ⟨extra, hSome, hNew, hOnce, ?_⟩
  intro diag hMem
  exact ⟨(hEach diag hMem).1, hWider _ (hEach diag hMem).2⟩

theorem Context.Complains.errorCount_lt (hComplains : Context.Complains known before after) :
    before.errorCount < after.errorCount := by
  rcases hComplains with ⟨extra, hSome, hNew, -, -⟩
  have hLen : 0 < extra.length := List.length_pos_iff.mpr hSome
  rw [before.counted, after.counted, hNew, List.length_append]
  omega

/-
  What one attempt at a fragment leads to. It may be declined for a reason at any point of the
  plan. Once the plan is made there is a problem, or there is cause for a function.
-/
inductive Run.Tried (good fair : Run → Prop) (exposes : NodeId → Prop)
    (reason cause : Prop) : Option String → Run → Prop
  | declined {next : Run} (hFair : fair next) (hReason : reason) :
      Tried good fair exposes reason cause none next
  | reported {middle : Run} {ctx : Context} (hGood : good middle)
      (hTier : ctx.tier = middle.context.tier) (hComplains :
        Context.Complains exposes middle.context ctx) :
      Tried good fair exposes reason cause none { middle with context := ctx }
  | given {middle : Run} {ctx : Context} {name : String} (hGood : good middle)
      (hTier : ctx.tier = middle.context.tier) (hSame :
        ctx.diagnostics = middle.context.diagnostics) (hCause : cause) :
      Tried good fair exposes reason cause (some name) { middle with context := ctx }

/- An attempt at a fragment from a good run. -/
def Planning.Trials (good fair : Run → Prop) (exposes : NodeId → Prop) (reason cause : Prop)
    (planning : Planning String) : Prop :=
  ∀ run, good run → Step.Meets False planning.run run (Run.Tried good fair exposes reason cause)

namespace Planning.Trials

theorem mono (hTrials : Trials good fair exposes reason cause planning) (hReason : reason → weak)
    (hCause : cause → res) : Trials good fair exposes weak res planning := by
  intro run hGood
  apply (hTrials run hGood).mono
  intro res next hTried
  cases hTried with
  | declined hFair hStrong => exact .declined hFair (hReason hStrong)
  | reported hMid hTier hComplains => exact .reported hMid hTier hComplains
  | given hMid hTier hSame hStrong => exact .given hMid hTier hSame (hCause hStrong)

theorem of_tours (hTours : Tours good fair planning fun _ => False) (hReason : reason) :
    Trials good fair exposes reason cause planning := by
  intro run hGood
  apply (hTours run hGood).mono
  rintro (_ | name) next ⟨hFair, hNever⟩
  · exact .declined hFair hReason
  · exact (hNever name rfl).2.elim

/- A plan is made before the function is written. -/
theorem bind {planning : Planning α} (hTours : Tours good fair planning post)
    (hRest : ∀ val, post val → Trials good fair exposes True cause (rest val)) :
    Trials good fair exposes True cause (planning >>= rest) := by
  intro run hGood
  rw [OptionT.run_bind]
  apply (hTours run hGood).bind
  rintro (_ | val) mid ⟨hFair, hVal⟩
  · exact .declined hFair trivial
  · rcases hVal val rfl with ⟨hMid, hPost⟩
    exact hRest val hPost mid hMid

theorem walk_bind {walk : Walk α}
    (hRest : ∀ val, walk = .ok val → Trials good fair exposes reason cause (rest val)) :
    Trials good fair exposes reason cause (liftM walk >>= rest) := by
  intro run hGood
  apply meets_walk_bind False.elim
  intro val hVal
  exact hRest val hVal run hGood

end Planning.Trials

------ Unions

/- A basic value of a mode that a union has. -/
structure SyntaxTree.Unites (tree : SyntaxTree) (tier : Nat) (id operand : NodeId) : Prop where
  attr : tree.is id .uniting = .ok true
  sub : tree.sub? id = .ok (some operand)
  modes : ∃ union mode alternatives alternative, tree.mode? id = .ok (some union) ∧
      tree.mode? operand = .ok (some mode) ∧ tree.modes.kind union = .ok (.union alternatives) ∧
          alternatives.idxOf? mode = some alternative
  basic : tree.isBasic operand tier = .ok true

------ Generators

variable {visit : NodeId → Generation Unit} {tier : Nat}

namespace Generator

open Emission Planning Planner SyntaxTree

variable {good : Run → Prop} {start : NodeId}
/- A function is written, or there are problems with its units. -/
theorem emit_trials (hTree : tree.IsRegular)
    (hDraft : Draft tree (tree.Exposed tier start) writer) (hCause : cause) (name : String) :
    Trials good fair (tree.Exposes tier start) reason cause (emit tree start name writer) := by
  intro run hGood
  apply (Run.inContext_meets (Context.emitFunction_reports hTree
    hDraft start name run.context)).mono
  rintro res _ ⟨ctx, ⟨hTier, hRes⟩, rfl⟩
  rcases hRes with ⟨rfl, hComplains⟩ | ⟨rfl, hSame⟩
  · exact .reported hGood hTier (hComplains.mono fun _ => .inr)
  · exact .given hGood hTier hSame hCause

/- The logic of the runs that come up while a fragment is planned. -/
def tourLogic (hTree : tree.Conforms) (hTouring : Touring tree tier start visit good fair) :
    Generator.Logic tree visit start where
  total := False
  known := True
  tier := tier
  inside := fun _ => True
  Point := Unit
  Later := fun _ _ => True
  Calls := fun _ _ _ => True
  Holds := fun _ planning post => planning.Tours good fair (post ())
  spans := .anywhere
  conforms := fun _ => hTree
  trans := fun _ _ => trivial
  calls := fun _ _ => trivial
  of_pure := fun hPost => .of_pure hTouring.eased (hPost () trivial)
  of_failure := .of_failure hTouring.eased
  mono := fun hTours hPost run hGood => (hTours run hGood).mono fun _ next hNext =>
    ⟨hNext.1, fun value hValue => (hNext.2 value hValue).imp_right (hPost () value)⟩
  bind := fun hFirst hRest => hFirst.bind fun value hPost => hRest value () trivial hPost
  walk_bind := fun _ hRest => .walk_bind hRest
  tier_bind := fun _ hRest run hGood =>
    hRest run.context.tier (fun _ => hTouring.tiered run hGood) run hGood
  of_item := fun _ hPlace => by
    rcases hPlace trivial with ⟨list, hWay, hChild, hDelegates⟩
    exact called_tours hTouring hWay hChild hDelegates
  of_sources := fun _ hFirst hPlace => by
    rcases hPlace trivial with ⟨hWay, hInterpreted⟩
    exact .of_step hTouring.eased fun run hGood =>
      visitSources_keeps hTree.shaped hTouring hWay hInterpreted hFirst hGood
  Attempts := fun _ planning => planning.Trials good fair (tree.Exposes tier start) True True
  leads := .anywhere start
  declined := fun run hGood => .declined (hTouring.eased run hGood) trivial
  attempt := fun hTours hRest => .bind hTours fun value hPost => hRest value () hPost
  attempt_walk := fun _ hRest => .walk_bind hRest
  attempt_tier := fun _ hRest run hGood =>
    hRest run.context.tier (fun _ => hTouring.tiered run hGood) run hGood
  attempt_emit := fun _ _ _ _ hDraft => emit_trials hTree.toIsRegular (hDraft trivial) trivial _

variable (hTree : tree.Conforms) (hTouring : Touring tree tier start visit good fair)

include hTree hTouring

/- Nothing is injected but a basic value of a mode of its union. -/
theorem uniting_tours (hOther : ¬ ∃ op, tree.Unites tier start op) :
    (tourLogic hTree hTouring).Holds () (uniting tree visit start) fun _ _ => False := by
  let logic := tourLogic hTree hTouring
  apply logic.bind (logic.ensure_holds False.elim)
  intro _ _ _ hIs
  apply logic.bind (logic.needed_holds False.elim)
  intro union _ _ hUnion
  apply logic.bind (logic.needed_holds False.elim)
  intro op _ _ hOp
  apply logic.bind (logic.needed_holds False.elim)
  intro mode _ _ hMode
  apply logic.walk_bind False.elim
  intro kind hKind
  split
  · apply logic.bind (logic.needed_holds False.elim)
    intro alternative _ _ hIdx
    apply logic.tier_bind fun tier => by simp only [isBasic_min]
    intro found hTier
    apply logic.bind (logic.ensure_holds False.elim)
    intro _ _ _ hBasic
    rw [hTier trivial] at hBasic
    exact absurd ⟨op, hIs, hOp, ⟨union, mode, _, alternative, hUnion, hMode, hKind,
      Except.ok.inj hIdx⟩, hBasic⟩ hOther
  · exact logic.of_failure

/- A basic value of a mode that its union has is not declined. -/
theorem uniting_trials :
    Trials good fair (tree.Exposes tier start) (¬ ∃ op, tree.Unites tier start op)
      (∃ op, tree.Unites tier start op) (uniting tree visit start) := by
  by_cases hUnites : ∃ op, tree.Unites tier start op
  · rcases hUnites with ⟨op, hIs, hOp, hModes, hBasic⟩
    rcases hModes with ⟨union, mode, alternatives, alternative, hUnion, hMode, hKind, hIdx⟩
    intro run hGood
    apply meets_ensure_bind hIs
    apply meets_needed_bind hUnion
    apply meets_needed_bind hOp
    apply meets_needed_bind hMode
    apply meets_walk_bind False.elim
    intro kind hFound
    cases hKind.symm.trans hFound
    apply meets_needed_bind (congrArg Except.ok hIdx)
    have hTier := hTouring.tiered run hGood
    subst hTier
    apply meets_ensure_bind hBasic
    apply meets_walk_bind False.elim
    intro whole _
    apply meets_walk_bind False.elim
    intro part _
    apply meets_walk_bind False.elim
    intro name _
    exact emit_trials hTree.toIsRegular (.injection ⟨.single (keeps_of_attr (attr_of_is hIs) rfl rfl
        (isChild_of_sub? hTree.shaped hOp)), hBasic⟩)
      ⟨op, hIs, hOp, ⟨union, mode, alternatives, alternative, hUnion, hMode, hKind,
        hIdx⟩, hBasic⟩ name run hGood
  · exact .of_tours (uniting_tours hTree hTouring hUnites) hUnites

/- The last generator declines only what is not basic. -/
theorem basicUnit_trials :
    Trials good fair (tree.Exposes tier start) (tree.isBasic start tier ≠ .ok true)
      (tree.isBasic start tier = .ok true) (basicUnit tree visit start) := by
  intro run hGood
  have hTier := hTouring.tiered run hGood
  subst hTier
  change Step.Meets False (ensure (tree.isBasic start run.context.tier) >>= _ : Planning _).run
    run _
  cases hBasic : tree.isBasic start run.context.tier with
  | error fault => exact False.elim
  | ok isBasic =>
    cases isBasic with
    | false => exact .declined (hTouring.eased run hGood) nofun
    | true =>
      apply meets_walk_bind False.elim
      intro attr _
      apply meets_walk_bind False.elim
      intro name _
      exact emit_trials hTree.toIsRegular (.value ⟨.refl, hBasic⟩) rfl name run hGood

omit hTree hTouring

/- A constant with a value gets a function; the problem of one without is reported at its node. -/
theorem constant_trials (hTree : tree.Conforms) (hUnit : IsConstantUnit tree start entry mode)
    (hCause : cause) :
    Trials good fair (tree.Exposes tier start) reason cause (constantUnit tree visit start) := by
  have hAttr : ¬ (entry.attr ≠ .denoter ∧ entry.attr ≠ .identifier) := by
    rcases hUnit.attr with hAttr | hAttr <;> simp [hAttr]
  intro run hGood
  apply meets_walk_bind False.elim
  intro node hNode
  cases hUnit.node.symm.trans hNode
  rw [if_neg hAttr]
  apply meets_needed_bind (congrArg Except.ok hUnit.moded)
  apply meets_ensure_bind hUnit.foldable
  apply meets_ensure_bind hUnit.constant
  rw [OptionT.run_bind]
  apply Step.Meets.bind (Run.inContext_meets (Context.fold_meets False.elim False.elim))
  rintro val _ ⟨folded, ⟨_, machine, -, -, hFolds⟩, rfl⟩
  have hKept : folded.tier = run.context.tier := by cases hFolds <;> rfl
  have hSame : ∀ found ∈ val, folded.diagnostics = run.context.diagnostics := by
    rintro found rfl
    cases hFolds <;> rfl
  cases val with
  | none =>
    cases hFolds with
    | @failed diag hNode hFolding =>
      refine .reported hGood rfl ⟨[diag], by simp, rfl, by simp, ?_⟩
      rw [List.forall_mem_singleton]
      exact ⟨hFolding, .inl hNode⟩
  | some val =>
    have hSame := hSame val rfl
    apply meets_walk_bind False.elim
    intro modeName _
    apply meets_get_bind
    generalize "_" ++ entry.attr.shortName ++ "_" ++ modeName ++ "_" ++ val.key = name
    by_cases hTaken : folded.hasName name = true
    · rw [if_pos hTaken]
      exact .of_pure (.given hGood hKept hSame hCause)
    · rw [if_neg hTaken, OptionT.run_bind]
      apply (takeName_meets name _).bind
      rintro _ _ ⟨rfl, rfl⟩
      apply meets_walk_bind False.elim
      intro push _
      have hDraft : Draft tree (fun _ => False) (.ofStatements [push]) := .statements
      apply (Run.inContext_meets
        (Context.emitFunction_reports hTree.toIsRegular hDraft start name _)).mono
      rintro _ _ ⟨ctx, ⟨hTier, ⟨-, extra, hSome, -, -, hEach⟩ | ⟨rfl, hNew⟩⟩, rfl⟩
      · -- No unit is written, so there is none to complain about.
        rcases List.exists_mem_of_ne_nil extra hSome with ⟨diag, hMem⟩
        rcases (hEach diag hMem).2 with ⟨_, hNone, -⟩
        exact hNone.elim
      · rw [Context.takeName_eq] at hTier hNew
        have hGiven : Run.Tried good fair (tree.Exposes tier start) reason cause (some name)
            { run with context := ctx } :=
          .given hGood (hTier.trans hKept) (hNew.trans hSame) hCause
        exact hGiven

/- Nothing but constants is taken for one. -/
theorem constantUnit_trials (hTree : tree.Conforms)
    (hTouring : Touring tree tier start visit good fair) :
    Trials good fair (tree.Exposes tier start)
      (¬ ∃ entry mode, IsConstantUnit tree start entry mode)
      (∃ entry mode, IsConstantUnit tree start entry mode) (constantUnit tree visit start) := by
  by_cases hUnit : ∃ entry mode, IsConstantUnit tree start entry mode
  · rcases hUnit with ⟨entry, mode, hUnit⟩
    exact constant_trials hTree hUnit ⟨entry, mode, hUnit⟩
  · refine .of_tours ((tourLogic hTree hTouring).constantUnit_declines ?_ ()) hUnit
    exact fun entry mode hFound => hUnit ⟨entry, mode, hFound⟩

end Generator

------ All Generators

/-
  What all generators together come to. A fragment is refused
  without a problem, given up for one, or given a function.
-/
inductive Run.Decided (good fair : Run → Prop) (exposes : NodeId → Prop) (errors : Nat)
    (reason cause : Prop) : Option String → Run → Prop
  | refused {next : Run} (hGood : good next) (hErrors : next.context.errorCount ≤ errors)
      (hReason : reason) :
      Decided good fair exposes errors reason cause none next
  | abandoned {next : Run} (hFair : fair next) (hErrors : errors < next.context.errorCount) :
      Decided good fair exposes errors reason cause none next
  | reported {middle : Run} {ctx : Context} (hGood : good middle)
      (hTier : ctx.tier = middle.context.tier) (hComplains :
        Context.Complains exposes middle.context ctx)
      (hErrors : errors < ctx.errorCount) :
      Decided good fair exposes errors reason cause none { middle with context := ctx }
  | given {middle : Run} {ctx : Context} {name : String} (hGood : good middle)
      (hTier : ctx.tier = middle.context.tier) (hSame :
        ctx.diagnostics = middle.context.diagnostics) (hCause : cause) :
      Decided good fair exposes errors reason cause (some name) { middle with context := ctx }

theorem Run.Decided.mono (hDecided : Run.Decided good fair exposes errors reason cause res next)
    (hReason : reason → weak) (hCause : cause → granted) :
    Run.Decided good fair exposes errors weak granted res next := by
  cases hDecided with
  | refused hGood hErrs hStrong => exact .refused hGood hErrs (hReason hStrong)
  | abandoned hFair hErrs => exact .abandoned hFair hErrs
  | reported hGood hTier hComplains hErrs => exact .reported hGood hTier hComplains hErrs
  | given hGood hTier hSame hStrong => exact .given hGood hTier hSame (hCause hStrong)

/- What a generator below the tier of clauses asks of a node. -/
def Generator.Asks (tree : SyntaxTree) (tier : Nat) (id : NodeId) (generator : Generator) : Prop :=
  match generator.shape with
  | "uniting" => ∃ operand, tree.Unites tier id operand
  | "constant" => ∃ entry mode, Generator.IsConstantUnit tree id entry mode
  | _ => tree.isBasic id tier = .ok true

/- The nodes that get functions whatever stands below them. -/
def SyntaxTree.Accepts (tree : SyntaxTree) (tier : Nat) (id : NodeId) : Prop :=
  ∃ generator ∈ Generator.table, generator.tier ≤ tier ∧ generator.tier < Tier.clauses ∧
    generator.Asks tree tier id

namespace Generator

open Emission Planning Planner SyntaxTree

/-
  Problems are never withdrawn while a fragment is planned, and
  a run without new ones is as good as it was at the start.
-/
structure Renewing (good fair : Run → Prop) (errors : Nat) : Prop where
  grown : ∀ run, good run → errors ≤ run.context.errorCount
  again : ∀ run, fair run → run.context.errorCount ≤ errors → good run

/- The reasons for which all generators of a list declined. -/
theorem tryInOrder_decides (hRenewing : Renewing good fair errors) {reason cause : Generator → Prop}
    (hTrials : ∀ gen ∈ generators, Trials good fair exposes (reason gen)
        (cause gen) (gen.attempt tree visit start)) (hGood : good run)
    (hErrs : run.context.errorCount ≤ errors) :
    Step.Meets False (tryInOrder tree visit start generators) run
      (Run.Decided good fair exposes errors (∀ gen ∈ generators, reason gen)
        (∃ gen ∈ generators, cause gen)) := by
  induction generators generalizing run with
  | nil => exact .of_pure (.refused hGood hErrs nofun)
  | cons gen rest ih =>
    have hGrown := hRenewing.grown run hGood
    apply Step.Meets.get_bind
    apply (hTrials gen List.mem_cons_self run hGood).bind
    intro res next hTried
    cases hTried with
    | declined hFair hReason =>
      apply Step.Meets.get_bind
      split
      · rename_i hMore
        exact .of_pure (.abandoned hFair (by omega))
      · rename_i hSame
        have hCount : next.context.errorCount ≤ errors := by omega
        apply (ih (fun other hOther => hTrials other (.tail _ hOther))
          (hRenewing.again next hFair hCount) hCount).mono
        intro answer last hDecided
        exact hDecided.mono (fun hReasons => List.forall_mem_cons.mpr ⟨hReason, hReasons⟩)
          fun ⟨other, hOther, hCause⟩ => ⟨other, .tail _ hOther, hCause⟩
    | @reported mid ctx hMid hTier hComplains =>
      have hLess := hComplains.errorCount_lt
      have hBelow := hRenewing.grown mid hMid
      have hMore : errors < ctx.errorCount := by omega
      apply Step.Meets.get_bind
      rw [if_pos (by dsimp only; omega)]
      exact .of_pure (.reported hMid hTier hComplains hMore)
    | given hMid hTier hSame hCause =>
      exact .of_pure (.given hMid hTier hSame ⟨gen, List.mem_cons_self, hCause⟩)

variable (hTree : tree.Conforms) (hTouring : Touring tree tier start visit good fair)

include hTree hTouring

/- Below the tier of clauses it is told what is given a function. -/
theorem table_trials (hGen : gen ∈ table) : Trials good fair (tree.Exposes tier start)
      (gen.tier < Tier.clauses → ¬ gen.Asks tree tier start)
      (gen.tier < Tier.clauses → gen.Asks tree tier start)
      (gen.attempt tree visit start) := by
  have hClause {reason cause : Prop} {gen : Generator} (hFirst : gen ∈ table.take 7)
      (hReason : reason) (hCause : cause) :
      Trials good fair (tree.Exposes tier start) reason cause (gen.attempt tree visit start) :=
    Trials.mono ((tourLogic hTree hTouring).clauses_attempt hFirst ()) (fun _ => hReason)
      fun _ => hCause
  simp only [table, List.mem_cons, List.not_mem_nil, or_false] at hGen
  rcases hGen with
    rfl | rfl | rfl | rfl | rfl | rfl | rfl | rfl | rfl
  iterate 6 exact hClause (by simp [table]) (absurd · (by decide)) (absurd · (by decide))
  · exact (uniting_trials hTree hTouring).mono (fun h _ => h) fun h _ => h
  · exact (constantUnit_trials hTree hTouring).mono (fun h _ => h) fun h _ => h
  · exact (basicUnit_trials hTree hTouring).mono (fun h _ => h) fun h _ => h

/-
  What becomes of a fragment. Only what is not accepted is refused without a problem, and below
  the tier of clauses nothing else is given a function.
-/
theorem generateWith_refuses (hRenewing : Renewing good fair errors) (hGood : good run)
    (hErrs : run.context.errorCount ≤ errors) :
    Step.Meets False (generateWith tree visit start) run
      (Run.Decided good fair (tree.Exposes tier start) errors (¬ tree.Accepts tier start)
        (tier < Tier.clauses → tree.Accepts tier start)) := by
  have hTier := hTouring.tiered run hGood
  subst hTier
  apply (tryInOrder_decides hRenewing (fun gen hGen => table_trials hTree hTouring
      (List.mem_of_mem_filter hGen)) hGood hErrs).mono
  intro res next hDecided
  apply hDecided.mono
  · rintro hReasons ⟨gen, hMem, hTier, hLow, hAsks⟩
    exact hReasons gen (List.mem_filter.mpr ⟨hMem, decide_eq_true hTier⟩) hLow hAsks
  · rintro ⟨gen, hGen, hCause⟩ hLow
    rcases List.mem_filter.mp hGen with ⟨hMem, hTier⟩
    have hBelow := of_decide_eq_true hTier
    exact ⟨gen, hMem, hBelow, hBelow.trans_lt hLow, hCause (hBelow.trans_lt hLow)⟩

omit hTree hTouring in
theorem accepts_of_isBasic (hBasic : tree.isBasic start tier = .ok true) :
    tree.Accepts tier start :=
  ⟨⟨Tier.units, "unit", basicUnit⟩, by simp [table], (isBasic_eq_true.mp hBasic).1, by decide,
    hBasic⟩

theorem generateWith_decides (hRenewing : Renewing good fair errors) (hGood : good run)
    (hErrs : run.context.errorCount ≤ errors) :
    Step.Meets False (generateWith tree visit start) run
      (Run.Decided good fair (tree.Exposes tier start) errors
        (tree.isBasic start tier ≠ .ok true) True) := by
  apply (generateWith_refuses hTree hTouring hRenewing hGood hErrs).mono
  intro res next hDecided
  exact hDecided.mono (fun hOther hBasic => hOther (accepts_of_isBasic hBasic)) fun _ => trivial

end Generator

end Algol68
