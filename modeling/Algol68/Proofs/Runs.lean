import Algol68.Proofs.Sites

/-
  The moves of a compilation.

  Whatever a generator does, it comes down to a few moves: a quiet change of the context, a
  decision against a node, and the compilation of a node that was pending. Every function was
  drawn up for a node that was compiled.
-/

------ Outcomes

namespace Algol68

namespace Generator

open Emission

/- The value that a constant was found to have. -/
def FoldsTo (tree : SyntaxTree) (id : NodeId) (value : Value) : Prop :=
  ∃ before after, (Context.fold tree id).run before = .ok (some value, after)

/- The name of the function of a constant. -/
def constantName (tree : SyntaxTree) (node : Node) (mode : ModeId)
    (value : Value) : Walk String := do
  let modeName ← tree.modes.codeName mode
  pure ("_" ++ node.attr.shortName ++ "_" ++ modeName ++ "_" ++ value.key)

/-
  How a node came to have a function of a name: it has one of its own, it is the first of the
  constants that share it, or a later one of these.
-/
inductive Outcome (tree : SyntaxTree) (id : NodeId) (name : String)
    (before : Context) : Context → Prop
  | own {attr : Attribute} {writer : Writer} {function : Function} {after : Context}
      (hAttr : tree.attr id = .ok attr) (hName : functionName tree id attr.shortName = .ok name)
      (hOther : ∀ node mode, ¬ IsConstantUnit tree id node mode) (hWriter : Planned tree writer)
      (hEmitted : Emitted writer function) (hFunction : function.name = name)
      (hDefines : before.Defines function after) :
      Outcome tree id name before after
  | first {node : Node} {mode : ModeId} {value : Value} {body : List Stmt} {function : Function}
      {after : Context} (hUnit : IsConstantUnit tree id node mode) (hValue : FoldsTo tree id value)
      (hName : constantName tree node mode value = .ok name) (hNew : before.hasName name = false)
      (hEmitted : Emitted (.ofStatements body) function) (hFunction : function.name = name)
      (hDefines : (before.takeName name).Defines function after) :
      Outcome tree id name before after
  | shared {node : Node} {mode : ModeId} {value : Value} (hUnit : IsConstantUnit tree id node mode)
      (hValue : FoldsTo tree id value) (hName : constantName tree node mode value = .ok name)
      (hTaken : before.hasName name = true) :
      Outcome tree id name before before

end Generator

------ Moves

variable {id : NodeId} {tree : SyntaxTree} {run : Run}

namespace Run

open Generator

variable {next : Run} {marking : Marking}

@[simp] theorem size_mark (run : Run) (id : NodeId) (marking : Marking) :
    (run.mark id marking).markings.size = run.markings.size := by
  simp [mark]

theorem marking_mark_of_ne (hOther : other ≠ id) (marking : Marking) :
    (run.mark id marking).marking other = run.marking other := by
  have hNum : id.number ≠ other.number := fun hSame => hOther (Handle.ext hSame.symm)
  simp [Run.marking, mark, Array.getElem?_setIfInBounds_ne hNum]

theorem marking_mark (hBefore : run.marking id = .ok before) :
    (run.mark id marking).marking id = .ok marking := by
  unfold Run.marking at hBefore
  split at hBefore
  · rename_i hFound
    have hBound : id.number < run.markings.size := (Array.getElem?_eq_some_iff.mp hFound).1
    simp [Run.marking, mark, hBound]
  · cases hBefore

/- Something was decided about a node. -/
def Annotated (run : Run) (id : NodeId) : Prop :=
  ∃ marking, run.marking id = .ok marking ∧ marking ≠ .pending

theorem Annotated.congr (hAnnotated : run.Annotated id) (hSame : next.marking id = run.marking id) :
    next.Annotated id := by
  rcases hAnnotated with ⟨marking, hMarking, hDecided⟩
  exact ⟨marking, hSame.trans hMarking, hDecided⟩

theorem not_annotated_of_pending (hPending : run.marking id = .ok .pending) :
    ¬ run.Annotated id := by
  rintro ⟨marking, hMarking, hDecided⟩
  rw [hPending, Except.ok.injEq] at hMarking
  exact hDecided hMarking.symm

theorem annotated_mark (hPending : run.marking id = .ok .pending) (hDecided : marking ≠ .pending) :
    (run.mark id marking).Annotated id :=
  ⟨marking, marking_mark hPending, hDecided⟩

/- Record that a node has a function. -/
def compiledAs (run : Run) (ctx : Context) (id : NodeId) (name : String) : Run :=
  { run with context := ctx.recordCompiled id name }.mark id (.compiled name)

/- What a compilation may do to its run, deciding only about nodes of a part of the tree. -/
inductive Moves (tree : SyntaxTree) (inside : NodeId → Prop) : Run → Run → Prop
  | quiet {run : Run} {ctx : Context} (hQuiet : run.context.Quiet ctx) :
      Moves tree inside run { run with context := ctx }
  | decline {run : Run} {id : NodeId} (hInside : inside id)
      (hPending : run.marking id = .ok .pending) :
      Moves tree inside run (run.mark id .notGenerated)
  | compile {run : Run} {id : NodeId} {name : String} {ctx : Context} (hInside : inside id)
      (hPending : run.marking id = .ok .pending)
      (hOutcome : Outcome tree id name run.context ctx) :
      Moves tree inside run (run.compiledAs ctx id name)
  | trans {run middle next : Run} (hFirst : Moves tree inside run middle)
      (hSecond : Moves tree inside middle next) :
      Moves tree inside run next

namespace Moves

theorem refl (run : Run) : run.Moves tree inside run := .quiet (.refl run.context)

variable (hMoves : run.Moves tree inside next)

include hMoves

theorem mono (hWider : ∀ id, inside id → wider id) : run.Moves tree wider next := by
  induction hMoves with
  | quiet hQuiet => exact .quiet hQuiet
  | decline hInside hPending => exact .decline (hWider _ hInside) hPending
  | compile hInside hPending hOutcome => exact .compile (hWider _ hInside) hPending hOutcome
  | trans _ _ ihFirst ihSecond => exact ihFirst.trans ihSecond

theorem size_eq : next.markings.size = run.markings.size := by
  induction hMoves with
  | quiet _ => rfl
  | decline | compile => exact size_mark _ _ _
  | trans _ _ ihFirst ihSecond => exact ihSecond.trans ihFirst

/- Nothing is decided about nodes elsewhere. -/
theorem marking_eq (hOutside : ¬ inside id) : next.marking id = run.marking id := by
  induction hMoves with
  | quiet _ => rfl
  | decline hInside | compile hInside =>
    apply marking_mark_of_ne
    rintro rfl
    exact hOutside hInside
  | trans _ _ ihFirst ihSecond => exact ihSecond.trans ihFirst

/- What was decided is not decided again. -/
theorem settled (hAnnotated : run.Annotated id) : next.marking id = run.marking id := by
  have hOther : ∀ {run : Run} {other : NodeId},
      run.Annotated id → run.marking other = .ok .pending → id ≠ other := by
    rintro run _ hDone hPending rfl
    exact not_annotated_of_pending hPending hDone
  induction hMoves with
  | quiet _ => rfl
  | decline _ hPending | compile _ hPending =>
    exact marking_mark_of_ne (hOther hAnnotated hPending) _
  | trans _ _ ihFirst ihSecond =>
    have hMid := ihFirst hAnnotated
    exact (ihSecond (hAnnotated.congr hMid)).trans hMid

theorem annotated (hAnnotated : run.Annotated id) : next.Annotated id :=
  hAnnotated.congr (hMoves.settled hAnnotated)

end Moves

end Run

------ Functions of Compiled Nodes

namespace Generator

open Emission

/- What an outcome leaves alone. -/
theorem Outcome.compiled_eq (hOutcome : Outcome tree id name before after) :
    after.compiled = before.compiled := by
  cases hOutcome with
  | own _ _ _ _ _ _ hDefines =>
    rcases hDefines with ⟨mid, hQuiet, rfl⟩
    exact hQuiet.compiled
  | first _ _ _ _ _ _ hDefines =>
    rcases hDefines with ⟨mid, hQuiet, rfl⟩
    refine hQuiet.compiled.trans ?_
    rw [Context.takeName_eq]
  | shared _ _ _ _ => rfl

end Generator

namespace Run

open Generator Emission

/- A node has a function of a name. -/
def Calls (run : Run) (id : NodeId) (name : String) : Prop := run.marking id = .ok (.compiled name)

theorem Moves.calls (hMoves : run.Moves tree inside next) (hCalls : run.Calls id name) :
    next.Calls id name :=
  (hMoves.settled ⟨_, hCalls, nofun⟩).trans hCalls

/- A function was drawn up for a node. -/
def HasFunction (tree : SyntaxTree) (run : Run) (id : NodeId) (function : Function) : Prop :=
  ∃ writer, Drawn tree run.Calls id writer ∧ Issued writer function

theorem HasFunction.of_moves (hFun : run.HasFunction tree id function)
    (hMoves : run.Moves tree inside next) : next.HasFunction tree id function := by
  rcases hFun with ⟨writer, hDrawn, hIssued⟩
  exact ⟨writer, hDrawn.mono fun _ _ => hMoves.calls, hIssued⟩

/-
  Every function was drawn up for a node that was compiled, and every such node has a function, if
  only that of a constant it is equal to.
-/
structure IsDrawn (tree : SyntaxTree) (run : Run) : Prop where
  functions : ∀ function, Fragment.function function ∈ run.context.output →
      ∃ id, (id, function.name) ∈ run.context.compiled ∧ run.HasFunction tree id function
  nodes : ∀ id name, (id, name) ∈ run.context.compiled →
    (∃ node mode, IsConstantUnit tree id node mode) ∨ ∃ function,
        Fragment.function function ∈ run.context.output ∧ function.name = name ∧
            run.HasFunction tree id function

/-
  What a context has besides what a run has: nothing for a constant that shares a function, the
  function of a constant, or one that was drawn up.
-/
inductive Addition (tree : SyntaxTree) (id : NodeId) (name : String) (run : Run)
    (after : Context) : Prop
  | none {node : Node} {mode : ModeId} (hUnit : IsConstantUnit tree id node mode)
      (hSame : after = run.context)
  | constant {node : Node} {mode : ModeId} {value : Value} {push : Stmt} {function : Function}
      (hUnit : IsConstantUnit tree id node mode)
      (hArray : ∀ re im, value = .complex re im → run.context.hasName (Value.pairName re im) = true)
      (hPush : Inline.pushOf tree mode (.constant value) = .ok push) (hName : function.name = name)
      (hCompletes : (run.context.takeName name).Completes
        (.ofStatements [push]) function after)
  | drawn {writer : Writer} {function : Function}
      (hOther : ∀ node mode, ¬ IsConstantUnit tree id node mode)
      (hDrawn : Drawn tree run.Calls id writer) (hName : function.name = name) (hCompletes :
        run.context.Completes writer function after)

/- One function is added, unless a constant shares one. -/
theorem Addition.output_eq (hAddition : Addition tree id name run after) :
    (∃ node mode, IsConstantUnit tree id node mode) ∧ after.output = run.context.output ∨
      ∃ func : Function, func.name = name ∧ run.HasFunction tree id func ∧
          after.output = run.context.output ++ [.function func] := by
  cases hAddition with
  | none hUnit hSame => exact .inl ⟨⟨_, _, hUnit⟩, hSame ▸ rfl⟩
  | @constant _ _ _ push func hUnit _ hPush hName hCompletes =>
    right
    refine ⟨func, hName, ⟨_, .constant hUnit hPush, hCompletes.issued⟩, ?_⟩
    rw [hCompletes.output_eq (.statements : Planned tree _), Context.takeName_eq]
  | @drawn writer func _ hDrawn hName hCompletes =>
    exact .inr ⟨func, hName, ⟨writer, hDrawn, hCompletes.issued⟩,
      hCompletes.output_eq hDrawn.planned⟩

theorem Addition.mem_output (hAddition : Addition tree id name run after)
    (hFragment : fragment ∈ run.context.output) : fragment ∈ after.output := by
  rcases hAddition.output_eq with ⟨-, hOut⟩ | ⟨func, -, -, hOut⟩
  · rw [hOut]
    exact hFragment
  · rw [hOut]
    exact List.mem_append_left _ hFragment

/-
  Moves with all that is known of them: contexts change as code is drafted, and every function was
  drawn up for the node that is compiled.
-/
inductive Draws (tree : SyntaxTree) (inside : NodeId → Prop) : Run → Run → Prop
  | quiet {run : Run} {ctx : Context} (hQuiet : run.context.Quiet ctx)
      (hChanges : run.context.Changes tree ctx) :
      Draws tree inside run { run with context := ctx }
  | decline {run : Run} {id : NodeId} (hInside : inside id)
      (hPending : run.marking id = .ok .pending) :
      Draws tree inside run (run.mark id .notGenerated)
  | compile {run : Run} {id : NodeId} {name : String} {ctx : Context} (hInside : inside id)
      (hPending : run.marking id = .ok .pending)
      (hOutcome : Outcome tree id name run.context ctx)
      (hAddition : Addition tree id name run ctx) :
      Draws tree inside run (run.compiledAs ctx id name)
  | trans {run middle next : Run} (hFirst : Draws tree inside run middle)
      (hSecond : Draws tree inside middle next) :
      Draws tree inside run next

/- Nothing is written and nothing is recorded. -/
theorem IsDrawn.of_moves (hDrawn : run.IsDrawn tree) (hMoves : run.Moves tree inside next)
    (hOut : next.context.output = run.context.output)
    (hCompiled : next.context.compiled = run.context.compiled) : next.IsDrawn tree := by
  constructor
  · intro func hFun
    rw [hOut] at hFun
    rcases hDrawn.functions func hFun with ⟨id, hRec, hOf⟩
    rw [hCompiled]
    exact ⟨id, hRec, hOf.of_moves hMoves⟩
  · intro id name hRec
    rw [hCompiled] at hRec
    rcases hDrawn.nodes id name hRec with hConst | ⟨func, hFun, hName, hOf⟩
    · exact .inl hConst
    · rw [hOut]
      exact .inr ⟨func, hFun, hName, hOf.of_moves hMoves⟩

/- A node is compiled, for which a function is drawn up. -/
theorem IsDrawn.compile (hDrawn : run.IsDrawn tree) (hPending : run.marking id = .ok .pending)
    (hOutcome : Outcome tree id name run.context ctx) (hAddition : Addition tree id name run ctx) :
    (run.compiledAs ctx id name).IsDrawn tree := by
  have hMoves : run.Moves tree (fun _ => True) (run.compiledAs ctx id name) :=
    .compile trivial hPending hOutcome
  have hCompiled : (run.compiledAs ctx id name).context.compiled =
        run.context.compiled ++ [(id, name)] := by
    simp [compiledAs, mark, Context.recordCompiled, hOutcome.compiled_eq]
  constructor
  · intro function hFun
    have hOld : Fragment.function function ∈ run.context.output → ∃ other, (other, function.name) ∈
            run.context.compiled ++ [(id, name)] ∧
          (run.compiledAs ctx id name).HasFunction tree other function := by
      intro hEarlier
      rcases hDrawn.functions function hEarlier with ⟨other, hRec, hOf⟩
      exact ⟨other, List.mem_append_left _ hRec, hOf.of_moves hMoves⟩
    rw [hCompiled]
    change Fragment.function function ∈ ctx.output at hFun
    rcases hAddition.output_eq with ⟨-, hOut⟩ | ⟨added, hName, hOf, hOut⟩
    · rw [hOut] at hFun
      exact hOld hFun
    · rw [hOut] at hFun
      rcases List.mem_append.mp hFun with hEarlier | hLast
      · exact hOld hEarlier
      · rcases List.mem_singleton.mp hLast with ⟨⟩
        rw [hName]
        exact ⟨id, by simp, hOf.of_moves hMoves⟩
  · intro other otherName hRec
    rw [hCompiled] at hRec
    rcases List.mem_append.mp hRec with hEarlier | hLast
    · rcases hDrawn.nodes other otherName hEarlier with hConst | ⟨function, hFun, hName, hOf⟩
      · exact .inl hConst
      · exact .inr ⟨function, hAddition.mem_output hFun, hName, hOf.of_moves hMoves⟩
    · rcases List.mem_singleton.mp hLast with ⟨⟩
      rcases hAddition.output_eq with ⟨hConst, -⟩ | ⟨function, hName, hOf, hOut⟩
      · exact .inl hConst
      · have hMem : Fragment.function function ∈ ctx.output := by
          rw [hOut]
          simp
        exact .inr ⟨function, hMem, hName, hOf.of_moves hMoves⟩

namespace Draws

theorem refl (run : Run) : run.Draws tree inside run := .quiet (.refl run.context) .refl

theorem mono (hDraws : run.Draws tree inside next) (hWider : ∀ id, inside id → wider id) :
    run.Draws tree wider next := by
  induction hDraws with
  | quiet hQuiet hChanges => exact .quiet hQuiet hChanges
  | decline hInside hPending => exact .decline (hWider _ hInside) hPending
  | compile hInside hPending hOutcome hAddition =>
    exact .compile (hWider _ hInside) hPending hOutcome hAddition
  | trans _ _ ihFirst ihSecond => exact ihFirst.trans ihSecond

theorem moves (hDraws : run.Draws tree inside next) : run.Moves tree inside next := by
  induction hDraws with
  | quiet hQuiet _ => exact .quiet hQuiet
  | decline hInside hPending => exact .decline hInside hPending
  | compile hInside hPending hOutcome _ => exact .compile hInside hPending hOutcome
  | trans _ _ ihFirst ihSecond => exact ihFirst.trans ihSecond

theorem keeps (hDraws : run.Draws tree inside next) (hDrawn : run.IsDrawn tree) :
    next.IsDrawn tree := by
  induction hDraws with
  | quiet hQuiet _ =>
    have hMoves : Moves tree inside _ _ := .quiet hQuiet
    exact hDrawn.of_moves hMoves hQuiet.output hQuiet.compiled
  | decline hInside hPending =>
    have hMoves : Moves tree inside _ _ := .decline hInside hPending
    exact hDrawn.of_moves hMoves rfl rfl
  | compile _ hPending hOutcome hAddition => exact hDrawn.compile hPending hOutcome hAddition
  | trans _ _ ihFirst ihSecond => exact ihSecond (ihFirst hDrawn)

end Draws

end Run

------ Planning

variable {α β : Type}

/- There is a marking for every node. -/
def Run.IsFull (run : Run) (tree : SyntaxTree) : Prop := run.markings.size = tree.nodes.size

theorem Run.IsFull.of_draws (hFull : run.IsFull tree) (hDraws : run.Draws tree inside next) :
    next.IsFull tree :=
  hDraws.moves.size_eq.trans hFull

theorem Run.IsFull.marking_ends (hFull : run.IsFull tree)
    (hNode : tree.node id = .ok node) : (run.marking id).Ends := by
  have hBound : id.number < run.markings.size := by
    rw [show run.markings.size = tree.nodes.size from hFull]
    exact Store.lt_size_of_fetch hNode
  refine ⟨run.markings[id.number], ?_⟩
  simp [Run.marking, hBound]

/- A step that generates functions is made up of moves. -/
def Generation.Goes (tree : SyntaxTree) (total : Prop) (inside : NodeId → Prop)
    (step : Generation Unit) : Prop :=
  ∀ run : Run, run.IsFull tree → Step.Meets total step run fun _ next => run.Draws tree inside next

/- What is read of the tree is known if it has to be. -/
theorem Planning.meets_walk_bind {walk : Walk α} (hWalk : total → walk.Ends)
    (hRest : ∀ val, walk = .ok val → Step.Meets total (rest val).run run post) :
    Step.Meets total (liftM walk >>= rest : Planning β).run run post := by
  cases hVal : walk with
  | ok val => exact hRest val hVal
  | error fault =>
    intro hTotal
    rcases hWalk hTotal with ⟨val, hFound⟩
    cases hVal.symm.trans hFound

/-
  From some run on, a plan is made by moves, unless it is
  declined, and is as described at the run it ends with.
-/
def Planning.Plans (tree : SyntaxTree) (total : Prop) (inside : NodeId → Prop) (before : Run)
    (planning : Planning α) (post : Run → α → Prop) : Prop :=
  ∀ run : Run, before.Draws tree inside run → run.IsFull tree →
    Step.Meets total planning.run run fun result next => run.Draws tree inside next ∧
        ∀ value ∈ result, post next value

variable {rest : α → Planning β}

namespace Planning.Plans

theorem of_pure (hPost : ∀ run, before.Draws tree inside run → post run val) :
    Plans tree total inside before (pure val) post :=
  fun run hBefore _ => ⟨.refl run, fun _ hVal => by
    cases hVal
    exact hPost run hBefore⟩

theorem of_failure : Plans tree total inside before (failure : Planning α) post :=
  fun run _ _ => ⟨.refl run, fun _ hVal => by cases hVal⟩

theorem mono (hPlans : Plans tree total inside before planning strong)
    (hPost : ∀ run val, strong run val → post run val) :
    Plans tree total inside before planning post := by
  intro run hBefore hFull
  apply (hPlans run hBefore hFull).mono
  rintro res next ⟨hDraws, hRes⟩
  exact ⟨hDraws, fun val hVal => hPost next val (hRes val hVal)⟩

/- One plan is made from another. -/
theorem bind (hFirst : Plans tree total inside before planning post)
    (hRest : ∀ val mid, before.Draws tree inside mid → post mid val →
        Plans tree total inside mid (rest val) after) :
    Plans tree total inside before (planning >>= rest) after := by
  intro run hBefore hFull
  rw [OptionT.run_bind]
  apply Step.Meets.bind (hFirst run hBefore hFull)
  rintro (_ | val) mid ⟨hDraws, hVal⟩
  · exact ⟨hDraws, fun _ hNone => by cases hNone⟩
  · apply (hRest val mid (hBefore.trans hDraws) (hVal val rfl) mid (.refl mid)
        (hFull.of_draws hDraws)).mono
    rintro res next ⟨hMore, hRes⟩
    exact ⟨hDraws.trans hMore, hRes⟩

theorem walk_bind {walk : Walk α} (hWalk : total → walk.Ends)
    (hRest : ∀ val, walk = .ok val → Plans tree total inside before (rest val) after) :
    Plans tree total inside before (liftM walk >>= rest) after := by
  intro run hBefore hFull
  apply meets_walk_bind hWalk
  intro val hVal
  exact hRest val hVal run hBefore hFull

theorem tier_bind {rest : Nat → Planning β}
    (hRest : ∀ tier, Plans tree total inside before (rest tier) after) :
    Plans tree total inside before (liftM Planner.currentTier >>= rest) after :=
  fun run hBefore hFull => hRest run.context.tier run hBefore hFull

theorem get_bind {rest : Run → Planning β}
    (hRest : ∀ run, run.IsFull tree → Plans tree total inside run (rest run) after) :
    Plans tree total inside before (get >>= rest) after :=
  fun run _ hFull => hRest run hFull run (.refl run) hFull

theorem of_step {step : Generation Unit} (hStep : step.Goes tree total inside) :
    Plans tree total inside before (liftM step) fun _ _ => True := by
  intro run _ hFull
  have hRun : OptionT.run (liftM step : Planning Unit) = step >>= fun _ => pure (some ()) := rfl
  rw [hRun]
  apply Step.Meets.bind (hStep run hFull)
  intro _ next hDraws
  exact .of_pure ⟨hDraws, fun _ _ => trivial⟩

end Planning.Plans

end Algol68
