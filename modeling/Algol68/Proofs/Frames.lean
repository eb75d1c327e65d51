import Algol68.Proofs.Clauses

/-
  What the two passes leave alone.

  Declaring a piece of code comes down to declaring names, booking pointers and evaluating
  constants, so that it keeps to whatever these keep to. Whatever the tree is like, it changes
  nothing of the code written before it, and takes no shared names but those of complex constants.
  Writing the statements changes the bookings and nothing else.
-/

------ Quiet Steps

namespace Algol68

variable {id : NodeId} {ctx : Context}

namespace Context

theorem errorCount_congr {left right : Context} (hSame : left.diagnostics = right.diagnostics) :
    left.errorCount = right.errorCount := by
  rw [left.counted, right.counted, hSame]

/- What a step of the first pass leaves alone. -/
structure Quiet (before after : Context) : Prop where
  options : after.options = before.options
  tier : after.tier = before.tier
  output : after.output = before.output
  compiled : after.compiled = before.compiled
  errors : before.errorCount ≤ after.errorCount
  names : ∀ name, (∀ re im, name ≠ Value.pairName re im) → after.hasName name = before.hasName name

namespace Quiet

theorem refl (ctx : Context) : ctx.Quiet ctx := ⟨rfl, rfl, rfl, rfl, Nat.le_refl _, fun _ _ => rfl⟩

theorem trans {before : Context} (hFirst : before.Quiet mid) (hSecond : mid.Quiet after) :
    before.Quiet after where
  options := hSecond.options.trans hFirst.options
  tier := hSecond.tier.trans hFirst.tier
  output := hSecond.output.trans hFirst.output
  compiled := hSecond.compiled.trans hFirst.compiled
  errors := Nat.le_trans hFirst.errors hSecond.errors
  names := fun name hName => (hSecond.names name hName).trans (hFirst.names name hName)

end Quiet

instance : Std.Refl Quiet := ⟨Quiet.refl⟩

instance : IsTrans Context Quiet := ⟨fun _ _ _ => Quiet.trans⟩

/- Whatever a step gives, the contexts are related. -/
def Steps {α : Type} (relates : Context → Context → Prop) (task : Task α) : Prop :=
  ∀ ctx : Context, Step.Meets False task ctx fun _ next => relates ctx next

/- Whatever a step gives, it is quiet. -/
abbrev Quietly {α : Type} (task : Task α) : Prop := Steps Quiet task

namespace Steps

theorem of_modify (hChange : ∀ ctx : Context, relates ctx (change ctx)) :
    Steps relates (modify change) :=
  fun ctx => hChange ctx

theorem get_bind (hRest : ∀ ctx, Steps relates (rest ctx)) :
    Steps relates (get >>= rest) :=
  fun ctx => hRest ctx ctx

theorem lift_bind {walk : Walk α} (hRest : ∀ val, walk = .ok val → Steps relates (rest val)) :
    Steps relates (liftM walk >>= rest) :=
  fun ctx => Step.Meets.walk_bind False.elim fun val hVal => hRest val hVal ctx

theorem of_pure [Std.Refl relates] (val : α) : Steps relates (pure val) :=
  fun ctx => Std.Refl.refl ctx

theorem of_lift [Std.Refl relates] (walk : Walk α) : Steps relates (liftM walk) := by
  intro ctx
  cases walk with
  | ok val => exact Std.Refl.refl ctx
  | error fault => exact not_false

/- Two steps, one after the other. -/
theorem bind [IsTrans Context relates] {first : Task α} (hFirst : Steps relates first)
    (hRest : ∀ val, Steps relates (rest val)) : Steps relates (first >>= rest) := by
  intro ctx
  apply Step.Meets.bind (hFirst ctx)
  intro val mid hMid
  apply (hRest val mid).mono
  intro _ next hNext
  exact Trans.trans hMid hNext

theorem forM [Std.Refl relates] [IsTrans Context relates] {members : List α}
    (hStep : ∀ member ∈ members, Steps relates (step member)) :
    Steps relates (members.forM step) := by
  induction members with
  | nil => exact of_pure _
  | cons first rest ih =>
    have hFirst := hStep first List.mem_cons_self
    have hRest : ∀ member ∈ rest, Steps relates (step member) := fun member hMem =>
        hStep member (List.mem_cons_of_mem _ hMem)
    exact hFirst.bind fun _ => ih hRest

end Steps

------ Constants

theorem takeName_eq (ctx : Context) (name : String) : ctx.takeName name =
      { ctx with
        uniqueNames := (ctx.takeName name).uniqueNames } := by
  unfold takeName
  split <;> rfl

theorem hasName_takeName_of_ne (hName : name ≠ taken) :
    (ctx.takeName taken).hasName name = ctx.hasName name := by
  unfold takeName
  split
  · rfl
  · simp [hasName, hName]

theorem Folds.quiet {machine : Machine}
    (hFolds : Folds id { ctx with machine := machine } val next) : ctx.Quiet next := by
  cases hFolds with
  | failed => exact ⟨rfl, rfl, rfl, rfl, by simp [report], fun _ _ => rfl⟩
  | found _ => exact ⟨rfl, rfl, rfl, rfl, Nat.le_refl _, fun _ _ => rfl⟩
  | @defined re im _ =>
    exact ⟨rfl, rfl, rfl, rfl, Nat.le_refl _, fun name hName => by simp [hasName, hName re im]⟩

------ Kept Relations

open Inline

/-
  A relation that holds across each change of the first pass, where constants are only evaluated
  at certain nodes and the parts of these.
-/
structure Tracks (tree : SyntaxTree) (relates : Context → Context → Prop)
    (known : NodeId → Prop) : Prop where
  declare : ∀ (ctx : Context) (storage declarator : String),
    relates ctx (ctx.declare storage declarator)
  book : ∀ (ctx : Context) (bookings : Bookings), relates ctx { ctx with bookings := bookings }
  constant : ∀ id, known id → Steps relates (declareConstant tree id)
  child : ∀ id position kid, known id → childOf tree id position = .ok kid → known kid
  children : ∀ id kids kid, known id → tree.children id = .ok kids → kid ∈ kids → known kid

theorem declareConstant_steps [Std.Refl relates]
    (hFound : ∀ {ctx next machine val}, ctx.folded.lookup id = none →
      Folds id { ctx with machine := machine } val next →
        relates ctx { next with folded := (id, val) :: next.folded }) :
    Steps relates (declareConstant tree id) := by
  intro ctx
  apply Step.Meets.get_bind
  cases hLookup : ctx.folded.lookup id with
  | some _ => exact .of_pure (Std.Refl.refl ctx)
  | none =>
    apply (fold_meets False.elim False.elim).bind
    rintro val next ⟨_, machine, -, -, hFolds⟩
    exact .of_modify (hFound hLookup hFolds)

variable (tree : SyntaxTree)

theorem declareConstant_quietly (id : NodeId) : Quietly (declareConstant tree id) :=
  declareConstant_steps fun _ hFolds =>
    hFolds.quiet.trans ⟨rfl, rfl, rfl, rfl, Nat.le_refl _, fun _ _ => rfl⟩

theorem tracks_quiet : Tracks tree Quiet fun _ => True where
  declare := fun _ _ _ => ⟨rfl, rfl, rfl, rfl, Nat.le_refl _, fun _ _ => rfl⟩
  book := fun _ _ => ⟨rfl, rfl, rfl, rfl, Nat.le_refl _, fun _ _ => rfl⟩
  constant := fun id _ => declareConstant_quietly tree id
  child := fun _ _ _ _ _ => trivial
  children := fun _ _ _ _ _ _ => trivial

/- One change that drafting code makes to a context. -/
inductive Change (tree : SyntaxTree) : Context → Context → Prop
  | declare (ctx : Context) (storage declarator : String) :
      Change tree ctx (ctx.declare storage declarator)
  | book (ctx : Context) (bookings : Bookings) : Change tree ctx { ctx with bookings := bookings }
  | constant {id : NodeId} {ctx next : Context} (hRun : (declareConstant tree id).run ctx =
        .ok ((), next)) :
      Change tree ctx next
  | fold {id : NodeId} {value : Option Value} {ctx next : Context}
      (hRun : (Context.fold tree id).run ctx = .ok (value, next)) : Change tree ctx next
  | begin (ctx : Context) : Change tree ctx ctx.beginFunction

/- What drafting code makes of a context. -/
abbrev Changes (tree : SyntaxTree) : Context → Context → Prop := Relation.ReflTransGen (Change tree)

theorem tracks_changes : Tracks tree (Changes tree) fun _ => True where
  declare := fun ctx storage declarator => .single (.declare ctx storage declarator)
  book := fun ctx bookings => .single (.book ctx bookings)
  constant := fun _ _ ctx => (declareConstant_quietly tree _ ctx).with_run.mono
      fun _ _ hRun => .single (.constant hRun.1)
  child := fun _ _ _ _ _ => trivial
  children := fun _ _ _ _ _ _ => trivial

end Context

------ Units

namespace Inline

open Context

/-
  Something that steps of the first pass may have in common:
  what declares names and pointers has it, constants have it
  at certain nodes and the parts of these, and operations have
  it if their operands do.
-/
structure Guides (tree : SyntaxTree) (keeps : Context.Task Unit → Prop)
    (known : NodeId → Prop) : Prop where
  done : keeps (pure ())
  read : ∀ walk : Walk Unit, keeps (liftM walk)
  bind : ∀ {first rest : Context.Task Unit}, keeps first →
    keeps rest → keeps (first >>= fun _ => rest)
  lift_bind : ∀ {α : Type} {walk : Walk α} {rest : α → Context.Task Unit},
    (∀ value, walk = .ok value → keeps (rest value)) → keeps (liftM walk >>= rest)
  name : ∀ storage declarator, keeps (declareName storage declarator)
  pointer : ∀ pointer, keeps (declarePointer tree pointer)
  constant : ∀ id, known id → keeps (declareConstant tree id)
  operation : ∀ {unit id}, known id → (∀ kid, known kid → keeps (unit kid)) →
      keeps (declareOperation tree unit id)
  child : ∀ id position kid, known id → childOf tree id position = .ok kid → known kid
  children : ∀ id kids kid, known id → tree.children id = .ok kids → kid ∈ kids → known kid

variable {unit : NodeId → Context.Task Unit}

section Keeping

variable (hGuides : Guides tree keeps known)
variable (hUnit : ∀ id, known id → keeps (unit id)) (hKnown : known id)

include hGuides

theorem Guides.forM {α : Type} {step : α → Context.Task Unit} {members : List α}
    (hStep : ∀ member ∈ members, keeps (step member)) : keeps (members.forM step) := by
  induction members with
  | nil => exact hGuides.done
  | cons first rest ih =>
    exact hGuides.bind (hStep first List.mem_cons_self) (ih fun member hMem =>
        hStep member (List.mem_cons_of_mem _ hMem))

theorem declareComponent_keeps (id : NodeId) : keeps (declareComponent tree id) := by
  apply hGuides.lift_bind
  intro component _
  apply hGuides.lift_bind
  intro base _
  exact hGuides.bind (hGuides.pointer _) (hGuides.pointer _)

include hUnit hKnown

theorem declareElement_keeps : keeps (declareElement tree unit id) := by
  apply hGuides.lift_bind
  intro elem hElem
  apply hGuides.lift_bind
  intro base _
  have hIdx : ∀ index ∈ elem.indices, known index := by
    simp only [elementOf, Walk.bind_eq_ok] at hElem
    rcases hElem with ⟨primary, -, indexer, hIndexer, entry, -, found, -, hFound⟩
    have hInner := hGuides.child id 1 indexer hKnown hIndexer
    cases found with
    | none => simp at hFound
    | some found =>
      simp only [Walk.bind_eq_ok, Walk.pure_eq_ok, Except.ok.injEq] at hFound
      rcases hFound with ⟨storage, -, payload, -, indices, hIndices, rfl⟩
      intro index hMem
      exact hGuides.children indexer indices index hInner hIndices hMem
  apply hGuides.bind (hGuides.pointer _)
  apply hGuides.bind (hGuides.forM fun index hMem => hUnit index (hIdx index hMem))
  exact hGuides.pointer _

theorem declareAddress_keeps : keeps (declareAddress tree unit id) := by
  apply hGuides.lift_bind
  intro attr _
  split
  · exact hGuides.lift_bind fun named _ => hGuides.pointer _
  · exact declareElement_keeps hGuides hUnit hKnown
  · exact declareComponent_keeps hGuides id
  · exact hGuides.read _

theorem declareDereferencing_keeps : keeps (declareDereferencing tree unit id) := by
  apply hGuides.lift_bind
  intro op hOp
  have hInner := hGuides.child id 0 op hKnown hOp
  apply hGuides.lift_bind
  intro _ _
  apply hGuides.lift_bind
  intro attr _
  split
  · exact hGuides.lift_bind fun named _ => hGuides.pointer _
  · exact declareAddress_keeps hGuides hUnit hInner
  · exact declareAddress_keeps hGuides hUnit hInner
  · exact hGuides.read _

theorem declareWidening_keeps : keeps (declareWidening tree unit id) := by
  apply hGuides.lift_bind
  rintro ⟨op, isComplex⟩ hWidening
  simp only [wideningOf, Walk.bind_eq_ok, Walk.pure_eq_ok,
    Except.ok.injEq, Prod.mk.injEq] at hWidening
  rcases hWidening with ⟨found, hFound, mode, -, rfl, -⟩
  apply hGuides.bind (hUnit found (hGuides.child id 0 found hKnown hFound))
  cases isComplex with
  | true => exact hGuides.name _ _
  | false => exact hGuides.done

theorem declareDisplay_keeps : keeps (declareDisplay tree unit id) := by
  apply hGuides.lift_bind
  intro display hDisplay
  simp only [displayOf, Walk.bind_eq_ok, Walk.pure_eq_ok, Except.ok.injEq] at hDisplay
  rcases hDisplay with ⟨mode, -, members, hMembers, rfl⟩
  apply hGuides.bind (hGuides.forM fun member hMem =>
    hUnit member (hGuides.children id members member hKnown hMembers hMem))
  split
  · exact hGuides.name _ _
  · exact hGuides.lift_bind fun size _ => hGuides.name _ _

/- The guard and the branches of a conditional clause. -/
theorem declareChoice_keeps :
    keeps (do
      let choice ← choiceOf tree id
      unit choice.guard
      unit choice.yes
      unit choice.no) := by
  apply hGuides.lift_bind
  intro choice hChoice
  simp only [choiceOf, Walk.bind_eq_ok] at hChoice
  rcases hChoice with ⟨ifPart, hIf, guard, hGuard, thenPart, hThen, yes, hYes, tail,
      hTail, attr, -, hChoice⟩
  have hGuardKnown := hGuides.child _ 0 guard (hGuides.child id 0 ifPart hKnown hIf) hGuard
  have hYesKnown := hGuides.child _ 0 yes (hGuides.child id 1 thenPart hKnown hThen) hYes
  have hTailKnown := hGuides.child id 2 tail hKnown hTail
  have hAll : known choice.guard ∧ known choice.yes ∧ known choice.no := by
    split at hChoice
    · rcases Walk.bind_eq_ok.mp hChoice with ⟨no, hNo, hChoice⟩
      cases hChoice
      exact ⟨hGuardKnown, hYesKnown, hGuides.child tail 0 no hTailKnown hNo⟩
    · cases hChoice
      exact ⟨hGuardKnown, hYesKnown, hTailKnown⟩
    · rcases Walk.bind_eq_ok.mp hChoice with ⟨_, hNone, -⟩
      simp at hNone
  exact hGuides.bind (hUnit _ hAll.1) (hGuides.bind (hUnit _ hAll.2.1) (hUnit _ hAll.2.2))

theorem declareShape_keeps (node : Node) : keeps (declareShape tree unit id node) := by
  have hPart : keeps (do unit (← childOf tree id 0)) :=
    hGuides.lift_bind fun part hFound => hUnit part (hGuides.child id 0 part hKnown hFound)
  have hAddr : keeps (do
      declareAddress tree unit id
      let _ ← modeOf tree id
      pure ()) :=
    hGuides.bind (declareAddress_keeps hGuides hUnit hKnown)
      (hGuides.lift_bind fun _ _ => hGuides.done)
  unfold declareShape
  split
  case h_1 => exact hGuides.lift_bind fun named _ => hGuides.pointer _
  case h_2 => exact declareDereferencing_keeps hGuides hUnit hKnown
  case h_3 | h_4 => exact hAddr
  case h_5 | h_6 | h_7 => exact hGuides.operation hKnown hUnit
  case h_8 => exact hGuides.lift_bind fun _ _ => hGuides.lift_bind fun res _ => hGuides.name _ _
  case h_9 | h_10 | h_11 | h_12 => exact hPart
  case h_13 => exact declareWidening_keeps hGuides hUnit hKnown
  case h_14 =>
    apply hGuides.lift_bind
    intro relation hRel
    simp only [relationOf, Walk.bind_eq_ok, Walk.pure_eq_ok, Except.ok.injEq] at hRel
    rcases hRel with ⟨left, hLeft, operator, -, same, -, right, hRight, rfl⟩
    exact hGuides.bind (hUnit left (hGuides.child id 0 left hKnown hLeft))
      (hUnit right (hGuides.child id 2 right hKnown hRight))
  case h_15 => exact hGuides.done
  case h_16 | h_17 => exact declareChoice_keeps hGuides hUnit hKnown
  case h_18 => exact declareDisplay_keeps hGuides hUnit hKnown
  case h_19 =>
    apply hGuides.lift_bind
    rintro ⟨destination, source⟩ hParts
    simp only [assignationOf, Walk.bind_eq_ok] at hParts
    rcases hParts with ⟨_, hFirst, _, hSecond, rfl, rfl⟩
    exact hGuides.bind (hUnit _ (hGuides.child id 1 _ hKnown hSecond))
      (declareAddress_keeps hGuides hUnit (hGuides.child id 0 _ hKnown hFirst))
  case h_20 => exact hGuides.read _

omit hUnit in
theorem declareUnit_keeps : keeps (declareUnit tree id) := by
  suffices hAll : ∀ fuel id, known id → keeps (declareWithin tree fuel id) from
    hAll tree.bound id hKnown
  intro fuel
  induction fuel with
  | zero => exact fun _ _ => hGuides.read _
  | succ fuel ih =>
    intro id hKnown
    apply hGuides.lift_bind
    intro node _
    apply hGuides.lift_bind
    rintro (_ | _) _
    · exact declareShape_keeps hGuides ih hKnown node
    · exact hGuides.constant id hKnown

end Keeping

variable [Std.Refl relates] [IsTrans Context relates] (hTracks : Tracks tree relates known)

include hTracks

omit [Std.Refl relates] [IsTrans Context relates] in
theorem declareName_steps (storage declarator : String) :
    Steps relates (declareName storage declarator) :=
  .of_modify fun ctx => hTracks.declare ctx storage declarator

theorem declarePointer_steps (ptr : Pointer) : Steps relates (declarePointer tree ptr) := by
  apply Steps.get_bind
  intro ctx
  apply Steps.lift_bind
  rintro (_ | booking) _
  · apply (declareName_steps hTracks _ _).bind
    intro _
    exact .of_modify fun ctx => hTracks.book ctx _
  · exact .of_pure _

theorem declareOperation_steps (hKnown : known id)
    (hUnit : ∀ kid, known kid → Steps relates (unit kid)) :
    Steps relates (declareOperation tree unit id) := by
  apply Steps.get_bind
  intro ctx
  apply Steps.lift_bind
  intro operation hOperation
  have hOp : ∀ operand ∈ operation.operands, known operand := by
    intro operand hMem
    rcases exists_children_of_operandsOf (operands_of_operationOf hOperation) with
      ⟨kids, hKids, hSublist, -⟩
    exact hTracks.children id kids operand hKnown hKids (hSublist.subset hMem)
  apply (Steps.forM fun operand hMem => hUnit operand (hOp operand hMem)).bind
  intro _
  cases operation.result with
  | some res => exact declareName_steps hTracks _ _
  | none => exact .of_pure _

/- A relation that holds across each change guides the pass. -/
theorem guides_steps : Guides tree (Steps relates) known where
  done := .of_pure _
  read := fun walk => .of_lift walk
  bind := fun hFirst hRest => hFirst.bind fun _ => hRest
  lift_bind := Steps.lift_bind
  name := declareName_steps hTracks
  pointer := declarePointer_steps hTracks
  constant := hTracks.constant
  operation := declareOperation_steps hTracks
  child := hTracks.child
  children := hTracks.children

end Inline

------ Clauses

namespace Emission

open Inline

variable (hGuides : Guides tree keeps known)

include hGuides

theorem declareUnits_keeps {ids : List NodeId} (hKnown : ∀ id ∈ ids, known id) :
    keeps (ids.forM (declareUnit tree)) :=
  hGuides.forM fun id hId => declareUnit_keeps hGuides (hKnown id hId)

theorem declareMarks_keeps (id : NodeId) (opensFrame : Bool) :
    keeps (declareMarks id opensFrame) := by
  apply hGuides.bind (hGuides.name _ _)
  split
  · exact hGuides.name _ _
  · exact hGuides.done

/- Nothing is asked of an item where all nodes are known. -/
theorem declareItem_keeps (hHas : (∀ id, known id) ∨ item.Has tree known) :
    keeps (declareItem tree item) := by
  unfold declareItem
  unfold Item.Has at hHas
  split
  · rename_i hKind
    rw [hKind] at hHas
    exact declareUnit_keeps hGuides (hHas.elim (fun hAll => hAll _) id)
  · rename_i hKind
    rw [hKind] at hHas
    apply hGuides.lift_bind
    rintro (_ | found) hFound
    · exact hGuides.done
    · refine declareUnit_keeps hGuides (hHas.elim (fun hAll => hAll found) ?_)
      rintro ⟨-, -, init, hInit, hFirst⟩
      cases hInit.symm.trans hFound
      exact hFirst found rfl
  · exact hGuides.done

theorem declareItems_keeps {items : List Item}
    (hHas : (∀ id, known id) ∨ ∀ item ∈ items, item.Has tree known) :
    keeps (items.forM (declareItem tree)) :=
  hGuides.forM fun item hItem => declareItem_keeps hGuides (hHas.imp_right fun hAll =>
    hAll item hItem)

theorem declareSerial_keeps
    (hHas : (∀ id, known id) ∨ plan.Has tree known) : keeps (declareSerial tree plan) :=
  hGuides.bind (declareMarks_keeps hGuides _ _) (declareItems_keeps hGuides hHas)

theorem declareChoice_keeps (hHas : (∀ id, known id) ∨ plan.Has tree known) :
    keeps (declareChoice tree plan) := by
  induction plan with
  | nothing => exact hGuides.done
  | otherwise last => exact declareSerial_keeps hGuides hHas
  | select selector branches rest ih =>
    apply hGuides.bind (declareUnit_keeps hGuides (hHas.elim (fun hAll => hAll _) And.left))
    have hParts := hHas.imp_right And.right
    have hItems := hParts.imp_right And.left
    apply hGuides.bind _ (ih (hParts.imp_right And.right))
    cases branches with
    | guarded yes => exact declareSerial_keeps hGuides hItems
    | numbered alternatives => exact declareItems_keeps hGuides hItems

theorem declareLoop_keeps (hHas : (∀ id, known id) ∨ plan.Has tree known) :
    keeps (declareLoop tree id plan) := by
  have hBody := declareSerial_keeps hGuides (hHas.imp_right LoopPlan.Has.body)
  apply hGuides.lift_bind
  intro counter _
  apply hGuides.bind (declareUnits_keeps hGuides
    fun bound hBound => hHas.elim (fun hAll => hAll bound) fun hPlan => hPlan.bounds bound hBound)
  apply hGuides.bind (hGuides.forM fun _ _ => hGuides.name _ _)
  apply hGuides.bind (declareMarks_keeps hGuides _ _)
  cases counter with
  | none => exact hBody
  | some entry => exact hGuides.bind (hGuides.name _ _) hBody

end Emission

------ The Second Pass

namespace Emission

open Inline

variable {scope : Scope}

/- A step that changes nothing but the bookings, and reads nothing but them and the scope. -/
abbrev Local {α : Type} (scope : Scope) (step : Context.Task α) : Prop :=
  Gives scope False step fun _ => True

theorem executeUnit_local (id : NodeId) : Local scope (executeUnit tree id) :=
  (executeUnit_gives tree scope id).mono fun _ _ => trivial

theorem yieldUnit_local (id : NodeId) : Local scope (yieldUnit tree id) :=
  (yields_any tree scope).yielded id

/- What is behind the code of a unit may use its value. -/
theorem unit_local {rest : List Stmt → Expr → Inline.Emission} (id : NodeId)
    (hRest : ∀ body value, Local scope (rest body value)) : Local scope (do
        let body ← executeUnit tree id
        rest body (← yieldUnit tree id)) :=
  (executeUnit_local id).any_bind fun body => (yieldUnit_local id).any_bind (hRest body)

theorem pushValue_local (mode : ModeId) (id : NodeId) : Local scope (pushValue tree mode id) :=
  (yieldUnit_local id).any_bind fun _ => .of_lift fun _ _ => trivial

theorem executeValue_local (id : NodeId) : Local scope (executeValue tree id) := by
  apply (executeUnit_local id).any_bind
  intro body
  apply Gives.lift_bind
  rintro (_ | mode) _
  · exact .of_pure trivial
  · apply Gives.lift_bind
    intro isVoid _
    split
    · exact .of_pure trivial
    · exact (pushValue_local mode id).any_bind fun push => .of_pure trivial

theorem inOrder_local {emit : α → Inline.Emission} (hEmit : ∀ item, Local scope (emit item))
    (items : List α) : Local scope (inOrder emit items) :=
  inOrder_gives trivial (fun _ _ => trivial) fun item _ => hEmit item

theorem executeInit_local (object : ModeId) (reference : Temp) (init : Option NodeId) :
    Local scope (executeInit tree object reference init) := by
  cases init with
  | none => exact .of_pure trivial
  | some init =>
    apply unit_local init
    intro body value
    exact .lift_bind fun storage _ => .lift_bind fun store _ => .of_pure trivial

theorem executeAllocation_local (site : Site) : Local scope (executeAllocation tree site) := by
  apply Gives.lift_bind
  intro init _
  apply Gives.lift_bind
  rintro ⟨tag, entry, object⟩ _
  apply Gives.lift_bind
  intro size _
  exact (executeInit_local object _ init).any_bind fun body => .of_pure trivial

theorem executeItem_local (last : Bool) (item : Item) :
    Local scope (executeItem tree last item) := by
  unfold executeItem
  split
  · split
    · exact executeValue_local item.site.node
    · exact executeUnit_local item.site.node
  · exact .of_pure trivial
  · exact .of_pure trivial
  · exact executeAllocation_local item.site

theorem executeItems_local (mark : Temp) (items : List Item) :
    Local scope (executeItems tree mark items) := by
  induction items with
  | nil => exact .of_pure trivial
  | cons item rest ih =>
    cases rest with
    | nil => exact branch_gives (executeItem_local true item)
    | cons other others =>
      apply (branch_gives (executeItem_local false item)).any_bind
      exact fun body => ih.any_bind fun more => .of_pure trivial

theorem executeSerial_local (plan : SerialPlan) : Local scope (executeSerial tree plan) :=
  (executeItems_local _ plan.items).any_bind fun _ => .of_pure trivial

theorem executeArms_local (items : List Item) : Local scope (executeArms tree items) := by
  induction items with
  | nil => exact .of_pure trivial
  | cons item rest ih =>
    apply (branch_gives (executeItem_local true item)).any_bind
    exact fun arm => ih.any_bind fun arms => .of_pure trivial

theorem executeChoice_local (plan : ChoicePlan) : Local scope (executeChoice tree plan) := by
  induction plan with
  | nothing => exact .of_pure trivial
  | otherwise last => exact executeSerial_local last
  | select selector branches rest ih =>
    apply unit_local selector
    intro body value
    cases branches with
    | guarded yes =>
      apply (branch_gives (executeSerial_local yes)).any_bind
      exact fun yes => (branch_gives ih).any_bind fun no => .of_pure trivial
    | numbered alternatives =>
      apply (executeArms_local alternatives).any_bind
      exact fun arms => (branch_gives ih).any_bind fun no => .of_pure trivial

theorem boundValue_local (bound : Option NodeId) : Local scope (boundValue tree bound) := by
  cases bound with
  | none => exact .of_pure trivial
  | some bound => exact yieldUnit_local bound

theorem executeLoop_local (id : NodeId) (plan : LoopPlan) :
    Local scope (executeLoop tree id plan) := by
  apply Gives.lift_bind
  intro counter _
  apply (inOrder_local executeUnit_local plan.bounds).any_bind
  intro bounds
  apply (boundValue_local plan.start).any_bind
  intro start
  apply (boundValue_local plan.step).any_bind
  intro step
  have hLimit : Local scope (executeLimit tree (plan.header id) plan.limit) := by
    cases plan.limit with
    | none => exact .of_pure trivial
    | some limit => exact (yieldUnit_local limit).any_bind fun value => .of_pure trivial
  apply hLimit.any_bind
  intro limit
  exact (branch_gives (executeSerial_local plan.body)).any_bind fun body => .of_pure trivial

theorem executeRoutineCall_local (id : NodeId) (call : RoutineCall) :
    Local scope (executeRoutineCall tree id call) := by
  have hPushes : ∀ args, Local scope (pushArguments tree args) := by
    intro args
    induction args with
    | nil => exact .of_pure trivial
    | cons arg rest ih =>
      apply (pushValue_local arg.2 arg.1).any_bind
      exact fun push => ih.any_bind fun others => .of_pure trivial
  apply (inOrder_local executeUnit_local _).any_bind
  exact fun body => (hPushes call.arguments).any_bind fun pushes => .of_pure trivial

theorem executeInjection_local (injection : Injection) :
    Local scope (executeInjection tree injection) := by
  apply (executeUnit_local injection.operand).any_bind
  exact fun body => (pushValue_local _ _).any_bind fun push => .of_pure trivial

end Emission

------ Functions

namespace Context

open Emission

variable {writer : Writer}

theorem keepWritten_run (hErrs : next.errorCount ≤ ctx.errorCount) :
    (keepWritten ctx name).run next = .ok (some name, next) := by
  simp [keepWritten, Nat.not_lt.mpr hErrs]

theorem keepWritten_meets (hErrs : next.errorCount ≤ ctx.errorCount)
    (hPost : post (some name) next) : Step.Meets total (keepWritten ctx name) next post := by
  unfold Step.Meets
  rw [keepWritten_run hErrs]
  exact hPost

/- A function is added, and nothing changes but the bookings. -/
theorem writeFunction_meets (hLocal : ∀ scope, Local scope writer.execute)
    (hEnds : total → (tree.sourceText id).Ends ∧ (tree.node id).Ends ∧
      (writer.execute.run ctx).Ends) :
    Step.Meets total (writeFunction tree id name writer) ctx fun _ next =>
      ∃ (func : Function) (bookings : Bookings), func.name = name ∧
        func.declarations = ctx.declarations.lines ∧
        writer.execute.run ctx = .ok (func.body, ctx.booked bookings) ∧
        next = (ctx.booked bookings).append (.function func) := by
  apply Step.Meets.walk_bind fun hTotal => (hEnds hTotal).1
  intro source _
  apply Step.Meets.walk_bind fun hTotal => (hEnds hTotal).2.1
  intro node _
  have hExecute : (writer.execute.run ctx).Meets total fun found =>
      writer.execute.run ctx = .ok found :=
    .of_ends fun hTotal => (hEnds hTotal).2.2
  apply Walk.Meets.bind hExecute
  rintro ⟨body, next⟩ hRun
  have hNext : next = ctx.booked next.bookings := ((hLocal ctx.scope).of_run hRun).2.1
  rw [hNext] at hRun ⊢
  exact ⟨_, next.bookings, rfl, rfl, hRun, rfl⟩

/-
  A function is written unless the first pass meets a problem. The second pass meets none, so
  that nothing that was written is dropped.
-/
theorem emitFunction_rule (hLocal : ∀ scope, Local scope writer.execute)
    (hDeclare : Step.Meets total writer.declare ctx.beginFunction mid)
    (hFails : ∀ declared, mid ⟨⟩ declared → ctx.errorCount < declared.errorCount →
      post none declared)
    (hEnds : ∀ declared, mid ⟨⟩ declared → declared.errorCount ≤ ctx.errorCount → total →
      (tree.sourceText id).Ends ∧ (tree.node id).Ends ∧ (writer.execute.run declared).Ends)
    (hWrites : ∀ declared (func : Function) bookings, mid ⟨⟩ declared →
      declared.errorCount ≤ ctx.errorCount → func.name = name →
      func.declarations = declared.declarations.lines →
      writer.execute.run declared = .ok (func.body, declared.booked bookings) →
      post (some name) ((declared.booked bookings).append (.function func))) :
    Step.Meets total (emitFunction tree id name writer) ctx post := by
  apply Step.Meets.get_bind
  apply Step.Meets.modify_bind
  apply hDeclare.bind
  intro _ declared hMid
  apply Step.Meets.get_bind
  split
  · rename_i hErrs
    exact .of_pure (hFails declared hMid hErrs)
  · rename_i hErrs
    have hLess := Nat.le_of_not_lt hErrs
    apply (writeFunction_meets hLocal (hEnds declared hMid hLess)).bind
    rintro _ _ ⟨func, bookings, hName, hLines, hBody, rfl⟩
    exact keepWritten_meets hLess (hWrites declared func bookings hMid hLess hName hLines hBody)

end Context

end Algol68
