import Algol68.Proofs.Code

/-
  The second and the last pass over a unit.

  Once a unit was declared, its code can be written at every stage, and its value has an
  expression that is the same at all of them.
-/

------ Pointers

namespace Algol68

open SyntaxTree (attr_eq)

namespace Inline

variable {tree : SyntaxTree}

theorem exists_owner (hReady : (readyOf tree ctx).address address) :
    ∃ owner, Owner tree ctx address owner := by
  rcases hReady with ⟨booking, hFound⟩
  exact ⟨booking.owner, booking, hFound, rfl⟩

theorem yieldPointer_settled (hOwner : Owner tree ctx ptr.address owner) :
    Settled tree ctx (yieldPointer tree ptr) (ptr.temp owner) := by
  intro bookings hExec
  have hOwns := hExec.owner_eq hOwner ptr.node
  simp [yieldPointer, hOwns]

theorem executePointer_writes (hTree : tree.IsRegular) (hPtr : ptr.IsOf tree)
    (hOwner : Owner tree ctx ptr.address owner)
    (inner : Temp → Bookings → List Stmt → Bookings → Prop)
    (hStatements : Writes tree ctx total (statements (ptr.temp owner)) (inner (ptr.temp owner))) :
    Writes tree ctx total (executePointer tree ptr statements)
      fun before body after => PointerCode tree ctx ptr
        inner before body after (ptr.temp owner) := by
  intro before hBefore
  have hFound : ((ctx.booked before).signedIn? tree ptr.address .execute).Meets True _ :=
    Bookings.signedIn?_meets hTree.isLinked hPtr.valid hBefore.areValid
  rcases hFound.answer with ⟨found, hFound, hMeets⟩
  refine .get_bind (.lift_bind hFound ?_)
  cases found with
  | some booking => exact .of_pure ⟨.refl hBefore, .booked hOwner ⟨booking, hMeets.1, hMeets.2⟩⟩
  | none =>
    refine .lift_bind (hBefore.owner_eq hOwner _) ?_
    refine .bind (hStatements before hBefore) ?_
    rintro body after ⟨hAfter, hInner⟩
    exact .book_bind (·.signIn ptr.address .execute owner)
      (.of_pure ⟨hAfter.signIn hPtr owner, .computed hOwner hMeets hInner⟩)

theorem checkInitialised_ends (hModes : tree.modes.IsSound) (hMode : mode.number < tree.modes.size)
    (temp : Temp) : (checkInitialised tree checked temp mode).Ends := by
  unfold checkInitialised
  split
  · refine .bind (ModeTable.isPrimitive_ends hMode) ?_
    intro isPrimitive _
    split
    · exact .bind (hModes.name_ends hMode) fun _ _ => .of_pure
    · exact .of_pure
  · exact .of_pure

/- The pointer found through an identifier. -/
theorem executeNamed_writes (hTree : tree.IsRegular) (hModes : total → tree.modes.IsSound)
    (hNamed : named.IsOf tree) (hOwner : Owner tree ctx named.pointer.address owner) :
    Writes tree ctx total (executeNamed tree named)
      fun before body after => NamedCode tree ctx named before
        body after (named.pointer.temp owner) := by
  apply executePointer_writes hTree hNamed.pointer hOwner (NamedBody tree ctx named)
  cases hObj : named.object with
  | none => exact .of_pure fun _ => .fetch hObj
  | some object =>
    intro before hBefore
    refine .get_bind (.walk_bind (fun hTotal => checkInitialised_ends
      (hModes hTotal) (hNamed.object object hObj) _) ?_)
    intro check hCheck
    exact .of_pure ⟨.refl hBefore, .deref hObj hCheck⟩

------ Written Units

variable {id : NodeId}

/-
  A unit whose value has an expression, the same at all stages and from a depth on, and whose code
  can be written at all of them.
-/
structure Written (tree : SyntaxTree) (ctx : Context) (total : Prop) (fuel : Nat) (id : NodeId)
    (value : Expr) : Prop where
  yields : ∀ depth, fuel ≤ depth → Settled tree ctx (yieldWithin tree depth id) value
  writes : Writes tree ctx total (executeWithin tree fuel id)
    fun before body after => CodeWithin tree ctx fuel id before body after value

theorem mapM_settled (hWritten : List.Forall₂ (Written tree ctx total fuel) ids vals)
    (hDepth : fuel ≤ depth) : Settled tree ctx (ids.mapM (yieldWithin tree depth)) vals :=
  .mapM (hWritten.imp fun _ _ hUnit => hUnit.yields depth hDepth)

/- Units one after the other. -/
theorem inOrder_writes (hWritten : List.Forall₂ (Written tree ctx total fuel) ids values) :
    Writes tree ctx total (inOrder (executeWithin tree fuel) ids)
      fun before body after => InTurn (CodeWithin tree ctx fuel) ids before body after
        values := by
  induction hWritten with
  | nil => exact .of_pure fun _ => .nil
  | cons hFirst _ ih =>
    apply hFirst.writes.bind
    intro before first mid hCode hMid
    refine .bind (ih mid hMid) ?_
    rintro others after ⟨hAfter, hOthers⟩
    exact .of_pure ⟨hAfter, .cons hCode hOthers⟩

theorem exists_values (hParts : ∀ kid ∈ ids, ∃ value, Written tree ctx total fuel kid value) :
    ∃ values, List.Forall₂ (Written tree ctx total fuel) ids values := by
  induction ids with
  | nil => exact ⟨[], .nil⟩
  | cons first rest ih =>
    rcases hParts first List.mem_cons_self with ⟨value, hFirst⟩
    rcases ih fun kid hKid => hParts kid (List.mem_cons_of_mem _ hKid) with ⟨values, hRest⟩
    exact ⟨value :: values, .cons hFirst hRest⟩

/- A unit that designates an object, to which its code points a temporary. -/
structure Designated (tree : SyntaxTree) (ctx : Context) (total : Prop) (fuel : Nat)
    (id : NodeId) (temp : Temp) : Prop where
  yields : Settled tree ctx (yieldAddress tree id) temp
  writes : Writes tree ctx total (executeAddress tree
      (executeWithin tree fuel) id)
    fun before body after => AddressCode tree ctx
      (CodeWithin tree ctx fuel) id before body after temp

variable (hTree : tree.IsRegular) (hModes : total → tree.modes.IsSound)

include hTree hModes

theorem executeElement_writes (hFuel : fuel ≤ tree.bound) (hAttr : tree.attr id = .ok .slice)
    (hElem : elementOf tree id = .ok elem) (hPrimary : tree.attr elem.primary = .ok .identifier)
    (hBase : baseOf tree elem.primary = .ok base)
    (hOwner : Owner tree ctx elem.pointer.address owner)
    (hBaseOwner : Owner tree ctx base.pointer.address baseOwner)
    (hIndices : List.Forall₂ (Written tree ctx total fuel) elem.indices values) :
    Writes tree ctx total (executeElement tree
        (executeWithin tree fuel) id)
      fun before body after => AddressCode tree ctx
        (CodeWithin tree ctx fuel) id before body after (elem.pointer.temp owner) := by
  have hNamed : base.IsOf tree := isOf_of_baseOf hTree hPrimary hBase
  refine .lift_bind hElem ((executePointer_writes hTree
    (.element hAttr hElem) hOwner (ElementBody tree ctx
      (CodeWithin tree ctx fuel) elem base) ?_).mono ?_)
  · refine .lift_bind hBase ((executeNamed_writes hTree hModes hNamed hBaseOwner).bind ?_)
    intro before first mid hFirst hMid
    refine .bind (inOrder_writes hIndices mid hMid) ?_
    rintro others after ⟨hAfter, hOthers⟩
    refine .lift_bind hBase (.settled_bind (yieldPointer_settled hBaseOwner) hAfter.executing ?_)
    refine .settled_bind (mapM_settled hIndices hFuel) hAfter.executing ?_
    exact .of_pure ⟨hAfter, .mk hFirst hOthers⟩
  · intro before body after hCode
    exact .element hAttr hElem hPrimary hBase hCode

theorem executeComponent_writes (hAttr : tree.attr id = .ok .selection)
    (hComp : componentOf tree id = .ok component)
    (hSecondary : tree.attr component.secondary = .ok .identifier)
    (hBase : baseOf tree component.secondary = .ok base)
    (hOwner : Owner tree ctx component.pointer.address owner)
    (hBaseOwner : Owner tree ctx base.pointer.address baseOwner) :
    Writes tree ctx total (executeComponent tree id)
      fun before body after => AddressCode tree ctx
        (CodeWithin tree ctx fuel) id before body after (component.pointer.temp owner) := by
  have hNamed : base.IsOf tree := isOf_of_baseOf hTree hSecondary hBase
  refine .lift_bind hComp ((executePointer_writes hTree (.component hAttr hComp) hOwner
    (ComponentBody tree ctx base) ?_).mono ?_)
  · refine .lift_bind hBase ((executeNamed_writes hTree hModes hNamed hBaseOwner).bind ?_)
    intro before first after hFirst hAfter
    refine .lift_bind hBase (.settled_bind (yieldPointer_settled hBaseOwner) hAfter ?_)
    split
    · exact .of_pure ⟨.refl hAfter, .part hFirst⟩
    · refine .walk_bind (fun hTotal => (hModes
        hTotal).fieldOffset_ends (structureMode_lt hComp) _) ?_
      intro offset _
      exact .of_pure ⟨.refl hAfter, .field hFirst⟩
  · intro before body after hCode
    exact .component hAttr hComp hSecondary hBase hCode

/- The object that a name, a slice or a selection designates. -/
theorem exists_designated (hFuel : fuel ≤ tree.bound)
    (hParts : ∀ kid, part kid → ∃ value, Written tree ctx total fuel kid value)
    (hAddressed : Addressed tree (readyOf tree ctx) part id) :
    ∃ temp, Designated tree ctx total fuel id temp := by
  cases hAddressed with
  | name hAttr hNamed hReady =>
    rename_i named
    rcases exists_owner hReady with ⟨owner, hOwner⟩
    have hIsOf : named.IsOf tree := isOf_of_derefOf hTree hAttr hNamed
    refine ⟨named.pointer.temp owner, ?_, ?_⟩
    · exact .lift_bind hAttr (.lift_bind hNamed (yieldPointer_settled hOwner))
    · refine .lift_bind hAttr (.lift_bind hNamed
        ((executeNamed_writes hTree hModes hIsOf hOwner).mono ?_))
      intro before body after hCode
      exact .name hAttr hNamed hCode
  | element hAttr hElem hPrimary hBase hBaseReady hIndices hReady =>
    rename_i elem base
    rcases exists_owner hReady with ⟨owner, hOwner⟩
    rcases exists_owner hBaseReady with ⟨baseOwner, hBaseOwner⟩
    rcases exists_values fun index hIdx => hParts index (hIndices index hIdx) with ⟨values, hVals⟩
    refine ⟨elem.pointer.temp owner, ?_, ?_⟩
    · exact .lift_bind hAttr (.lift_bind hElem (yieldPointer_settled hOwner))
    · exact .lift_bind hAttr (executeElement_writes hTree
        hModes hFuel hAttr hElem hPrimary hBase hOwner hBaseOwner hVals)
  | component hAttr hComp hSecondary hBase hBaseReady hReady =>
    rename_i component base
    rcases exists_owner hReady with ⟨owner, hOwner⟩
    rcases exists_owner hBaseReady with ⟨baseOwner, hBaseOwner⟩
    refine ⟨component.pointer.temp owner, ?_, ?_⟩
    · exact .lift_bind hAttr (.lift_bind hComp (yieldPointer_settled hOwner))
    · exact .lift_bind hAttr (executeComponent_writes hTree
        hModes hAttr hComp hSecondary hBase hOwner hBaseOwner)

omit hTree hModes

------ Shapes

variable {part : NodeId → Prop} (hFuel : fuel ≤ tree.bound) (hNode : tree.node id = .ok node)
variable (hParts : ∀ kid, part kid → ∃ value, Written tree ctx total fuel kid value)

/- A unit that is no constant, seen from its parts. -/
structure WrittenShape (tree : SyntaxTree) (ctx : Context) (total : Prop) (fuel : Nat)
    (id : NodeId) (node : Node) (value : Expr) : Prop where
  yields : ∀ depth, fuel ≤ depth →
    Settled tree ctx (yieldShape tree (yieldWithin tree depth) id node) value
  writes : Writes tree ctx total (executeShape tree
      (executeWithin tree fuel) id node)
    fun before body after => ShapeCode tree ctx
      (CodeWithin tree ctx fuel) id before body after value

theorem valueOf_ends (hMode : mode.number < tree.modes.size) (temp : Temp) :
    (valueOf tree mode temp).Ends := by
  refine .bind (ModeTable.kind_ends hMode) ?_
  intro kind _
  split
  · exact .of_pure
  · split <;> exact .of_pure

include hTree hModes hNode in
theorem writtenShape_of_name (hAttr : node.attr = .identifier) (hMode : modeOf tree id = .ok mode)
    (hNamed : fetchOf tree id = .ok named)
    (hReady : (readyOf tree ctx).address named.pointer.address) :
    ∃ value, WrittenShape tree ctx total fuel id node value := by
  have hRead : tree.attr id = .ok .identifier := by rw [attr_eq hNode, hAttr]
  rcases exists_owner hReady with ⟨owner, hOwner⟩
  rcases valueOf_ends (modeOf_lt hTree hMode) (named.pointer.temp owner) with ⟨value, hVal⟩
  refine ⟨value, ?_, ?_⟩
  · intro depth _
    unfold yieldShape
    rw [hAttr]
    exact .lift_bind hNamed ((yieldPointer_settled hOwner).bind (.lift_bind hMode (.of_lift hVal)))
  · unfold executeShape
    rw [hAttr]
    refine .lift_bind hNamed ((executeNamed_writes hTree hModes
      (isOf_of_fetchOf hRead hNamed) hOwner).mono ?_)
    intro before body after hCode
    exact .name hRead hNamed hCode (isThrough_of_valueOf hVal)

theorem ShapeCode.of_address (hCode : AddressCode tree ctx code kid before body after temp)
    (hReads : Reads tree ctx id temp kid [] value) :
    ShapeCode tree ctx code id before body after value := by
  rw [← List.append_nil body]
  exact .object hCode hReads

/- The code behind which the temporary of an object is checked. -/
theorem Designated.checked (hDesignated : Designated tree ctx total fuel id temp)
    (hModes : total → tree.modes.IsSound) (hMode : mode.number < tree.modes.size) :
    Writes tree ctx total (do
        let body ← executeAddress tree (executeWithin tree fuel) id
        let ptr ← yieldAddress tree id
        let check ← checkInitialised tree (← get).options.checked ptr mode
        pure (body ++ check))
      fun before body after => ∃ first check, body = first ++ check ∧
          checkInitialised tree ctx.options.checked temp mode = .ok check ∧
          AddressCode tree ctx (CodeWithin tree ctx fuel) id before first after temp := by
  apply hDesignated.writes.bind
  intro before body after hBody hAfter
  refine .settled_bind hDesignated.yields hAfter (.get_bind
    (.walk_bind (fun hTotal => checkInitialised_ends (hModes hTotal) hMode temp) ?_))
  intro check hCheck
  exact .of_pure ⟨.refl hAfter, body, check, rfl, hCheck, hBody⟩

include hTree hModes hFuel hNode hParts in
theorem writtenShape_of_dereferencing (hAttr : node.attr = .dereferencing)
    (hMode : modeOf tree id = .ok mode) (hOp : childOf tree id 0 = .ok op)
    (hAddressed : Addressed tree (readyOf tree ctx) part op) :
    ∃ value, WrittenShape tree ctx total fuel id node value := by
  rcases exists_designated hTree hModes hFuel hParts hAddressed with ⟨temp, hDesignated⟩
  have hRange := modeOf_lt hTree hMode
  rcases valueOf_ends hRange temp with ⟨value, hVal⟩
  have hRead : tree.attr id = .ok .dereferencing := by rw [attr_eq hNode, hAttr]
  have hChecked : Writes tree ctx total _ fun before body after =>
      ShapeCode tree ctx (CodeWithin tree ctx fuel) id before body after value :=
    (hDesignated.checked hModes hRange).mono (by
      rintro before _ after ⟨first, check, rfl, hCheck, hCode⟩
      exact .object hCode (.behind hRead hOp hMode (.inr hCheck) hVal))
  refine ⟨value, ?_, ?_⟩
  · intro depth _
    have hYields := hDesignated.yields
    have hValue : Settled tree ctx (liftM (valueOf tree mode temp)) value := .of_lift hVal
    unfold yieldShape
    rw [hAttr]
    refine .lift_bind hOp (.lift_bind hMode ?_)
    cases hAddressed with
    | name hOperandAttr hNamed _ =>
      unfold yieldAddress at hYields
      rw [hOperandAttr, hNamed] at hYields
      exact .lift_bind hOperandAttr (.lift_bind hNamed (hYields.bind hValue))
    | element hOperandAttr | component hOperandAttr =>
      exact .lift_bind hOperandAttr (hYields.bind hValue)
  · unfold executeShape
    rw [hAttr]
    refine .lift_bind hOp (.lift_bind hMode ?_)
    cases hAddressed with
    | name hOperandAttr hNamed _ =>
      have hWrites := hDesignated.writes
      unfold executeAddress at hWrites
      rw [hOperandAttr] at hWrites ⊢
      apply hWrites.mono
      intro before body after hCode
      exact .of_address hCode (.behind hRead hOp hMode (.inl ⟨hOperandAttr, rfl⟩) hVal)
    | element hOperandAttr | component hOperandAttr => exact .lift_bind hOperandAttr hChecked

include hTree hModes hFuel hNode hParts in
theorem writtenShape_of_object (hAttr : node.attr = .slice ∨ node.attr = .selection)
    (hMode : modeOf tree id = .ok mode) (hAddressed : Addressed tree (readyOf tree ctx) part id) :
    ∃ value, WrittenShape tree ctx total fuel id node value := by
  rcases exists_designated hTree hModes hFuel hParts hAddressed with ⟨temp, hDesignated⟩
  have hRange := modeOf_lt hTree hMode
  have hPart : ∃ value, Settled tree ctx (yieldPart tree id) value ∧
      Reads tree ctx id temp id [] value := by
    have hRead := attr_eq hNode
    have hParts : node.attr ∈ [.slice, .selection] := List.mem_pair.mpr hAttr
    rcases ModeTable.deref?_ends hRange with ⟨target, hTarget⟩
    cases target with
    | some object =>
      refine ⟨.reference temp, ?_, .itself hRead hParts hMode (.inl rfl)⟩
      exact hDesignated.yields.bind (.lift_bind hMode (.lift_bind hTarget .of_pure))
    | none =>
      rcases valueOf_ends hRange temp with ⟨value, hVal⟩
      refine ⟨value, ?_, .itself hRead hParts hMode (.inr ⟨hTarget, hVal⟩)⟩
      exact hDesignated.yields.bind (.lift_bind hMode (.lift_bind hTarget (.of_lift hVal)))
  rcases hPart with ⟨value, hYields, hReads⟩
  have hWrites : Writes tree ctx total (do
        let body ← executeAddress tree (executeWithin tree fuel) id
        let _ ← modeOf tree id
        pure body)
      fun before body after => ShapeCode tree ctx
        (CodeWithin tree ctx fuel) id before body after value := by
    apply hDesignated.writes.bind
    intro before body after hBody hAfter
    refine .lift_bind hMode (.of_pure ⟨.refl hAfter, ?_⟩)
    exact .of_address hBody hReads
  refine ⟨value, ?_, ?_⟩
  · intro depth _
    unfold yieldShape
    rcases hAttr with hAttr | hAttr
    · rw [hAttr]
      exact hYields
    · rw [hAttr]
      exact hYields
  · unfold executeShape
    rcases hAttr with hAttr | hAttr
    · rw [hAttr]
      exact hWrites
    · rw [hAttr]
      exact hWrites

/- The value of an operation is kept or written in place. -/
def operationValue (builtin : Builtin) (values : List Expr) : Option Result → Expr
  | some found => .temp found.temp
  | none => .apply builtin.signature.rendering values

theorem yieldOperation_settled
    (hOperation : operationOf tree ctx.options.checked id = .ok ⟨builtin, ops, res⟩)
    (hVals : List.Forall₂ (Written tree ctx total fuel) ops values) (hDepth : fuel ≤ depth) :
    Settled tree ctx (yieldOperation tree (yieldWithin tree depth) id)
      (operationValue builtin values res) := by
  refine .get_bind fun _ => .lift_bind hOperation ?_
  cases res with
  | some found => exact .of_pure
  | none => exact (mapM_settled hVals hDepth).bind .of_pure

theorem executeOperation_writes (hFuel : fuel ≤ tree.bound) (hAttr : tree.attr id = .ok attr)
    (hShape : attr = .formula ∨ attr = .monadicFormula ∨ attr = .call)
    (hKeeps : (readyOf tree ctx).Keeps tree id) (hOps : operandsOf tree id = .ok (builtin, ops))
    (hOperation : operationOf tree ctx.options.checked id = .ok ⟨builtin, ops, res⟩)
    (hVals : List.Forall₂ (Written tree ctx total fuel) ops values) :
    Writes tree ctx total (executeOperation tree
        (executeWithin tree fuel) id)
      fun before body after => ShapeCode tree ctx (CodeWithin tree ctx fuel) id before body after
        (operationValue builtin values res) := by
  refine .get_bind fun _ => .lift_bind hOperation ((inOrder_writes hVals).bind ?_)
  intro before body after hBody hAfter
  cases res with
  | none => exact .of_pure ⟨.refl hAfter, .inPlace hBody (.apply hOps values)⟩
  | some found =>
    have hRes : HasResult tree ctx.options.checked id found :=
      .operation (by rcases hShape with rfl | rfl | rfl <;>
        simp [hAttr]) hOperation rfl
    have hName := hKeeps found hRes
    refine .settled_bind (mapM_settled hVals hFuel) hAfter ?_
    split
    · exact .of_pure ⟨.refl hAfter, .kept hBody hRes hName (.into hOps _ values)⟩
    · exact .of_pure ⟨.refl hAfter, .kept hBody hRes hName (.checked hOps _ values)⟩

include hTree hFuel hNode hParts in
theorem writtenShape_of_operation
    (hAttr : node.attr = .formula ∨ node.attr = .monadicFormula ∨ node.attr = .call)
    (hMode : modeOf tree id = .ok mode) (hKeeps : (readyOf tree ctx).Keeps tree id)
    (hOps : operandsOf tree id = .ok (builtin, ops)) (hKids : ∀ op ∈ ops, part op) :
    ∃ value, WrittenShape tree ctx total fuel id node value := by
  rcases operationOf_ends hTree hMode hOps ctx.options.checked with ⟨res, hOperation, -⟩
  rcases exists_values fun op hOp => hParts op (hKids op hOp) with ⟨values, hVals⟩
  have hWrites := executeOperation_writes hFuel (attr_eq hNode) hAttr hKeeps hOps hOperation hVals
  refine ⟨operationValue builtin values res, ?_, ?_⟩
  · intro depth hDepth
    have hYields := yieldOperation_settled hOperation hVals hDepth
    unfold yieldShape
    rcases hAttr with hAttr | hAttr | hAttr
    all_goals
      rw [hAttr]
      exact hYields
  · unfold executeShape
    rcases hAttr with hAttr | hAttr | hAttr
    all_goals
      rw [hAttr]
      exact hWrites

include hTree hNode in
theorem writtenShape_of_procedure (hAttr : node.attr = .deproceduring)
    (hMode : modeOf tree id = .ok mode) (hKeeps : (readyOf tree ctx).Keeps tree id)
    (hProc : procedureOf tree id = .ok builtin) :
    ∃ value, WrittenShape tree ctx total fuel id node value := by
  rcases ModeTable.storageClass?_ends (modeOf_lt hTree hMode) with ⟨storage, hStorage⟩
  have hPlain : plainResult tree id = .ok ⟨procedureTemp id,
      storage.getD "A68_REAL", (procedureTemp id).text⟩ := by
    simp [plainResult, procedureTemp, hMode, hStorage]
  have hRes : HasResult tree ctx.options.checked id _ :=
    .procedure (by rw [attr_eq hNode, hAttr]) hPlain
  refine ⟨.temp (procedureTemp id), ?_, ?_⟩
  · intro depth _
    unfold yieldShape
    rw [hAttr]
    exact .lift_bind hProc .of_pure
  · unfold executeShape
    rw [hAttr]
    refine .lift_bind hProc ?_
    intro before hBefore
    have hCode : ShapeCode tree ctx (CodeWithin tree ctx fuel) id before _ before _ :=
      .kept .nil hRes (hKeeps _ hRes) (.call (by rw [attr_eq hNode, hAttr]) hProc)
    exact .of_pure ⟨.refl hBefore, hCode⟩

include hNode hParts in
theorem writtenShape_of_enclosed (hAttr : node.attr = .cast ∨ node.attr = .closedClause ∨
      node.attr = .serialClause ∨ node.attr = .voiding) (hOnly : tree.children id = .ok [only])
    (hPart : part only) : ∃ value, WrittenShape tree ctx total fuel id node value := by
  rcases hParts only hPart with ⟨inner, hWritten⟩
  have hChild : childOf tree id 0 = .ok only := childOf_eq hOnly rfl
  have hEncloses : IsEnclosing tree id := ⟨node.attr, attr_eq hNode, by
      rcases hAttr with hAttr | hAttr | hAttr | hAttr
      all_goals simp [hAttr]⟩
  -- A voided unit is computed as it is, and has no value.
  have hWrites : ∀ value, (value = inner ∨ value = .blank) → Writes tree ctx total
        (executeShape tree (executeWithin tree fuel) id node)
        fun before body after => ShapeCode tree ctx
          (CodeWithin tree ctx fuel) id before body after value := by
    intro value hVal
    unfold executeShape
    rcases hAttr with hAttr | hAttr | hAttr | hAttr
    all_goals
      rw [hAttr]
      refine .lift_bind hChild (hWritten.writes.mono ?_)
      intro before body after hCode
      exact .enclosed hEncloses hOnly hCode hVal
  by_cases hVoid : node.attr = .voiding
  · refine ⟨.blank, ?_, hWrites .blank (.inr rfl)⟩
    intro depth hDepth
    unfold yieldShape
    rw [hVoid]
    exact .lift_bind hChild ((hWritten.yields depth hDepth).bind .of_pure)
  · refine ⟨inner, ?_, hWrites inner (.inl rfl)⟩
    intro depth hDepth
    have hYields : Settled tree ctx (do yieldWithin tree depth (← childOf tree id 0)) inner :=
      .lift_bind hChild (hWritten.yields depth hDepth)
    unfold yieldShape
    rcases hAttr with hAttr | hAttr | hAttr | hAttr
    · rw [hAttr]
      exact hYields
    · rw [hAttr]
      exact hYields
    · rw [hAttr]
      exact hYields
    · exact absurd hAttr hVoid

include hFuel hNode hParts in
theorem writtenShape_of_widening (hAttr : node.attr = .widening)
    (hKeeps : (readyOf tree ctx).Keeps tree id)
    (hWidening : wideningOf tree id = .ok (operand, isComplex)) (hPart : part operand) :
    ∃ value, WrittenShape tree ctx total fuel id node value := by
  rcases hParts operand hPart with ⟨value, hWritten⟩
  have hOp : childOf tree id 0 = .ok operand := by
    rcases Walk.bind_eq_ok.mp hWidening with ⟨only, hOnly, hFound⟩
    rcases Walk.bind_eq_ok.mp hFound with ⟨mode, -, hFound⟩
    cases hFound
    exact hOnly
  have hRead : tree.attr id = .ok .widening := by rw [attr_eq hNode, hAttr]
  have hTurn : ∀ {before body after}, CodeWithin tree ctx fuel operand before body after value →
      InTurn (CodeWithin tree ctx fuel) [operand] before body after [value] := by
    intro before body after hCode
    rw [← List.append_nil body]
    exact .cons hCode .nil
  cases isComplex with
  | false =>
    refine ⟨.toReal value, ?_, ?_⟩
    · intro depth hDepth
      unfold yieldShape
      rw [hAttr]
      exact .lift_bind hWidening ((hWritten.yields depth hDepth).bind .of_pure)
    · unfold executeShape
      rw [hAttr]
      refine .lift_bind hWidening (hWritten.writes.bind ?_)
      intro before body after hBody hAfter
      exact .of_pure ⟨.refl hAfter, .inPlace (hTurn hBody) (.toReal hRead hOp value)⟩
  | true =>
    have hRes : HasResult tree ctx.options.checked id (pairResult id) := .widening hRead hWidening
    refine ⟨.temp (pairResult id).temp, ?_, ?_⟩
    · intro depth _
      unfold yieldShape
      rw [hAttr]
      exact .lift_bind hWidening .of_pure
    · unfold executeShape
      rw [hAttr]
      refine .lift_bind hWidening (hWritten.writes.bind ?_)
      intro before body after hBody hAfter
      refine .settled_bind (hWritten.yields tree.bound hFuel) hAfter ?_
      exact .of_pure ⟨.refl hAfter, .kept (hTurn hBody) hRes
        (hKeeps _ hRes) (.widened hRead hOp value)⟩

include hNode hParts in
theorem writtenShape_of_relation (hAttr : node.attr = .identityRelation)
    (hRel : relationOf tree id = .ok relation) (hLeft : part relation.left)
    (hRight : part relation.right) : ∃ value, WrittenShape tree ctx total fuel id node value := by
  rcases hParts relation.left hLeft with ⟨left, hLeftWritten⟩
  rcases hParts relation.right hRight with ⟨right, hRightWritten⟩
  refine ⟨.sameName relation.same left right, ?_, ?_⟩
  · intro depth hDepth
    unfold yieldShape
    rw [hAttr]
    exact .lift_bind hRel ((hLeftWritten.yields depth hDepth).bind
      ((hRightWritten.yields depth hDepth).bind .of_pure))
  · unfold executeShape
    rw [hAttr]
    refine .lift_bind hRel (hLeftWritten.writes.bind ?_)
    intro before first mid hFirst hMid
    refine .bind (hRightWritten.writes mid hMid) ?_
    rintro second after ⟨hAfter, hSecond⟩
    have hTurn : InTurn (CodeWithin tree ctx fuel) [relation.left, relation.right] before
        (first ++ (second ++ [])) after [left, right] :=
      .cons hFirst (.cons hSecond .nil)
    rw [List.append_nil] at hTurn
    exact .of_pure ⟨hAfter, .inPlace hTurn (.sameName (by rw [attr_eq hNode, hAttr]) hRel left
      right)⟩

include hFuel hNode hParts in
theorem writtenShape_of_choice (hAttr : node.attr = .conditionalClause ∨ node.attr = .elifPart)
    (hChoice : choiceOf tree id = .ok choice) (hGuard : part choice.guard) (hYes : part choice.yes)
    (hNo : part choice.no) : ∃ value, WrittenShape tree ctx total fuel id node value := by
  rcases hParts choice.guard hGuard with ⟨guard, hGuardWritten⟩
  rcases hParts choice.yes hYes with ⟨yes, hYesWritten⟩
  rcases hParts choice.no hNo with ⟨no, hNoWritten⟩
  have hWrites : Writes tree ctx total (executeChoice tree
        (executeWithin tree fuel) id)
      fun before body after => ShapeCode tree ctx
        (CodeWithin tree ctx fuel) id before body after (.choose id guard yes no) := by
    refine .lift_bind hChoice (hGuardWritten.writes.bind ?_)
    intro before body after hBody hAfter
    refine .settled_bind (hGuardWritten.yields tree.bound hFuel) hAfter ?_
    refine .bind (hYesWritten.writes.branch after hAfter) ?_
    rintro first _ ⟨-, rfl, ofYes, hFirst⟩
    refine .bind (hNoWritten.writes.branch _ hAfter) ?_
    rintro second _ ⟨-, rfl, ofNo, hSecond⟩
    exact .of_pure ⟨.refl hAfter, .choice (attr_eq hNode) (List.mem_pair.mpr hAttr)
        hChoice hBody hFirst hSecond⟩
  refine ⟨.choose id guard yes no, ?_, ?_⟩
  · intro depth hDepth
    unfold yieldShape
    rcases hAttr with hAttr | hAttr
    all_goals
      rw [hAttr]
      exact .lift_bind hChoice ((hGuardWritten.yields depth hDepth).bind
        ((hYesWritten.yields depth hDepth).bind ((hNoWritten.yields depth hDepth).bind .of_pure)))
  · unfold executeShape
    rcases hAttr with hAttr | hAttr
    all_goals
      rw [hAttr]
      exact hWrites

theorem fillFields_meets (hModes : total → tree.modes.IsSound)
    (hMode : mode.number < tree.modes.size)
    (hFields : ∀ field ∈ fields, field.mode.number < tree.modes.size) :
    (fillFields tree mode temp index fields vals).Meets total
      fun body => (∀ stmt ∈ body, SetsField temp vals stmt) ∧
        (fields ≠ [] → vals ≠ [] → body ≠ []) := by
  induction fields generalizing index vals with
  | nil => simp [fillFields]
  | cons field rest ih =>
    cases vals with
    | nil => simp [fillFields]
    | cons value others =>
      rcases ModeTable.objectClass_ends (hFields field List.mem_cons_self) with ⟨storage, hStorage⟩
      unfold fillFields
      rw [hStorage, Walk.ok_bind]
      refine .bind (.of_ends fun hTotal => (hModes hTotal).fieldOffset_ends hMode index) ?_
      intro offset _
      refine .bind (ih fun other hOther => hFields other (List.mem_cons_of_mem _ hOther)) ?_
      rintro body ⟨hBody, -⟩
      refine ⟨?_, by simp⟩
      intro stmt hStmt
      rcases List.mem_cons.mp hStmt with rfl | hStmt
      · exact .initialise storage offset
      · rcases List.mem_cons.mp hStmt with rfl | hStmt
        · exact .set storage offset List.mem_cons_self
        · cases hBody stmt hStmt with
          | initialise other place => exact .initialise other place
          | set other place hVal => exact .set other place (List.mem_cons_of_mem _ hVal)

include hNode in
/- The array that a display is built in. -/
theorem exists_result_of_display (hAttr : node.attr = .collateralClause)
    (hSize : display.isComplex = false → (readyOf tree ctx).size display.mode)
    (hDisplay : displayOf tree id = .ok display) :
    ∃ res, HasResult tree ctx.options.checked id res ∧ res.temp = display.temp id := by
  have hRead : tree.attr id = .ok .collateralClause := by rw [attr_eq hNode, hAttr]
  cases hComplex : display.isComplex with
  | true =>
    exact ⟨pairResult id, .pair hRead hDisplay hComplex,
      by simp [pairResult, Display.temp, hComplex]⟩
  | false =>
    rcases hSize hComplex with ⟨size, hSize⟩
    exact ⟨_, .bytes hRead hDisplay hComplex hSize, rfl⟩

include hTree hModes hFuel hNode hParts in
theorem writtenShape_of_display (hAttr : node.attr = .collateralClause)
    (hMode : modeOf tree id = .ok display.mode) (hKeeps : (readyOf tree ctx).Keeps tree id)
    (hSize : display.isComplex = false → (readyOf tree ctx).size display.mode)
    (hDisplay : displayOf tree id = .ok display)
    (hFields : tree.modes.kind display.mode = .ok (.struct fields))
    (hCount : display.members.length = fields.length) (hSome : fields ≠ [])
    (hMembers : ∀ member ∈ display.members, part member) :
    ∃ value, WrittenShape tree ctx total fuel id node value := by
  rcases exists_values fun member hMem => hParts member (hMembers member hMem) with ⟨values, hVals⟩
  rcases exists_result_of_display hNode hAttr hSize hDisplay with ⟨res, hRes, hTemp⟩
  have hRead : tree.attr id = .ok .collateralClause := by rw [attr_eq hNode, hAttr]
  have hKids : tree.children id = .ok display.members := by
    rcases Walk.bind_eq_ok.mp hDisplay with ⟨_, -, hFound⟩
    rcases Walk.bind_eq_ok.mp hFound with ⟨members, hKids, hFound⟩
    cases hFound
    exact hKids
  have hRange : ∀ field ∈ fields, field.mode.number < tree.modes.size := by
    intro field hField
    exact hTree.inRange.modes.part_lt hFields (List.mem_map_of_mem hField)
  have hValuesSome : values ≠ [] := by
    rintro rfl
    have hLen := hVals.length_eq
    rw [hCount] at hLen
    exact hSome (List.length_eq_zero_iff.mp hLen)
  refine ⟨.temp (display.temp id), ?_, ?_⟩
  · intro depth _
    unfold yieldShape
    rw [hAttr]
    exact .lift_bind hDisplay .of_pure
  · unfold executeShape
    rw [hAttr]
    refine .lift_bind hDisplay ((inOrder_writes hVals).bind ?_)
    intro before body after hBody hAfter
    refine .settled_bind (mapM_settled hVals hFuel) hAfter ?_
    have hKept : ∀ {last : List Stmt}, Fills tree id (display.temp id) display.members values last →
          ShapeCode tree ctx (CodeWithin tree ctx fuel) id before (body ++ last) after
            (.temp (display.temp id)) := by
      intro last hLast
      rw [← hTemp] at hLast ⊢
      exact .kept hBody hRes (hKeeps _ hRes) hLast
    dsimp only
    split
    · exact .of_pure ⟨.refl hAfter, hKept (.pair hRead hKids _ _)⟩
    · have hDisplayFields : displayFields tree id display.mode = .ok fields := by
        simp [displayFields, hFields]
      refine .lift_bind hDisplayFields (.read_bind
        (fillFields_meets hModes (modeOf_lt hTree hMode) hRange) ?_)
      rintro filled ⟨hFilled, hNonempty⟩
      exact .of_pure ⟨.refl hAfter, hKept (.fields hRead hKids hFilled
          (hNonempty hSome hValuesSome))⟩

/- A store puts the value into the place. -/
theorem storeOf_meets (hModes : total → tree.modes.IsSound) (hMode : mode.number < tree.modes.size)
    (place : Place) (value : Expr) :
    (storeOf tree mode place value).Meets total fun stmt =>
      ∃ form, stmt = .store place form value := by
  unfold storeOf
  split
  · exact ⟨_, rfl⟩
  · rcases ModeTable.isPrimitive_ends hMode with ⟨isPrimitive, hPrim⟩
    rw [hPrim, Walk.ok_bind]
    split
    · exact ⟨_, rfl⟩
    · refine .bind (.of_ends fun hTotal => (hModes hTotal).byteSize_ends hMode) ?_
      intro size _
      exact ⟨_, rfl⟩

include hTree hModes hFuel hNode hParts

theorem writtenShape_of_assignation (hAttr : node.attr = .assignation)
    (hAssign : assignationOf tree id = .ok (destination, source))
    (hMode : modeOf tree source = .ok mode) (hSrc : part source)
    (hAddressed : Addressed tree (readyOf tree ctx) part destination) :
    ∃ value, WrittenShape tree ctx total fuel id node value := by
  rcases hParts source hSrc with ⟨value, hWritten⟩
  rcases exists_designated hTree hModes hFuel hParts hAddressed with ⟨temp, hDesignated⟩
  refine ⟨.reference temp, ?_, ?_⟩
  · intro depth _
    unfold yieldShape
    rw [hAttr]
    exact .lift_bind hAssign (hDesignated.yields.bind .of_pure)
  · unfold executeShape
    rw [hAttr]
    refine .lift_bind hAssign (hWritten.writes.bind ?_)
    intro before first mid hFirst hMid
    refine .bind (hDesignated.writes mid hMid) ?_
    rintro second after ⟨hAfter, hSecond⟩
    refine .settled_bind hDesignated.yields hAfter.executing
      (.settled_bind (hWritten.yields tree.bound hFuel) hAfter.executing ?_)
    refine .lift_bind hMode (.read_bind (storeOf_meets hModes (modeOf_lt hTree hMode) _ _) ?_)
    rintro store ⟨form, rfl⟩
    exact .of_pure ⟨hAfter, .assignation (by rw [attr_eq hNode, hAttr]) hAssign hFirst hSecond⟩

theorem exists_writtenShape (hForm : Form tree (readyOf tree ctx) part id node) :
    ∃ value, WrittenShape tree ctx total fuel id node value := by
  cases hForm with
  | name hAttr hMode hNamed hReady =>
    exact writtenShape_of_name hTree hModes hNode hAttr hMode hNamed hReady
  | dereferencing hAttr hMode hOp hAddressed =>
    exact writtenShape_of_dereferencing hTree hModes hFuel hNode hParts hAttr hMode hOp hAddressed
  | object hAttr hMode hAddressed =>
    exact writtenShape_of_object hTree hModes hFuel hNode hParts hAttr hMode hAddressed
  | operation hAttr hMode hKeeps hOps hKids =>
    exact writtenShape_of_operation hTree hFuel hNode hParts hAttr hMode hKeeps hOps hKids
  | procedure hAttr hMode hKeeps hProc =>
    exact writtenShape_of_procedure hTree hNode hAttr hMode hKeeps hProc
  | enclosed hAttr hOnly hPart => exact writtenShape_of_enclosed hNode hParts hAttr hOnly hPart
  | widening hAttr hKeeps hWidening hPart =>
    exact writtenShape_of_widening hFuel hNode hParts hAttr hKeeps hWidening hPart
  | relation hAttr hRel hLeft hRight =>
    exact writtenShape_of_relation hNode hParts hAttr hRel hLeft hRight
  | nihil hAttr =>
    refine ⟨.nil, ?_, ?_⟩
    · intro depth _
      unfold yieldShape
      rw [hAttr]
      exact .of_pure
    · unfold executeShape
      rw [hAttr]
      exact .of_pure fun _ => .inPlace .nil (.nil (by rw [attr_eq hNode, hAttr]))
  | choice hAttr hChoice hGuard hYes hNo =>
    exact writtenShape_of_choice hFuel hNode hParts hAttr hChoice hGuard hYes hNo
  | display hAttr hMode hKeeps hSize hDisplay hFields hCount hSome hMembers =>
    exact writtenShape_of_display hTree hModes hFuel hNode
      hParts hAttr hMode hKeeps hSize hDisplay hFields hCount hSome hMembers
  | assignation hAttr hAssign hMode hSrc hAddressed =>
    exact writtenShape_of_assignation hTree hModes hFuel hNode
      hParts hAttr hAssign hMode hSrc hAddressed

omit hNode hParts

/- A unit that can be written is. -/
theorem exists_written (hWritable : WritableWithin tree (readyOf tree ctx) fuel id) :
    ∃ value, Written tree ctx total fuel id value := by
  induction fuel generalizing id with
  | zero => exact hWritable.elim
  | succ fuel ih =>
    have hLess : fuel ≤ tree.bound := (Nat.le_succ fuel).trans hFuel
    rcases hWritable with ⟨node, hNode, ⟨hFolded, found, hFound⟩ | ⟨hFolded, hForm⟩⟩
    · refine ⟨.constant found, ?_, ?_⟩
      · intro depth hDepth bookings _
        cases depth with
        | zero => omega
        | succ depth => simp [yieldWithin, hNode, hFolded, yieldConstant, Context.booked, hFound]
      · refine .lift_bind hNode (.lift_bind hFolded ?_)
        exact .of_pure fun _ => .inl ⟨rfl, rfl, ⟨node, hNode, hFolded⟩, found, rfl⟩
    · rcases exists_writtenShape hTree hModes hLess hNode (fun kid hKid => ih hLess hKid) hForm with
        ⟨value, hShape⟩
      refine ⟨value, ?_, ?_⟩
      · intro depth hDepth
        cases depth with
        | zero => omega
        | succ depth =>
          have hYields := hShape.yields depth (by omega)
          exact .lift_bind hNode (.lift_bind hFolded hYields)
      · refine .lift_bind hNode (.lift_bind hFolded (hShape.writes.mono ?_))
        intro before body after hCode
        exact .inr hCode

end Inline

end Algol68
