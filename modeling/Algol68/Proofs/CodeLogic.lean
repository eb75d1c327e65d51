import Algol68.Proofs.Execution
import Algol68.Proofs.Traces

/-
  Reasoning about the code of units.

  What holds of the code of every unit is shown of one step at a time: of a statement behind
  others, of the temporary of a pointer, of a value that is put together, and of a branch.
-/

------ Temporaries of a Unit

namespace Algol68

open Stmt (targets reads operands)

variable {tree : SyntaxTree} {id : NodeId}

/- The temporaries whose objects a statement checks. -/
def Stmt.checks : Stmt → List Temp
  | .checkInitialised pointer _ => [pointer]
  | _ => []

namespace Inline

theorem holds_primary (hTree : tree.IsRegular) (hElem : elementOf tree id = .ok elem) :
    elem.pointer.node = id ∧ tree.Holds id elem.primary := by
  rcases elementOf_eq_ok hElem with ⟨_, _, _, _, _, _, _, _, hPrimary, -, -, -, -, -, -, rfl⟩
  exact ⟨rfl, .of_childOf hTree hPrimary⟩

theorem holds_secondary (hTree : tree.IsRegular) (hComp : componentOf tree id = .ok component) :
    component.pointer.node = id ∧ tree.Holds id component.secondary := by
  rcases componentOf_eq_ok hComp with
    ⟨_, _, _, _, _, _, _, _, _, _, -, hSecondary, -, -, -, -, -, -, rfl⟩
  exact ⟨rfl, .of_childOf hTree hSecondary⟩

/- A temporary of a node that is held by another. -/
inductive Belongs (tree : SyntaxTree) (ctx : Context) (id : NodeId) : Temp → Prop
  | pointer {pointer : Pointer} {owner : NodeId} (hPointer : pointer.IsOf tree)
      (hHolds : tree.Holds id pointer.node) (hOwner : Owner tree ctx pointer.address owner) :
      Belongs tree ctx id (pointer.temp owner)
  | result {inner : NodeId} {result : Result} (hHolds : tree.Holds id inner)
      (hResult : HasResult tree ctx.options.checked inner result)
      (hName : ctx.declarations.Has result.storage result.declarator) :
      Belongs tree ctx id result.temp

theorem Belongs.above (hHolds : tree.Holds id kid) (hTemp : Belongs tree ctx kid temp) :
    Belongs tree ctx id temp := by
  cases hTemp with
  | pointer hPtr hInner hOwner => exact .pointer hPtr (hHolds.trans hInner) hOwner
  | result hInner hRes hName => exact .result (hHolds.trans hInner) hRes hName

/- The temporary of a pointer that is found at a node. -/
def FoundAt (tree : SyntaxTree) (ctx : Context) (id : NodeId) (temp : Temp) : Prop :=
  ∃ (pointer : Pointer) (owner : NodeId), pointer.IsOf tree ∧ pointer.node = id ∧
      Owner tree ctx pointer.address owner ∧ temp = pointer.temp owner

/- The temporary of the object that a unit designates. -/
abbrev Addresses (tree : SyntaxTree) (ctx : Context) (id : NodeId) (temp : Temp) : Prop :=
  Settled tree ctx (yieldAddress tree id) temp

/- An object that a unit reads through, or the name of one that it stores into. -/
inductive UsedBy (tree : SyntaxTree) (unit object : NodeId) : Prop
  | read {read : NodeId} (hHolds : tree.Holds unit read)
      (hAttr : tree.attr read = .ok .dereferencing) (hObject : childOf tree read 0 = .ok object)
  | name {store : NodeId} (hHolds : tree.Holds unit store)
      (hAttr : tree.attr store = .ok .assignation) (hObject : childOf tree store 0 = .ok object)
      (hName : tree.attr object = .ok .identifier)

theorem PointerCode.exists_owner
    (hCode : PointerCode tree ctx pointer lower before body after temp) :
    ∃ owner, Owner tree ctx pointer.address owner ∧ temp = pointer.temp owner := by
  cases hCode with
  | booked hOwner _ | computed hOwner _ _ => exact ⟨_, hOwner, rfl⟩

/- The object behind the name of a row or structure. -/
theorem deref?_of_baseOf (hBase : baseOf tree id = .ok base) (hObj : base.object = some object)
    (hTag : tagOf tree id = .ok (tag, entry)) : tree.modes.kind entry.mode = .ok (.ref object) := by
  simp only [baseOf, Walk.bind_eq_ok] at hBase
  rcases hBase with ⟨mode, -, _ | _, -, hBase⟩
  · rcases fetchOf_eq_ok hBase with ⟨_, _, _, -, -, rfl⟩
    cases hObj
  · rcases derefOf_eq_ok hBase with ⟨_, _, _, _, hFound, hTarget, -, rfl⟩
    cases hObj
    cases hTag.symm.trans hFound
    exact ModeTable.deref?_eq_some.mp hTarget

theorem not_isPrimitive_of_elementOf (hElem : elementOf tree id = .ok elem)
    (hBase : baseOf tree elem.primary = .ok base) (hObj : base.object = some object) :
    tree.modes.isPrimitive object ≠ .ok true := by
  rcases elementOf_eq_ok hElem with ⟨_, _, _, _, _, _, _, _, -, -, hTag, hRow, -, -, -, rfl⟩
  have hRef := deref?_of_baseOf hBase hObj hTag
  rcases hKind : tree.modes.kind object with fault | kind
  · simp [ModeTable.isPrimitive, hKind]
  · cases kind <;> simp_all [ModeTable.isPrimitive, ModeTable.rowElement?, ModeKind.isPrimitive]

/- The structure of a selection is no object that is checked. -/
theorem not_isPrimitive_of_componentOf (hComp : componentOf tree id = .ok component)
    (hBase : baseOf tree component.secondary = .ok base) (hObj : base.object = some object) :
    tree.modes.isPrimitive object ≠ .ok true := by
  rcases componentOf_eq_ok hComp with
    ⟨_, _, _, _, _, _, _, _, _, _, -, -, hTag, -, hTarget, hField, -, -, rfl⟩
  have hRef := deref?_of_baseOf hBase hObj hTag
  cases hTarget.symm.trans (ModeTable.deref?_eq_some.mpr hRef)
  rcases ModeTable.field?_eq_some hField with ⟨fields, hKind, -⟩
  rw [Option.getD_some] at hKind
  simp [ModeTable.isPrimitive, hKind, ModeKind.isPrimitive]

theorem AddressCode.addresses (hCode : AddressCode tree ctx part id before body after temp) :
    Addresses tree ctx id temp := by
  cases hCode with
  | name hAttr hFound _ | element hAttr hFound _ _ _ | component hAttr hFound _ _ _ =>
    rename_i hBody
    rcases hBody.exists_owner with ⟨owner, hOwner, rfl⟩
    exact .lift_bind hAttr (.lift_bind hFound (yieldPointer_settled hOwner))

/- The pointer to what a unit designates is found at the unit. -/
theorem AddressCode.foundAt (hCode : AddressCode tree ctx part id before body after temp) :
    FoundAt tree ctx id temp := by
  cases hCode with
  | name hAttr hNamed hBody =>
    rcases hBody.exists_owner with ⟨owner, hOwner, hTemp⟩
    exact ⟨_, owner, .deref hAttr hNamed, (isFor_of_derefOf hNamed).node, hOwner, hTemp⟩
  | element hAttr hElem _ _ hBody =>
    rcases hBody.exists_owner with ⟨owner, hOwner, hTemp⟩
    exact ⟨_, owner, .element hAttr hElem, (isFor_of_elementOf hElem).node, hOwner, hTemp⟩
  | component hAttr hComp _ _ hBody =>
    rcases hBody.exists_owner with ⟨owner, hOwner, hTemp⟩
    exact ⟨_, owner, .component hAttr hComp, (isFor_of_componentOf hComp).node, hOwner, hTemp⟩

------ Rules

/- A value that is read off others. -/
inductive Derives (tree : SyntaxTree) (values : List Expr) : Expr → Prop
  | itself (hValue : value ∈ values) : Derives tree values value
  | built (hValue : Builds tree node parts values value) : Derives tree values value
  | applied (rendering : Rendering) : Derives tree values (.apply rendering values)
  | through (hTemp : .value temp ∈ values) (hValue : IsThrough temp value) :
      Derives tree values value
  | constant (constant : Value) : Derives tree values (.constant constant)
  | blank : Derives tree values .blank

/-
  The rules for what is shown of code that is written for nodes of a unit, from the bookings before
  it to those behind it, and of the values that it prepares. Some names are used.
-/
structure CodeLogic (tree : SyntaxTree) (ctx : Context) (unit : NodeId) (used : NodeId → Prop)
    (Shows : Bookings → List Stmt → Bookings → List Expr → Prop) : Prop where
  uses : UsedBy tree unit object → used object
  start : Shows before [] before []
  append : Shows before first middle values → Shows middle second after others →
    Shows before (first ++ second) after (values ++ others)
  derive : Shows before body after values → Derives tree values value →
    Shows before body after [value]
  simple : ∀ {stmt : Stmt}, Shows before body after values → stmt.isSimple = true →
    stmt.effects = [] → stmt.checks = [] → (∀ operand ∈ stmt.operands, operand ∈ values) →
    (∀ temp ∈ stmt.reads, .temp temp ∈ values) →
    (∀ temp ∈ stmt.targets, Belongs tree ctx unit temp) →
    (∀ other ∈ others, other ∈ values ∨ ∃ temp ∈ stmt.targets, other = .temp temp) →
    Shows before (body ++ [stmt]) after others
  store : Shows before body after [value, .temp temp] → tree.Holds unit node →
    tree.attr node = .ok .assignation → childOf tree node 0 = .ok destination →
    FoundAt tree ctx destination temp →
    Shows before (body ++ [.store (.object temp) form value]) after [.reference temp]
  /- The slot of a name, the object of one, and the row or structure that one names. -/
  fetch : tree.Holds unit node → tree.attr node = .ok .identifier → fetchOf tree node = .ok named →
    NamedCode tree ctx named before body after temp → Shows before body after [.value temp]
  deref : tree.Holds unit node → used node → tree.attr node = .ok .identifier →
    derefOf tree node = .ok named → NamedCode tree ctx named before body after temp →
    Addresses tree ctx node temp → Shows before body after [.value temp]
  base : tree.Holds unit node → tree.attr node = .ok .identifier → baseOf tree node = .ok named →
    (∀ object, named.object = some object → tree.modes.isPrimitive object ≠ .ok true) →
    NamedCode tree ctx named before body after temp → Shows before body after [.temp temp]
  pointer : ∀ {pointer : Pointer}, pointer.IsOf tree → tree.Holds unit pointer.node →
    pointer.address.action ≠ .deref →
    (∀ {before body after}, lower temp before body after → Shows before body after [.temp temp]) →
    PointerCode tree ctx pointer lower before body after temp → Shows before body after [.temp temp]
  read : Shows before body after [.temp temp] →
    (tree.attr operand = .ok .identifier → Shows before body after [.value temp]) →
    tree.Holds unit node → Addresses tree ctx operand temp →
    Reads tree ctx node temp operand check value → Shows before (body ++ check) after [value]
  choose : tree.Holds unit node → Shows before body after [test] →
    Shows after first ofYes [yes] → Shows after second ofNo [no] →
    Shows before (body ++ [.branch node test first second]) after [.choose node test yes no]

namespace CodeLogic

variable (logic : CodeLogic tree ctx unit used Shows)

include logic

------ Soundness

/- Units one after the other. -/
theorem inTurn (hPart : ∀ {kid before body after value}, kid ∈ parts →
      part kid before body after value → Shows before body after [value])
    (hCode : InTurn part parts before body after values) : Shows before body after values := by
  induction hCode with
  | nil => exact logic.start
  | cons hFirst _ ih =>
    exact logic.append (hPart List.mem_cons_self hFirst)
      (ih fun hKid => hPart (List.mem_cons_of_mem _ hKid))

/- The temporary of the object that a unit designates. For a name, the object may be read. -/
theorem address (hTree : tree.IsRegular) (hHolds : tree.Holds unit id)
    (hUsed : tree.attr id = .ok .identifier → used id)
    (hPart : ∀ {kid before body after value}, tree.Holds id kid →
      part kid before body after value → Shows before body after [value])
    (hCode : AddressCode tree ctx part id before body after temp) :
    Shows before body after [.temp temp] ∧
      (tree.attr id = .ok .identifier → Shows before body after [.value temp]) := by
  have hAddresses := hCode.addresses
  have hBelongs : ∀ {ptr : Pointer} {lower}, ptr.IsOf tree → ptr.node = id →
      PointerCode tree ctx ptr lower before body after temp → Belongs tree ctx unit temp := by
    rintro ptr lower hPtr rfl hCode
    rcases hCode.exists_owner with ⟨owner, hOwner, rfl⟩
    exact .pointer hPtr hHolds hOwner
  cases hCode with
  | name hAttr hNamed hCode =>
    have hVal := logic.deref hHolds (hUsed hAttr) hAttr hNamed hCode hAddresses
    exact ⟨logic.derive hVal (.through List.mem_cons_self .whole), fun _ => hVal⟩
  | element hAttr hElem hPrimary hBase hCode =>
    rcases holds_primary hTree hElem with ⟨hNode, hPrimaryHeld⟩
    have hPtr := Pointer.IsOf.element hAttr hElem
    have hTemp := hBelongs hPtr hNode hCode
    refine ⟨logic.pointer hPtr (hNode ▸ hHolds) (by simp [(isFor_of_elementOf hElem).action]) ?_
      hCode, fun hName => by cases hAttr.symm.trans hName⟩
    rintro before body after ⟨hFirst, hIndices⟩
    have hRow := logic.base (hHolds.trans hPrimaryHeld) hPrimary hBase
      (fun _ => not_isPrimitive_of_elementOf hElem hBase) hFirst
    have hOthers := logic.inTurn (fun hKid => hPart (holds_of_elementOf hTree hElem hKid)) hIndices
    exact logic.simple (logic.append hRow hOthers) rfl rfl rfl
      (fun _ hOp => List.mem_append_right _ hOp) (by simp [reads])
      (by simpa [targets] using hTemp) (by simp [targets])
  | component hAttr hComp hSecondary hBase hCode =>
    rcases holds_secondary hTree hComp with ⟨hNode, hSecondaryHeld⟩
    have hPtr := Pointer.IsOf.component hAttr hComp
    have hTemp := hBelongs hPtr hNode hCode
    refine ⟨logic.pointer hPtr (hNode ▸ hHolds) (by simp [(isFor_of_componentOf hComp).action]) ?_
      hCode, fun hName => by cases hAttr.symm.trans hName⟩
    intro before body after hBody
    cases hBody with
    | part hFirst | field hFirst =>
      have hObj := logic.base (hHolds.trans hSecondaryHeld) hSecondary hBase
        (fun _ => not_isPrimitive_of_componentOf hComp hBase) hFirst
      exact logic.simple hObj rfl rfl rfl (by simp [operands]) (by simp [reads])
        (by simpa [targets] using hTemp) (by simp [targets])

/- The temporary of a node is filled. -/
theorem fills (hTemp : Belongs tree ctx unit temp) (hBody : Shows before body after values)
    (hFills : Fills tree id temp parts values last) :
    Shows before (body ++ last) after [.temp temp] := by
  -- The temporary is given its value by one statement, and more may follow.
  have hCompute : ∀ {body : List Stmt} {stmt : Stmt} {needed others : List Expr},
      Shows before body after needed → stmt.isSimple = true → stmt.effects = [] →
      stmt.checks = [] → stmt.reads = [] → (∀ operand ∈ stmt.operands, operand ∈ needed) →
      stmt.targets = [temp] → (∀ other ∈ others, other ∈ needed ∨ other = .temp temp) →
        Shows before (body ++ [stmt]) after others := by
    intro body stmt needed others hNeeded hSimple hEffects hChecks hReads hOps hTargets hOthers
    exact logic.simple hNeeded hSimple hEffects hChecks hOps (by simp [hReads])
      (by simpa [hTargets] using hTemp) (by simpa [hTargets] using hOthers)
  have hApply : ∀ rendering, Shows before (body ++ [.compute temp (.apply rendering values)]) after
      [.temp temp] := fun rendering =>
    hCompute (logic.derive hBody (.applied rendering)) rfl rfl rfl rfl (fun _ hOp => hOp) rfl
      (by simp)
  cases hFills with
  | into | widened | pair =>
    exact hCompute hBody rfl rfl rfl rfl (fun _ hOp => hOp) rfl (by simp)
  | call => exact hApply _
  | checked =>
    rw [List.append_cons]
    exact logic.simple (hApply _) rfl rfl rfl (by simp [operands]) (by simp [reads])
      (by simp [targets]) (by simp)
  | fields _ _ hLast hSome =>
    have hFields : ∀ {body : List Stmt} {needed : List Expr}, Shows before body after needed →
        (∀ value ∈ values, value ∈ needed) →
          Shows before (body ++ last) after (.temp temp :: values) := by
      induction last with
      | nil => exact absurd rfl hSome
      | cons stmt rest ih =>
        intro body needed hBody hVals
        have hFirst : Shows before (body ++ [stmt]) after (.temp temp :: values) := by
          cases hLast stmt List.mem_cons_self with
          | initialise =>
            exact hCompute hBody rfl rfl rfl rfl (by simp [operands]) rfl (by grind)
          | set _ _ hVal =>
            exact hCompute hBody rfl rfl rfl rfl (by simpa [operands] using hVals _ hVal) rfl
              (by grind)
        cases rest with
        | nil => exact hFirst
        | cons =>
          rw [List.append_cons]
          exact ih (by simp) (fun other hOther => hLast other (List.mem_cons_of_mem _ hOther))
            hFirst fun _ => List.mem_cons_of_mem _
    exact logic.derive (hFields hBody fun _ hVal => hVal) (.itself List.mem_cons_self)

/- The code of a unit, from that of its parts. -/
theorem shape (hTree : tree.IsRegular) (hHolds : tree.Holds unit id)
    (hPart : ∀ {kid before body after value}, tree.Holds id kid →
      part kid before body after value → Shows before body after [value])
    (hCode : ShapeCode tree ctx part id before body after value) :
    Shows before body after [value] := by
  cases hCode with
  | name hAttr hNamed hCode hVal =>
    exact logic.derive (logic.fetch hHolds hAttr hNamed hCode) (.through List.mem_cons_self hVal)
  | @object operand _ _ _ _ _ _ hCode hReads =>
    have hBelow := hReads.holds hTree
    have hUsed : tree.attr operand = .ok .identifier → used operand := by
      intro hName
      cases hReads with
      | behind hAttr hOp => exact logic.uses (.read hHolds hAttr hOp)
      | itself hAttr hShape =>
        cases hAttr.symm.trans hName
        exact absurd hShape (by decide)
    rcases logic.address hTree (hHolds.trans hBelow) hUsed
      (fun hKid => hPart (hBelow.trans hKid)) hCode with ⟨hTemp, hVal⟩
    exact logic.read hTemp hVal hHolds hCode.addresses hReads
  | inPlace hCode hVal =>
    exact logic.derive (logic.inTurn (fun hKid => hPart (hVal.holds hTree _ hKid)) hCode)
      (.built hVal)
  | enclosed _ hOnly hCode hVal =>
    have hInner := hPart (.of_child hOnly List.mem_cons_self) hCode
    rcases hVal with rfl | rfl
    · exact hInner
    · exact logic.derive hInner .blank
  | kept hCode hRes hName hLast =>
    exact logic.fills (.result hHolds hRes hName)
      (logic.inTurn (fun hKid => hPart (hLast.holds hTree _ hKid)) hCode) hLast
  | choice _ _ hChoice hGuard hYes hNo =>
    rcases holds_of_choiceOf hTree hChoice with ⟨hGuardHeld, hYesHeld, hNoHeld⟩
    exact logic.choose hHolds (hPart hGuardHeld hGuard) (hPart hYesHeld hYes) (hPart hNoHeld hNo)
  | assignation hAttr hAssign hSrc hCode =>
    rcases holds_of_assignationOf hTree hAssign with ⟨hDestHeld, hSourceHeld⟩
    rcases Walk.bind_eq_ok.mp hAssign with ⟨_, hDest, hFound⟩
    rcases Walk.bind_eq_ok.mp hFound with ⟨_, -, hFound⟩
    cases hFound
    have hAddr := logic.address hTree (hHolds.trans hDestHeld)
      (fun hName => logic.uses (.name hHolds hAttr hDest hName))
      (fun hKid => hPart (hDestHeld.trans hKid)) hCode
    exact logic.store (logic.append (hPart hSourceHeld hSrc) hAddr.1) hHolds hAttr hDest
      hCode.foundAt

/- The code of a unit, by induction on its depth. -/
theorem sound (hTree : tree.IsRegular) (hHolds : tree.Holds unit id)
    (hCode : CodeWithin tree ctx fuel id before body after value) :
    Shows before body after [value] := by
  induction fuel generalizing id before body after value with
  | zero => exact hCode.elim
  | succ fuel ih =>
    rcases hCode with ⟨rfl, rfl, -, constant, rfl⟩ | hShape
    · exact logic.derive logic.start (.constant constant)
    · exact logic.shape hTree hHolds (fun hKid => ih (hHolds.trans hKid)) hShape

end CodeLogic

end Inline

end Algol68
