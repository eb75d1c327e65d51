import Algol68.Planner
import Algol68.Proofs.Execution

/-
  The code of planned clauses.

  The units that a plan writes in place were accepted by the classifier, so that they can be
  declared and written. What is written for a clause is told by relations like those for units:
  every item of a clause starts from the bookings of the guards before it.
-/

------ Planned Units

namespace Algol68

variable {tree : SyntaxTree} {id : NodeId}

/- A unit that the classifier accepted. -/
inductive Inline.Inlined (tree : SyntaxTree) (id : NodeId) : Prop
  | unit {tier : Nat} (hBasic : tree.isBasic id tier = .ok true)
  /- The unit of a guard or selector. -/
  | serial {serial : NodeId} {tier : Nat} (hBasic : tree.isBasicSerial serial tier = .ok true)
      (hUnit : tree.sub? serial = .ok (some id))
  | conditional {tier : Nat} (hBasic : tree.isBasicConditional id tier = .ok true)
      (hAttr : tree.attr id = .ok .conditionalClause)

theorem Inline.Inlined.writable (hTree : tree.IsRegular) (hInlined : Inlined tree id) :
    Writable tree .all id := by
  cases hInlined with
  | unit hBasic => exact writable_of_isBasic hTree hBasic
  | serial hBasic hUnit => exact writable_of_isBasicSerial hTree hBasic hUnit
  | conditional hBasic hAttr =>
    rcases Classifier.attr_eq_ok.mp hAttr with ⟨node, hNode, hNodeAttr⟩
    exact writable_of_isBasicConditional hTree hBasic hNode hNodeAttr

/- A unit that can be written is in the tree. -/
theorem Inline.Writable.exists_node (hWritable : Writable tree ready id) :
    ∃ node, tree.node id = .ok node := by
  unfold Writable at hWritable
  cases hBound : tree.bound with
  | zero =>
    rw [hBound] at hWritable
    exact hWritable.elim
  | succ fuel =>
    rcases hWritable with ⟨node, hNode, -⟩
    exact ⟨node, hNode⟩

namespace Item

/-
  The units of an item that are written in place are as
  described, and a variable that is allocated has an object.
-/
def Has (tree : SyntaxTree) (unit : NodeId → Prop) (item : Item) : Prop :=
  match item.kind with
  | .inline => unit item.site.node
  | .allocation =>
    tree.attr item.site.node = .ok .variableDeclaration ∧
      (∃ found, Emission.allocatedTag tree item.site.node = .ok found) ∧
      ∃ init, tree.sub? item.site.node = .ok init ∧ ∀ first ∈ init, unit first
  | .call _ | .declaration => True

theorem Has.mono {item : Item} (hItem : item.Has tree strong) (hUnits : ∀ id, strong id → weak id) :
    item.Has tree weak := by
  unfold Has at hItem ⊢
  cases hKind : item.kind with
  | inline =>
    rw [hKind] at hItem
    exact hUnits _ hItem
  | allocation =>
    rw [hKind] at hItem
    rcases hItem with ⟨hAttr, hTag, init, hInit, hFirst⟩
    exact ⟨hAttr, hTag, init, hInit, fun first hMem => hUnits first (hFirst first hMem)⟩
  | call | declaration => trivial

end Item

/- The units of a serial clause are as described. -/
def SerialPlan.Has (tree : SyntaxTree) (unit : NodeId → Prop) (plan : SerialPlan) : Prop :=
  ∀ item ∈ plan.items, item.Has tree unit

theorem SerialPlan.Has.mono {plan : SerialPlan} (hPlan : plan.Has tree strong)
    (hUnits : ∀ id, strong id → weak id) : plan.Has tree weak :=
  fun item hItem => (hPlan item hItem).mono hUnits

/- The units of a choice are as described. -/
def ChoicePlan.Has (tree : SyntaxTree) (unit : NodeId → Prop) : ChoicePlan → Prop
  | .nothing => True
  | .otherwise last => last.Has tree unit
  | .select selector branches rest =>
    unit selector ∧ (∀ item ∈ branches.items, item.Has tree unit) ∧ rest.Has tree unit

theorem ChoicePlan.Has.mono {plan : ChoicePlan} (hPlan : plan.Has tree strong)
    (hUnits : ∀ id, strong id → weak id) : plan.Has tree weak := by
  induction plan with
  | nothing => trivial
  | otherwise last => exact SerialPlan.Has.mono hPlan hUnits
  | select selector branches rest ih =>
    exact ⟨hUnits _ hPlan.1, fun item hItem => (hPlan.2.1 item hItem).mono hUnits, ih hPlan.2.2⟩

/- The units of a loop are as described, and its counter is. -/
structure LoopPlan.Has (tree : SyntaxTree) (unit : NodeId → Prop) (plan : LoopPlan) : Prop where
  counter : ∀ tag ∈ plan.counter, ∃ id node, tree.node id = .ok node ∧ node.tag = some tag
  bounds : ∀ bound ∈ plan.bounds, unit bound
  body : plan.body.Has tree unit

------ Marks

/- The marks of a node are among some names. -/
def Emission.Marks (name : String → String → Prop) (id : NodeId) (opensFrame : Bool) : Prop :=
  name "ADDR_T" (stackMark id).text ∧ (opensFrame = true → name "ADDR_T" (frameMark id).text)

open Emission

/- The marks of a serial clause are among some names. -/
def SerialPlan.Marked (name : String → String → Prop) (plan : SerialPlan) : Prop :=
  Marks name plan.site.node plan.opensFrame

def Branches.Marked (name : String → String → Prop) : Branches → Prop
  | .guarded yes => yes.Marked name
  | .numbered _ => True

def ChoicePlan.Marked (name : String → String → Prop) : ChoicePlan → Prop
  | .nothing => True
  | .otherwise last => last.Marked name
  | .select _ branches rest => branches.Marked name ∧ rest.Marked name

/- The temporaries of a loop are among some names. -/
structure LoopPlan.Marked (tree : SyntaxTree) (name : String → String → Prop) (id : NodeId)
    (plan : LoopPlan) : Prop where
  bounds : ∀ stem ∈ ["from", "by", "to", "count"], name "INT_T" ((plan.header id).temp stem).text
  marks : Marks name id plan.opensFrame
  counter : ∀ temp slot, loopCounter tree id plan.counter = .ok (some (temp, slot)) →
      name "A68_INT" ("*" ++ temp.text)
  body : plan.body.Marked name

section

variable {name : String → String → Prop} (hAll : ∀ storage text, name storage text)

include hAll

theorem Emission.Marks.of_all (id : NodeId) (opensFrame : Bool) : Marks name id opensFrame :=
  ⟨hAll _ _, fun _ => hAll _ _⟩

theorem SerialPlan.Marked.of_all (plan : SerialPlan) : plan.Marked name := Marks.of_all hAll _ _

theorem ChoicePlan.Marked.of_all (plan : ChoicePlan) : plan.Marked name := by
  induction plan with
  | nothing => trivial
  | otherwise last => exact SerialPlan.Marked.of_all hAll last
  | select _ branches _ ih =>
    cases branches with
    | guarded yes => exact ⟨SerialPlan.Marked.of_all hAll yes, ih⟩
    | numbered _ => exact ⟨trivial, ih⟩

theorem LoopPlan.Marked.of_all (tree : SyntaxTree) (id : NodeId) (plan : LoopPlan) :
    plan.Marked tree name id where
  bounds := fun _ _ => hAll _ _
  marks := .of_all hAll _ _
  counter := fun _ _ _ => hAll _ _
  body := .of_all hAll _

end

------ Declaring Clauses

namespace Emission

open Inline

variable (hTree : tree.IsRegular)
variable (hModes : total → tree.modes.IsSound)

include hTree hModes

theorem declareInlined (hInlined : Inlined tree id) :
    Declares tree naming total (declareUnit tree id) fun ready => Writable tree ready id :=
  declareUnit_declares hTree hModes (hInlined.writable hTree)

theorem declareItem_declares (hItem : item.Has tree (Inlined tree)) :
    Declares tree naming total (declareItem tree item) fun ready =>
      item.Has tree (Writable tree ready) := by
  unfold declareItem
  unfold Item.Has at hItem ⊢
  cases hKind : item.kind with
  | inline =>
    rw [hKind] at hItem
    exact declareInlined hTree hModes hItem
  | call func | declaration => exact .of_pure fun _ => trivial
  | allocation =>
    rw [hKind] at hItem
    rcases hItem with ⟨hAttr, hTag, init, hInit, hUnit⟩
    refine .lift_bind hInit ?_
    cases init with
    | none =>
      refine .of_pure fun ready => ?_
      exact ⟨hAttr, hTag, none, hInit, by simp⟩
    | some first =>
      refine (declareInlined hTree hModes (hUnit first rfl)).mono ?_
      intro ready hReady
      exact ⟨hAttr, hTag, some first, hInit, by simpa using hReady⟩

theorem declareItems_declares {items : List Item}
    (hItems : ∀ item ∈ items, item.Has tree (Inlined tree)) :
    Declares tree naming total (items.forM (declareItem tree)) fun ready => ∀ item ∈ items,
        item.Has tree (Writable tree ready) :=
  .forM fun item hItem => declareItem_declares hTree hModes (hItems item hItem)

omit hTree hModes

theorem declareMarks_declares (hMarks : Marks naming.mark id opensFrame) :
    Declares tree naming total (declareMarks id opensFrame)
      fun ready => Marks ready.name id opensFrame := by
  refine (declareName_declares (.mark hMarks.1)).bind ?_
  split
  · rename_i hOpens
    exact (declareName_declares (.mark (hMarks.2 hOpens))).mono fun ready hName _ => hName
  · rename_i hClosed
    exact .of_pure fun ready hOpens => absurd hOpens hClosed

include hTree hModes

theorem declareSerial_declares (hPlan : plan.Has tree (Inlined tree))
    (hMarks : plan.Marked naming.mark) :
    Declares tree naming total (declareSerial tree plan) fun ready => plan.Marked ready.name ∧
        plan.Has tree (Writable tree ready) :=
  (declareMarks_declares hMarks).bind (declareItems_declares hTree hModes hPlan)

theorem declareBranches_declares (hItems : ∀ item ∈ branches.items, item.Has tree (Inlined tree))
    (hMarks : branches.Marked naming.mark) :
    Declares tree naming total (declareBranches tree branches) fun ready =>
      branches.Marked ready.name ∧
        ∀ item ∈ branches.items, item.Has tree (Writable tree ready) := by
  cases branches with
  | guarded yes => exact declareSerial_declares hTree hModes hItems hMarks
  | numbered alternatives =>
    exact (declareItems_declares hTree hModes hItems).mono fun ready hReady => ⟨trivial, hReady⟩

theorem declareChoice_declares (hPlan : plan.Has tree (Inlined tree))
    (hMarks : plan.Marked naming.mark) :
    Declares tree naming total (declareChoice tree plan) fun ready => plan.Marked ready.name ∧
        plan.Has tree (Writable tree ready) := by
  induction plan with
  | nothing => exact .of_pure fun _ => ⟨trivial, trivial⟩
  | otherwise last => exact declareSerial_declares hTree hModes hPlan hMarks
  | select selector branches rest ih =>
    refine ((declareInlined hTree hModes hPlan.1).bind
      ((declareBranches_declares hTree hModes hPlan.2.1
        hMarks.1).bind (ih hPlan.2.2 hMarks.2))).mono ?_
    rintro ready ⟨hSelector, ⟨hBranchMarks, hBranches⟩, hRestMarks, hRest⟩
    exact ⟨⟨hBranchMarks, hRestMarks⟩, hSelector, hBranches, hRest⟩

omit hModes in
theorem loopCounter_ends
    (hCounter : ∀ tag ∈ counter, ∃ id node, tree.node id = .ok node ∧ node.tag = some tag)
    (id : NodeId) : (loopCounter tree id counter).Ends := by
  cases counter with
  | none => exact .of_pure
  | some tag =>
    rcases hCounter tag rfl with ⟨part, node, hNode, hTag⟩
    exact .bind (hTree.inRange.tag_ends hNode hTag) fun _ _ => .of_pure

theorem declareLoop_declares (hPlan : plan.Has tree (Inlined tree))
    (hMarks : plan.Marked tree naming.mark id) :
    Declares tree naming total (declareLoop tree id plan)
      fun ready => plan.Marked tree ready.name id ∧ plan.Has tree (Writable tree ready) := by
  have hBounds : Declares tree naming total (plan.bounds.forM (declareUnit tree)) fun ready =>
        ∀ bound ∈ plan.bounds, Writable tree ready bound :=
    .forM fun bound hBound => declareInlined hTree hModes (hPlan.bounds bound hBound)
  have hNames : Declares tree naming total (["from", "by", "to", "count"].forM fun stem =>
        declareName "INT_T" ((plan.header id).temp stem).text)
      fun ready => ∀ stem ∈ ["from", "by", "to", "count"],
        ready.name "INT_T" ((plan.header id).temp stem).text :=
    .forM fun stem hStem => declareName_declares (.mark (hMarks.bounds stem hStem))
  have hSerial : Declares tree naming total _ _ :=
    declareSerial_declares hTree hModes hPlan.body hMarks.body
  rcases loopCounter_ends hTree hPlan.counter id with ⟨counter, hCounter⟩
  have hWhole : ∀ ready : Ready, (∀ bound ∈ plan.bounds, Writable tree ready bound) ∧
      (∀ stem ∈ ["from", "by", "to", "count"],
        ready.name "INT_T" ((plan.header id).temp stem).text) ∧
      Marks ready.name id plan.opensFrame ∧
      (∀ entry ∈ counter, ready.name "A68_INT" ("*" ++ entry.1.text)) ∧
      plan.body.Marked ready.name ∧ plan.body.Has tree (Writable tree ready) →
      plan.Marked tree ready.name id ∧ plan.Has tree (Writable tree ready) := by
    rintro ready ⟨hReadyBounds, hReadyNames, hReadyMarks, hReadyCounter, hBodyMarks, hReadyBody⟩
    refine ⟨⟨hReadyNames, hReadyMarks, ?_, hBodyMarks⟩, hPlan.counter, hReadyBounds, hReadyBody⟩
    intro temp slot hFound
    rw [hCounter, Except.ok.injEq] at hFound
    exact hReadyCounter (temp, slot) hFound
  -- The body is declared after the counter, if there is one.
  cases counter with
  | none =>
    refine .lift_bind hCounter ((hBounds.bind (hNames.bind
      ((declareMarks_declares hMarks.marks).bind hSerial))).mono ?_)
    rintro ready ⟨hReadyBounds, hReadyNames, hReadyMarks, hBody⟩
    exact hWhole ready ⟨hReadyBounds, hReadyNames, hReadyMarks, by simp, hBody⟩
  | some entry =>
    have hAllowed := hMarks.counter entry.1 entry.2 hCounter
    refine .lift_bind hCounter ((hBounds.bind (hNames.bind
      ((declareMarks_declares hMarks.marks).bind ((declareName_declares (.mark hAllowed)).bind
          hSerial)))).mono ?_)
    rintro ready ⟨hReadyBounds, hReadyNames, hReadyMarks, hName, hBody⟩
    exact hWhole ready ⟨hReadyBounds, hReadyNames, hReadyMarks, by simpa using hName, hBody⟩

end Emission

------ Code of Clauses

namespace Emission

open Inline

variable (tree : SyntaxTree) (ctx : Context)

/- The value of a unit is dropped, or pushed. -/
inductive ValueCode (id : NodeId) : Bookings → List Stmt → Bookings → Prop
  | dropped {before after : Bookings} {body : List Stmt} {value : Expr}
      (hCode : Code tree ctx id before body after value) :
      ValueCode id before body after
  | pushed {before after : Bookings} {body : List Stmt} {value : Expr} {mode : ModeId}
      {form : PushForm} (hCode : Code tree ctx id before body after value) :
      ValueCode id before (body ++ [.push mode form value]) after

/- The reference that an allocated variable has in its block. -/
def referenceOf (id : NodeId) (entry : Tag) : Temp := ⟨Text.identifier entry.name ++ "_ref", id⟩

/- The first value of a variable is stored, if there is one. -/
inductive InitCode (reference : Temp) : Option NodeId → Bookings → List Stmt → Prop
  | none {before : Bookings} : InitCode reference none before []
  | some {init : NodeId} {before after : Bookings} {body : List Stmt} {value : Expr}
      {storage : String} {form : StoreForm}
      (hCode : Code tree ctx init before body after value) :
      InitCode reference (some init) before
        (body ++ [.store (.target storage reference) form value])

/- What is written for an item of a clause. -/
inductive ItemCode (item : Item) : Bookings → List Stmt → Prop
  | inline {before after : Bookings} {body : List Stmt} (hKind : item.kind = .inline)
      (hCode : ValueCode tree ctx item.site.node before body after) : ItemCode item before body
  | call {before : Bookings} {function : String} (hKind : item.kind = .call function) :
      ItemCode item before [.call function item.site]
  | declaration {before : Bookings} (hKind : item.kind = .declaration) :
      ItemCode item before [.declaration item.site]
  | allocation {before : Bookings} {body : List Stmt} {entry : Tag} {slot : Slot} {size : Nat}
      {init : Option NodeId} (hKind : item.kind = .allocation)
      (hAttr : tree.attr item.site.node = .ok .variableDeclaration)
      (hInit : tree.sub? item.site.node = .ok init)
      (hCode : InitCode tree ctx (referenceOf item.site.node entry) init before body) :
      ItemCode item before [.block (.referenceTo (referenceOf item.site.node entry) slot ::
            .generate item.site (referenceOf item.site.node entry) size :: body)]

/- Items one after the other, all from the same bookings. -/
inductive ItemsCode (mark : Temp) : List Item → Bookings → List Stmt → Prop
  | nil {before : Bookings} : ItemsCode mark [] before []
  | last {item : Item} {before : Bookings} {body : List Stmt}
      (hItem : ItemCode tree ctx item before body) :
      ItemsCode mark [item] before body
  | cons {item : Item} {rest : List Item} {before : Bookings} {body others : List Stmt}
      (hItem : ItemCode tree ctx item before body) (hRest : ItemsCode mark rest before others) :
      ItemsCode mark (item :: rest) before (body ++ .resetStack mark :: others)

/- What is written for a serial clause. -/
inductive SerialCode (plan : SerialPlan) : Bookings → List Stmt → Prop
  | mk {before : Bookings} {body : List Stmt}
      (hItems : ItemsCode tree ctx (stackMark plan.site.node) plan.items before body) :
      SerialCode plan before (openFrame plan.site.node plan.site plan.opensFrame ++
          .saveStack (stackMark plan.site.node) :: body ++
          closeFrame plan.site.node plan.opensFrame)

/- What is written for a conditional or case clause. -/
inductive ChoiceCode : ChoicePlan → Bookings → List Stmt → Prop
  | nothing {before : Bookings} : ChoiceCode .nothing before []
  | otherwise {last : SerialPlan} {before : Bookings} {body : List Stmt}
      (hLast : SerialCode tree ctx last before body) : ChoiceCode (.otherwise last) before body
  | guarded {guard : NodeId} {yes : SerialPlan} {rest : ChoicePlan} {before middle : Bookings}
      {body first second : List Stmt} {condition : Expr}
      (hGuard : Code tree ctx guard before body middle condition)
      (hYes : SerialCode tree ctx yes middle first)
      (hRest : ChoiceCode rest middle second) :
      ChoiceCode (.select guard (.guarded yes) rest) before
        (body ++ [guardOf guard condition first second rest])
  | numbered {selector : NodeId} {alternatives : List Item} {rest : ChoicePlan}
      {before middle : Bookings} {body otherwise : List Stmt} {arms : List (List Stmt)}
      {number : Expr} (hSelector : Code tree ctx selector before body middle number)
      (hArms : List.Forall₂ (fun item arm => ItemCode tree ctx item middle arm) alternatives arms)
      (hRest : ChoiceCode rest middle otherwise) :
      ChoiceCode (.select selector (.numbered alternatives) rest) before
        (body ++ [.switch number arms otherwise])

/- A bound of a loop, or what stands for an absent one. -/
def IsBound (values : List Expr) (value : Expr) : Prop :=
  value ∈ values ∨ value = .constant (.int 1)

/- What is written for a loop. -/
inductive LoopCode (id : NodeId) (plan : LoopPlan) : Bookings → List Stmt → Prop
  | mk {counter : Option (Temp × Slot)} {before middle : Bookings} {bounds limit body : List Stmt}
      {values : List Expr} {start step : Expr}
      (hCounter : loopCounter tree id plan.counter = .ok counter)
      (hBounds : InTurn (Code tree ctx) plan.bounds before bounds middle values)
      (hStart : IsBound values start) (hStep : IsBound values step)
      (hLimit : limit = [] ∨ ∃ value ∈ values,
        limit = [.compute ((plan.header id).temp "to") value])
      (hBody : SerialCode tree ctx plan.body middle body) :
      LoopCode id plan before (bounds ++ [.compute ((plan.header id).temp "from") start,
            .compute ((plan.header id).temp "by") step] ++
          limit ++
          openFrame id plan.body.site plan.opensFrame ++
          (counter.toList.map fun entry => .fetch entry.1 "A68_INT" entry.2) ++
          [.saveStack (stackMark id), .loop (plan.header id) ((counter.toList.map fun entry =>
                  .setCounter entry.1 ((plan.header id).temp "count")) ++
                body ++
                .resetStack (stackMark id) ::
                  if plan.needsInitialisation then [.initialiseFrame plan.body.site] else [])] ++
          closeFrame id plan.opensFrame)

/- Values one after the other. -/
inductive ValuesCode : List NodeId → Bookings → List Stmt → Prop
  | nil {before : Bookings} : ValuesCode [] before []
  | cons {first : NodeId} {rest : List NodeId} {before middle : Bookings} {body others : List Stmt}
      (hFirst : ValueCode tree ctx first before body middle)
      (hRest : ValuesCode rest middle others) :
      ValuesCode (first :: rest) before (body ++ others)

/- What is written for the call of a routine. -/
inductive RoutineCode (id : NodeId) (call : RoutineCall) : Bookings → List Stmt → Prop
  | mk {before after : Bookings} {body pushes : List Stmt} {values : List Expr}
      (hArguments : InTurn (Code tree ctx) (call.arguments.map Prod.fst) before body after values)
      (hPushes : ∀ push ∈ pushes, ∃ mode form, ∃ value ∈ values, push = .push mode form value) :
      RoutineCode id call before (body ++ .saveStack (stackMark id) :: pushes ++
          [.saveFrame (frameMark id), .openProcedure call.routine call.level,
            .bindArguments call.routine (stackMark id), .resetStack (stackMark id),
            .executeUnit call.body call.result, .closeFrame (frameMark id)])

/- What is written for a value of a union. -/
inductive InjectionCode (injection : Injection) : Bookings → List Stmt → Prop
  | mk {before after : Bookings} {body : List Stmt} {form : PushForm} {value : Expr}
      (hOperand : Code tree ctx injection.operand before body after value) :
      InjectionCode injection before (body ++ .pushUnion injection.alternative ::
          .push injection.mode form value ::
            if 0 < injection.padding then [.padStack injection.padding] else [])

end Emission

------ Writing Items

namespace Emission

open Inline

variable {values : List Expr} (hTree : tree.IsRegular) (hModes : total → tree.modes.IsSound)

include hTree hModes

theorem exists_writtenUnit (hUnit : Writable tree (readyOf tree ctx) id) :
    ∃ value, Written tree ctx total tree.bound id value :=
  exists_written hTree hModes le_rfl hUnit

/- A unit is written, and its value is used behind it. -/
theorem unit_bind {rest : List Stmt → Expr → Context.Task α}
    {code : Bookings → α → Bookings → Prop} (hUnit : Writable tree (readyOf tree ctx) id)
    (hRest : ∀ before body mid value, CodeWithin tree ctx tree.bound id before body mid value →
      Executing tree ctx mid → Books ctx total (rest body value) mid fun val after =>
        Reaches tree ctx mid after ∧ code before val after) :
    Writes tree ctx total (do
      let body ← executeUnit tree id
      rest body (← yieldUnit tree id)) code := by
  rcases exists_writtenUnit hTree hModes hUnit with ⟨value, hWritten⟩
  apply hWritten.writes.bind
  intro before body mid hBody hMid
  exact .settled_bind (hWritten.yields tree.bound le_rfl) hMid
    (hRest before body mid value hBody hMid)

omit hTree in
theorem pushOf_meets (hMode : mode.number < tree.modes.size) (value : Expr) :
    (pushOf tree mode value).Meets total fun stmt => ∃ form, stmt = .push mode form value := by
  have hForm : (pushFormOf tree mode).Meets total fun _ => True := by
    rcases ModeTable.kind_ends hMode with ⟨kind, hKind⟩
    unfold pushFormOf
    rw [hKind, Walk.ok_bind]
    split
    · trivial
    · split
      · trivial
      · split
        · exact .bind (.of_ends fun hTotal =>
            (hModes hTotal).byteSize_ends hMode) fun _ _ => trivial
        · trivial
  refine .bind hForm ?_
  intro form _
  exact ⟨form, rfl⟩

omit hTree in
/- The value of a unit that was computed is pushed. -/
theorem pushValue_meets {value : Expr}
    (hWritten : Written tree ctx total tree.bound id value)
    (hMode : mode.number < tree.modes.size) (hExec : Executing tree ctx bookings) :
    Books ctx total (pushValue tree mode id)
      bookings fun stmt next => bookings = next ∧ ∃ form, stmt = .push mode form value := by
  refine .settled_bind (hWritten.yields tree.bound le_rfl) hExec ?_
  refine Step.Meets.of_lift ((pushOf_meets hModes hMode value).mono ?_)
  intro stmt hStmt
  exact ⟨bookings, rfl, rfl, hStmt⟩

theorem executeValue_writes (hUnit : Writable tree (readyOf tree ctx) id) :
    Writes tree ctx total (executeValue tree id) (ValueCode tree ctx id) := by
  rcases exists_writtenUnit hTree hModes hUnit with ⟨value, hWritten⟩
  rcases hUnit.exists_node with ⟨node, hNode⟩
  apply hWritten.writes.bind
  intro before body after hBody hAfter
  refine .lift_bind (SyntaxTree.mode?_eq hNode) ?_
  cases hMode : node.mode with
  | none => exact .of_pure ⟨.refl hAfter, .dropped hBody⟩
  | some mode =>
    have hRange := hTree.inRange.mode_lt hNode hMode
    rcases ModeTable.isVoid_ends hRange with ⟨isVoid, hVoid⟩
    refine .lift_bind hVoid ?_
    cases isVoid with
    | true => exact .of_pure ⟨.refl hAfter, .dropped hBody⟩
    | false =>
      refine .bind (pushValue_meets hModes hWritten hRange hAfter) ?_
      rintro push _ ⟨rfl, form, rfl⟩
      exact .of_pure ⟨.refl hAfter, .pushed hBody⟩

omit hModes in
theorem lt_of_allocatedTag (hTag : allocatedTag tree id = .ok (tag, entry, object)) :
    object.number < tree.modes.size := by
  rcases Walk.bind_eq_ok.mp hTag with ⟨node, -, hTag⟩
  split at hTag
  · simp at hTag
  · rcases Walk.bind_eq_ok.mp hTag with ⟨found, -, hTag⟩
    rcases Walk.bind_eq_ok.mp hTag with ⟨target, hTarget, hTag⟩
    cases target with
    | none => simp at hTag
    | some other =>
      cases hTag
      exact hTree.inRange.modes.deref_lt hTarget

theorem executeInit_writes (hObj : object.number < tree.modes.size) (reference : Temp)
    (hInit : ∀ first ∈ init, Writable tree (readyOf tree ctx) first) :
    Writes tree ctx total (executeInit tree object reference init)
      fun before body _ => InitCode tree ctx reference init before body := by
  cases init with
  | none => exact .of_pure fun _ => .none
  | some first =>
    apply unit_bind hTree hModes (hInit first rfl)
    intro before body after value hBody hAfter
    rcases ModeTable.objectClass_ends hObj with ⟨storage, hStorage⟩
    refine .lift_bind hStorage (.read_bind (storeOf_meets hModes hObj _ _) ?_)
    rintro store ⟨form, rfl⟩
    exact .of_pure ⟨.refl hAfter, .some hBody⟩

theorem executeAllocation_writes
    (hKind : item.kind = .allocation) (hAttr : tree.attr item.site.node = .ok .variableDeclaration)
    (hTag : allocatedTag tree item.site.node = .ok (tag, entry, object))
    (hInit : tree.sub? item.site.node = .ok init)
    (hUnit : ∀ first ∈ init, Writable tree (readyOf tree ctx) first) :
    Writes tree ctx total (executeAllocation tree item.site)
      fun before body _ => ItemCode tree ctx item before body := by
  have hObj := lt_of_allocatedTag hTree hTag
  refine .lift_bind hInit (.lift_bind hTag ?_)
  intro before hBefore
  refine .walk_bind (fun hTotal => (hModes hTotal).byteSize_ends hObj) ?_
  intro size _
  refine .bind (executeInit_writes hTree hModes hObj
    (referenceOf item.site.node entry) hUnit before hBefore) ?_
  rintro body after ⟨hAfter, hBody⟩
  exact .of_pure ⟨hAfter, .allocation hKind hAttr hInit hBody⟩

theorem executeItem_writes (hItem : item.Has tree (Writable tree (readyOf tree ctx)))
    (last : Bool) :
    Writes tree ctx total (executeItem tree last item) fun before body _ =>
        ItemCode tree ctx item before body := by
  unfold executeItem
  unfold Item.Has at hItem
  cases hKind : item.kind with
  | inline =>
    rw [hKind] at hItem
    cases last with
    | true =>
      apply (executeValue_writes hTree hModes hItem).mono
      intro before body after hCode
      exact .inline hKind hCode
    | false =>
      rcases exists_writtenUnit hTree hModes hItem with ⟨value, hWritten⟩
      apply hWritten.writes.mono
      intro before body after hCode
      exact .inline hKind (.dropped hCode)
  | call func => exact .of_pure fun _ => .call hKind
  | declaration => exact .of_pure fun _ => .declaration hKind
  | allocation =>
    rw [hKind] at hItem
    rcases hItem with ⟨hAttr, ⟨⟨tag, entry, object⟩, hTag⟩, init, hInit, hUnit⟩
    exact executeAllocation_writes hTree hModes hKind hAttr hTag hInit hUnit

theorem branchItem_writes (hItem : item.Has tree (Writable tree (readyOf tree ctx))) (last : Bool) :
    Writes tree ctx total (branch (executeItem tree last item))
      fun before body after => after = before ∧ ItemCode tree ctx item before body := by
  apply (executeItem_writes hTree hModes hItem last).branch.mono
  rintro before body after ⟨hAfter, _, hCode⟩
  exact ⟨hAfter, hCode⟩

------ Writing Clauses

theorem executeItems_writes
    (hItems : ∀ item ∈ items, item.Has tree (Writable tree (readyOf tree ctx))) (mark : Temp) :
    Writes tree ctx total (executeItems tree mark items)
      fun before body after => after = before ∧ ItemsCode tree ctx mark items before body := by
  induction items with
  | nil => exact .of_pure fun _ => ⟨rfl, .nil⟩
  | cons item rest ih =>
    have hItem : ∀ last, Writes tree ctx total
        (branch (executeItem tree last item)) _ :=
      branchItem_writes hTree hModes (hItems item List.mem_cons_self)
    cases rest with
    | nil =>
      apply (hItem true).mono
      rintro before body after ⟨hAfter, hCode⟩
      exact ⟨hAfter, .last hCode⟩
    | cons second others =>
      apply (hItem false).bind
      rintro before body _ ⟨rfl, hCode⟩ hBefore
      refine .bind (ih (fun other hOther => hItems other (List.mem_cons_of_mem _ hOther)) _
          hBefore) ?_
      rintro more _ ⟨-, rfl, hMore⟩
      exact .of_pure ⟨.refl hBefore, rfl, .cons hCode hMore⟩

theorem executeSerial_writes (hPlan : plan.Has tree (Writable tree (readyOf tree ctx))) :
    Writes tree ctx total (executeSerial tree plan) fun before body _ =>
        SerialCode tree ctx plan before body := by
  apply (executeItems_writes hTree hModes hPlan _).bind
  rintro before body _ ⟨rfl, hItems⟩ hBefore
  exact .of_pure ⟨.refl hBefore, .mk hItems⟩

theorem branchSerial_writes (hPlan : plan.Has tree (Writable tree (readyOf tree ctx))) :
    Writes tree ctx total (branch (executeSerial tree plan))
      fun before body after => after = before ∧ SerialCode tree ctx plan before body := by
  apply (executeSerial_writes hTree hModes hPlan).branch.mono
  rintro before body after ⟨hAfter, _, hCode⟩
  exact ⟨hAfter, hCode⟩

theorem executeArms_writes
    (hItems : ∀ item ∈ items, item.Has tree (Writable tree (readyOf tree ctx))) :
    Writes tree ctx total (executeArms tree items)
      fun before arms after => after = before ∧ List.Forall₂
          (fun item arm => ItemCode tree ctx item before arm) items arms := by
  induction items with
  | nil => exact .of_pure fun _ => ⟨rfl, .nil⟩
  | cons item rest ih =>
    apply (branchItem_writes hTree hModes (hItems item List.mem_cons_self) true).bind
    rintro before body _ ⟨rfl, hCode⟩ hBefore
    refine .bind (ih (fun other hOther =>
      hItems other (List.mem_cons_of_mem _ hOther)) _ hBefore) ?_
    rintro arms _ ⟨-, rfl, hArms⟩
    exact .of_pure ⟨.refl hBefore, rfl, .cons hCode hArms⟩

theorem executeChoice_writes (hPlan : plan.Has tree (Writable tree (readyOf tree ctx))) :
    Writes tree ctx total (executeChoice tree plan) fun before body _ =>
        ChoiceCode tree ctx plan before body := by
  induction plan with
  | nothing => exact .of_pure fun _ => .nothing
  | otherwise last =>
    exact (executeSerial_writes hTree hModes hPlan).mono fun _ _ _ hLast => .otherwise hLast
  | select selector branches rest ih =>
    rcases hPlan with ⟨hSelector, hBranches, hRestHas⟩
    apply unit_bind hTree hModes hSelector
    intro before body mid value hBody hMid
    have hNo := (ih hRestHas).branch _ hMid
    cases branches with
    | guarded yes =>
      refine .bind (branchSerial_writes hTree hModes hBranches _ hMid) ?_
      rintro first _ ⟨-, rfl, hFirst⟩
      refine .bind hNo ?_
      rintro second _ ⟨-, rfl, _, hSecond⟩
      exact .of_pure ⟨.refl hMid, .guarded hBody hFirst hSecond⟩
    | numbered alternatives =>
      refine .bind (executeArms_writes hTree hModes hBranches _ hMid) ?_
      rintro arms _ ⟨-, rfl, hArms⟩
      refine .bind hNo ?_
      rintro otherwise _ ⟨-, rfl, _, hOtherwise⟩
      exact .of_pure ⟨.refl hMid, .numbered hBody hArms hOtherwise⟩

omit hTree hModes

theorem mem_bounds {plan : LoopPlan} (hBound : some bound ∈ [plan.start, plan.step, plan.limit]) :
    bound ∈ plan.bounds :=
  List.mem_filterMap.mpr ⟨some bound, hBound, rfl⟩

variable (hWritten : List.Forall₂ (Written tree ctx total tree.bound) ids values)
  (hExec : Executing tree ctx bookings)

include hWritten hExec

/- The value of a unit that was written among others. -/
theorem yielded_mem {rest : Expr → Context.Task α} (hId : id ∈ ids)
    (hRest : ∀ val ∈ values, Books ctx total (rest val) bookings post) :
    Books ctx total (do rest (← yieldUnit tree id)) bookings post := by
  rcases Walk.exists_of_forall₂ hWritten.flip hId with ⟨val, hVal, hUnit⟩
  exact .settled_bind (hUnit.yields tree.bound le_rfl) hExec (hRest val hVal)

theorem boundValue_meets (hBound : ∀ id ∈ bound, id ∈ ids) :
    Books ctx total (boundValue tree bound) bookings
      fun found next => IsBound values found ∧ bookings = next := by
  cases bound with
  | none => exact .of_pure ⟨.inr rfl, rfl⟩
  | some id =>
    rw [boundValue, ← bind_pure (yieldUnit tree id)]
    exact yielded_mem hWritten hExec (hBound id rfl) fun val hVal => .of_pure ⟨.inl hVal, rfl⟩

theorem executeLimit_meets (hLimit : ∀ id ∈ limit, id ∈ ids) (header : LoopHeader) :
    Books ctx total (executeLimit tree header limit) bookings
      fun stmts next => (stmts = [] ∨ ∃ val ∈ values,
        stmts = [.compute (header.temp "to") val]) ∧ bookings = next := by
  cases limit with
  | none => exact .of_pure ⟨.inl rfl, rfl⟩
  | some id =>
    apply yielded_mem hWritten hExec (hLimit id rfl)
    intro val hVal
    exact .of_pure ⟨.inr ⟨val, hVal, rfl⟩, rfl⟩

omit hWritten hExec
include hTree hModes

theorem executeLoop_writes (hPlan : plan.Has tree (Writable tree (readyOf tree ctx)))
    (id : NodeId) :
    Writes tree ctx total (executeLoop tree id plan) fun before body _ =>
        LoopCode tree ctx id plan before body := by
  rcases loopCounter_ends hTree hPlan.counter id with ⟨counter, hCounter⟩
  rcases exists_values fun bound hBound =>
    exists_writtenUnit hTree hModes (hPlan.bounds bound hBound) with ⟨values, hWritten⟩
  refine .lift_bind hCounter ((inOrder_writes hWritten).bind ?_)
  intro before bounds mid hBounds hMid
  refine .bind (boundValue_meets hWritten hMid fun _ hStart => mem_bounds (by simp_all)) ?_
  rintro start _ ⟨hStart, rfl⟩
  refine .bind (boundValue_meets hWritten hMid fun _ hStep => mem_bounds (by simp_all)) ?_
  rintro step _ ⟨hStep, rfl⟩
  refine .bind (executeLimit_meets hWritten hMid (fun _ hLimit => mem_bounds (by simp_all)) _) ?_
  rintro limit _ ⟨hLimit, rfl⟩
  refine .bind (branchSerial_writes hTree hModes hPlan.body _ hMid) ?_
  rintro body _ ⟨-, rfl, hBody⟩
  exact .of_pure ⟨.refl hMid, .mk hCounter hBounds hStart hStep hLimit hBody⟩

------ Writing Routines and Unions

theorem executeValues_writes (hUnits : ∀ id ∈ ids, Writable tree (readyOf tree ctx) id) :
    Writes tree ctx total (inOrder (executeValue tree) ids)
      fun before body _ => ValuesCode tree ctx ids before body := by
  induction ids with
  | nil => exact .of_pure fun _ => .nil
  | cons first rest ih =>
    apply (executeValue_writes hTree hModes (hUnits first List.mem_cons_self)).bind
    intro before body mid hBody hMid
    refine .bind (ih (fun id hId => hUnits id (List.mem_cons_of_mem _ hId)) _ hMid) ?_
    rintro others after ⟨hAfter, hOthers⟩
    exact .of_pure ⟨hAfter, .cons hBody hOthers⟩

omit hTree in
theorem pushArguments_meets
    (hWritten : List.Forall₂ (Written tree ctx total tree.bound) (args.map Prod.fst) values)
    (hRange : ∀ arg ∈ args, arg.2.number < tree.modes.size) (hExec : Executing tree ctx bookings) :
    Books ctx total (pushArguments tree args) bookings
      fun pushes next => bookings = next ∧ ∀ push ∈ pushes, ∃ mode form, ∃ value ∈ values,
          push = .push mode form value := by
  induction args generalizing values with
  | nil => exact .of_pure ⟨rfl, by simp⟩
  | cons arg rest ih =>
    rcases List.forall₂_cons_left_iff.mp hWritten with ⟨value, others, hFirst, hRest, rfl⟩
    refine .bind (pushValue_meets hModes hFirst (hRange arg List.mem_cons_self) hExec) ?_
    rintro push _ ⟨rfl, form, rfl⟩
    refine .bind (ih hRest fun other hOther => hRange other (List.mem_cons_of_mem _ hOther)) ?_
    rintro pushes _ ⟨rfl, hPushes⟩
    refine .of_pure ⟨rfl, ?_⟩
    intro stmt hStmt
    rcases List.mem_cons.mp hStmt with rfl | hLater
    · exact ⟨_, form, value, List.mem_cons_self, rfl⟩
    · rcases hPushes stmt hLater with ⟨mode, other, found, hFound, hPush⟩
      exact ⟨mode, other, found, List.mem_cons_of_mem _ hFound, hPush⟩

theorem executeRoutineCall_writes
    (hUnits : ∀ unit ∈ call.arguments.map Prod.fst, Writable tree (readyOf tree ctx) unit)
    (hRange : ∀ arg ∈ call.arguments, arg.2.number < tree.modes.size) (id : NodeId) :
    Writes tree ctx total (executeRoutineCall tree id call)
      fun before body _ => RoutineCode tree ctx id call before body := by
  rcases exists_values fun unit hUnit => exists_writtenUnit hTree hModes (hUnits unit hUnit) with
    ⟨values, hWritten⟩
  apply (inOrder_writes hWritten).bind
  intro before body mid hBody hMid
  refine .bind (pushArguments_meets hModes hWritten hRange hMid) ?_
  rintro pushes _ ⟨rfl, hPushes⟩
  exact .of_pure ⟨.refl hMid, .mk hBody hPushes⟩

theorem executeInjection_writes {injection : Injection}
    (hUnit : Writable tree (readyOf tree ctx) injection.operand)
    (hRange : injection.mode.number < tree.modes.size) :
    Writes tree ctx total (executeInjection tree injection)
      fun before body _ => InjectionCode tree ctx injection before body := by
  rcases exists_writtenUnit hTree hModes hUnit with ⟨value, hWritten⟩
  apply hWritten.writes.bind
  intro before body mid hBody hMid
  refine .bind (pushValue_meets hModes hWritten hRange hMid) ?_
  rintro push _ ⟨rfl, form, rfl⟩
  exact .of_pure ⟨.refl hMid, .mk hBody⟩

end Emission

end Algol68
