import Algol68.Proofs.Frames

/-
  The functions of planned code.

  What was planned can be written: its first pass reports a problem or makes everything ready, and
  then the second pass gives what the code relations tell. Nothing is changed of earlier
  functions.
-/

------ Planned Code

namespace Algol68

variable {tree : SyntaxTree} {id : NodeId}

namespace Emission

open Inline Context

/- What is planned for a clause. -/
inductive ClausePlan
  | serial (plan : SerialPlan)
  | choice (plan : ChoicePlan)
  | loop (id : NodeId) (plan : LoopPlan)

namespace ClausePlan

/- The two passes of a clause. -/
def writer (tree : SyntaxTree) : ClausePlan → Writer
  | .serial plan => Emission.serial tree plan
  | .choice plan => Emission.choice tree plan
  | .loop id plan => Emission.loop tree id plan

/- The units of a clause are as described. -/
def Has (tree : SyntaxTree) (unit : NodeId → Prop) : ClausePlan → Prop
  | .serial plan => plan.Has tree unit
  | .choice plan => plan.Has tree unit
  | .loop _ plan => plan.Has tree unit

theorem Has.mono {plan : ClausePlan} (hPlan : plan.Has tree strong)
    (hUnits : ∀ id, strong id → weak id) : plan.Has tree weak := by
  cases plan with
  | serial plan => exact SerialPlan.Has.mono hPlan hUnits
  | choice plan => exact ChoicePlan.Has.mono hPlan hUnits
  | loop id plan =>
    exact ⟨hPlan.counter, fun bound hBound => hUnits bound (hPlan.bounds bound hBound),
      hPlan.body.mono hUnits⟩

/- The names that a clause declares are among some. -/
def Marked (tree : SyntaxTree) (name : String → String → Prop) : ClausePlan → Prop
  | .serial plan => plan.Marked name
  | .choice plan => plan.Marked name
  | .loop id plan => plan.Marked tree name id

theorem marked_of_all (hAll : ∀ storage text, name storage text) (plan : ClausePlan) :
    plan.Marked tree name := by
  cases plan with
  | serial plan | choice plan => exact .of_all hAll plan
  | loop id plan => exact .of_all hAll tree id plan

/- What is written for a clause. -/
def Code (tree : SyntaxTree) (ctx : Context) : ClausePlan → Bookings → List Stmt → Prop
  | .serial plan => SerialCode tree ctx plan
  | .choice plan => ChoiceCode tree ctx plan
  | .loop id plan => LoopCode tree ctx id plan

end ClausePlan

/- A piece of code with units that are as described. -/
inductive Draft (tree : SyntaxTree) (unit : NodeId → Prop) : Writer → Prop
  | clause (plan : ClausePlan) (hPlan : (∀ id, unit id) ∨ plan.Has tree unit) :
      Draft tree unit (plan.writer tree)
  | value {id : NodeId} (hUnit : unit id) : Draft tree unit (value tree id)
  | values {ids : List NodeId} (hUnits : ∀ id ∈ ids, unit id) : Draft tree unit (values tree ids)
  | routineCall {id : NodeId} {call : RoutineCall} (hArguments : ∀ argument ∈ call.arguments,
        unit argument.1) :
      Draft tree unit (routineCall tree id call)
  | injection {injection : Injection} (hUnit : unit injection.operand) :
      Draft tree unit (Emission.injection tree injection)
  | statements {body : List Stmt} : Draft tree unit (.ofStatements body)

/- The first pass keeps to what its steps keep to. -/
theorem Draft.keeps {keeps : Context.Task Unit → Prop}
    (hDraft : Draft tree unit writer) (hGuides : Guides tree keeps known)
    (hUnit : ∀ id, unit id → known id) : keeps writer.declare := by
  cases hDraft with
  | clause plan hPlan =>
    have hHas : (∀ id, known id) ∨ plan.Has tree known :=
      hPlan.imp (fun hAll id => hUnit id (hAll id)) fun hUnits => hUnits.mono hUnit
    cases plan with
    | serial plan => exact declareSerial_keeps hGuides hHas
    | choice plan => exact declareChoice_keeps hGuides hHas
    | loop id plan => exact declareLoop_keeps hGuides hHas
  | value hOne | injection hOne => exact declareUnit_keeps hGuides (hUnit _ hOne)
  | values hUnits => exact declareUnits_keeps hGuides fun id hId => hUnit id (hUnits id hId)
  | routineCall hArgs =>
    refine hGuides.bind (declareUnits_keeps hGuides ?_) (declareMarks_keeps hGuides _ true)
    intro id hId
    rcases List.mem_map.mp hId with ⟨arg, hArg, rfl⟩
    exact hUnit _ (hArgs arg hArg)
  | statements => exact hGuides.done

theorem Draft.execute_local (hDraft : Draft tree unit writer) (scope : Scope) :
    Local scope writer.execute := by
  cases hDraft with
  | clause plan _ =>
    cases plan with
    | serial plan => exact executeSerial_local plan
    | choice plan => exact executeChoice_local plan
    | loop id plan => exact executeLoop_local id plan
  | value _ => exact executeValue_local _
  | values _ => exact inOrder_local executeValue_local _
  | routineCall _ => exact executeRoutineCall_local _ _
  | injection _ => exact executeInjection_local _
  | statements => exact .of_pure trivial

/- A piece of code whose units the classifier accepted. -/
inductive Planned (tree : SyntaxTree) : Writer → Prop
  | clause (plan : ClausePlan) (hPlan : plan.Has tree (Inlined tree)) :
      Planned tree (plan.writer tree)
  | value {id : NodeId} (hUnit : Inlined tree id) : Planned tree (value tree id)
  | values {ids : List NodeId} (hUnits : ∀ id ∈ ids, Inlined tree id) :
      Planned tree (values tree ids)
  | routineCall {id : NodeId} {call : RoutineCall} (hArguments : ∀ argument ∈ call.arguments,
        Inlined tree argument.1 ∧ tree.mode? argument.1 = .ok (some argument.2)) :
      Planned tree (routineCall tree id call)
  | injection {injection : Injection} (hUnit : Inlined tree injection.operand)
      (hMode : tree.mode? injection.operand = .ok (some injection.mode)) :
      Planned tree (Emission.injection tree injection)
  | statements {body : List Stmt} : Planned tree (.ofStatements body)

/- What was accepted describes the units. -/
theorem Planned.draft (hWriter : Planned tree writer) : Draft tree (Inlined tree) writer := by
  cases hWriter with
  | clause plan hPlan => exact .clause plan (.inr hPlan)
  | value hUnit => exact .value hUnit
  | values hUnits => exact .values hUnits
  | routineCall hArgs =>
    exact .routineCall fun arg hArg => (hArgs arg hArg).1
  | injection hUnit _ => exact .injection hUnit
  | statements => exact .statements

theorem Planned.quietly (hWriter : Planned tree writer) : Quietly writer.declare :=
  hWriter.draft.keeps (guides_steps (tracks_quiet tree)) fun _ _ => trivial

theorem Planned.changes (hWriter : Planned tree writer) : Steps (Changes tree) writer.declare :=
  hWriter.draft.keeps (guides_steps (tracks_changes tree)) fun _ _ => trivial

------ Both Passes

open Inline

variable {ids : List NodeId}

/-
  After a first pass that made everything ready, the second
  one gives what is described. Both end if `total` holds.
-/
def Writer.Codes (tree : SyntaxTree) (naming : Naming) (total : Prop) (writer : Writer)
    (code : Context → Bookings → List Stmt → Prop) : Prop :=
  ∃ post : Ready → Prop, Declares tree naming total writer.declare post ∧
      ∀ ctx, post (readyOf tree ctx) → Writes tree ctx total
          writer.execute fun before body _ => code ctx before body

variable (hTree : tree.IsRegular) (hModes : total → tree.modes.IsSound)

include hTree hModes

theorem ClausePlan.writer_codes {plan : ClausePlan} (hPlan : plan.Has tree (Inlined tree))
    (hMarks : plan.Marked tree naming.mark) :
    (plan.writer tree).Codes tree naming total fun ctx before body =>
        plan.Marked tree (readyOf tree ctx).name ∧ plan.Code tree ctx before body := by
  cases plan with
  | serial plan =>
    refine ⟨_, declareSerial_declares hTree hModes hPlan hMarks, ?_⟩
    rintro ctx ⟨hMarked, hReady⟩
    exact (executeSerial_writes hTree hModes hReady).mono fun _ _ _ hCode => ⟨hMarked, hCode⟩
  | choice plan =>
    refine ⟨_, declareChoice_declares hTree hModes hPlan hMarks, ?_⟩
    rintro ctx ⟨hMarked, hReady⟩
    exact (executeChoice_writes hTree hModes hReady).mono fun _ _ _ hCode => ⟨hMarked, hCode⟩
  | loop id plan =>
    refine ⟨_, declareLoop_declares hTree hModes hPlan hMarks, ?_⟩
    rintro ctx ⟨hMarked, hReady⟩
    exact (executeLoop_writes hTree hModes hReady id).mono fun _ _ _ hCode => ⟨hMarked, hCode⟩

theorem value_codes (hUnit : Inlined tree id) :
    (value tree id).Codes tree naming total fun ctx before body => ∃ after,
        ValueCode tree ctx id before body after := by
  refine ⟨_, declareInlined hTree hModes hUnit, ?_⟩
  intro ctx hReady
  exact (executeValue_writes hTree hModes hReady).mono fun _ _ after hCode => ⟨after, hCode⟩

theorem declareUnits_declares (hUnits : ∀ id ∈ ids, Inlined tree id) :
    Declares tree naming total (ids.forM (declareUnit tree))
      fun ready => ∀ id ∈ ids, Writable tree ready id :=
  .forM fun id hId => declareInlined hTree hModes (hUnits id hId)

theorem values_codes (hUnits : ∀ id ∈ ids, Inlined tree id) :
    (values tree ids).Codes tree naming total fun ctx before body =>
        ValuesCode tree ctx ids before body :=
  ⟨_, declareUnits_declares hTree hModes hUnits,
    fun _ hReady => executeValues_writes hTree hModes hReady⟩

omit hTree hModes

theorem routineCall_codes (hTree : tree.IsRegular) (hModes : total → tree.modes.IsSound)
    (hArgs : ∀ arg ∈ call.arguments, Inlined tree arg.1 ∧ tree.mode? arg.1 = .ok (some arg.2))
    (hMarks : Marks naming.mark id true) :
    (routineCall tree id call).Codes tree naming total fun ctx before body =>
        Marks (readyOf tree ctx).name id true ∧ RoutineCode tree ctx id call before body := by
  have hUnits : ∀ unit ∈ call.arguments.map Prod.fst, Inlined tree unit := by
    intro unit hUnit
    rcases List.mem_map.mp hUnit with ⟨arg, hArg, rfl⟩
    exact (hArgs arg hArg).1
  refine ⟨_, (declareUnits_declares hTree hModes hUnits).bind (declareMarks_declares hMarks), ?_⟩
  rintro ctx ⟨hReady, hMarked⟩
  refine (executeRoutineCall_writes hTree hModes hReady
    (fun arg hArg => hTree.inRange.mode?_lt (hArgs arg hArg).2) id).mono ?_
  exact fun _ _ _ hCode => ⟨hMarked, hCode⟩

theorem injection_codes (hTree : tree.IsRegular) (hModes : total → tree.modes.IsSound)
    {injection : Injection} (hUnit : Inlined tree injection.operand)
    (hMode : tree.mode? injection.operand = .ok (some injection.mode)) :
    (Emission.injection tree injection).Codes tree naming total fun ctx before body =>
        InjectionCode tree ctx injection before body :=
  ⟨_, declareInlined hTree hModes hUnit, fun _ hReady => executeInjection_writes hTree hModes hReady
      (hTree.inRange.mode?_lt hMode)⟩

theorem ofStatements_codes :
    (Writer.ofStatements body).Codes tree naming total fun _ _ found => found = body :=
  ⟨fun _ => True, .of_pure fun _ => trivial, fun _ _ => .of_pure fun _ => rfl⟩

/- Planned code is written, whatever names it declares. -/
theorem Planned.codes (hTree : tree.IsRegular) (hModes : total → tree.modes.IsSound)
    (hWriter : Planned tree writer) (checked : Bool) :
    ∃ code, writer.Codes tree ⟨checked, fun _ _ => True⟩ total code := by
  have hMarks : ∀ storage text : String, True := fun _ _ => trivial
  cases hWriter with
  | clause plan hPlan => exact ⟨_, plan.writer_codes hTree hModes hPlan (plan.marked_of_all hMarks)⟩
  | value hUnit => exact ⟨_, value_codes hTree hModes hUnit⟩
  | values hUnits => exact ⟨_, values_codes hTree hModes hUnits⟩
  | routineCall hArgs =>
    exact ⟨_, routineCall_codes hTree hModes hArgs (.of_all hMarks _ _)⟩
  | injection hUnit hMode => exact ⟨_, injection_codes hTree hModes hUnit hMode⟩
  | statements => exact ⟨_, ofStatements_codes⟩

------ Functions

/-
  The body of a function is what the second pass of a writer
  gives, after a first pass that met no problem.
-/
def Emitted (writer : Writer) (function : Function) : Prop :=
  ∃ before declared next, writer.declare.run (Context.beginFunction before) = .ok ((), declared) ∧
      declared.errorCount ≤ before.errorCount ∧
      writer.execute.run declared = .ok (function.body, next)

/-
  A function that was written in full: besides its body, it
  has the declarations that the first pass made.
-/
def Issued (writer : Writer) (function : Function) : Prop :=
  ∃ before declared next, writer.declare.run (Context.beginFunction before) = .ok ((), declared) ∧
      declared.errorCount ≤ before.errorCount ∧
      writer.execute.run declared = .ok (function.body, next) ∧
      function.declarations = declared.declarations.lines

theorem Issued.emitted (hIssued : Issued writer function) : Emitted writer function := by
  rcases hIssued with ⟨before, declared, next, hDeclare, hErrs, hBody, -⟩
  exact ⟨before, declared, next, hDeclare, hErrs, hBody⟩

end Emission

namespace Context

open Inline Emission

variable {before : Context}

/- One function is added and nothing else is changed. -/
def Defines (before : Context) (function : Function) (after : Context) : Prop :=
  ∃ middle, before.Quiet middle ∧ after = middle.append (.function function)

theorem beginFunction_quiet (ctx : Context) : ctx.Quiet ctx.beginFunction :=
  ⟨rfl, rfl, rfl, rfl, Nat.le_refl _, fun _ _ => rfl⟩

/- Nothing is declared when a function begins. -/
theorem beginFunction_declaring (ctx : Context) (mark : String → String → Prop) :
    Declaring tree ⟨ctx.options.checked, mark⟩ ctx.errorCount ctx.beginFunction where
  checked := rfl
  counted := Nat.le_refl _
  settled := fun _ id => by simp [beginFunction]
  booked := fun booking hBooking => by
    simp [beginFunction] at hBooking
  named := fun storage declarator hHas => by
    simp [beginFunction, Declarations.Has] at hHas
  ordered := Declarations.isOrdered_empty

/- The first pass met a problem, and nothing was written. -/
def Fails (tree : SyntaxTree) (writer : Writer) (before after : Context) : Prop :=
  before.Quiet after ∧ before.Changes tree after ∧ before.errorCount < after.errorCount ∧
      writer.declare.run before.beginFunction = .ok ((), after)

/- Both passes were made, and a function was written. -/
def Completes (writer : Writer) (before : Context) (function : Function) (after : Context) : Prop :=
  ∃ declared bookings, writer.declare.run before.beginFunction = .ok ((), declared) ∧
      declared.errorCount ≤ before.errorCount ∧
      writer.execute.run declared = .ok (function.body, declared.booked bookings) ∧
      function.declarations = declared.declarations.lines ∧
      after = (declared.booked bookings).append (.function function)

theorem Completes.issued (hCompletes : before.Completes writer function after) :
    Issued writer function := by
  rcases hCompletes with ⟨declared, bookings, hDeclare, hErrs, hBody, hLines, -⟩
  exact ⟨before, declared, _, hDeclare, hErrs, hBody, hLines⟩

theorem Completes.defines (hWriter : Planned tree writer)
    (hCompletes : before.Completes writer func after) : before.Defines func after := by
  rcases hCompletes with ⟨declared, bookings, hDeclare, -, -, -, hAfter⟩
  have hQuiet : before.beginFunction.Quiet declared :=
    (hWriter.quietly before.beginFunction).of_run hDeclare
  have hBooked : declared.Quiet (declared.booked bookings) :=
    ⟨rfl, rfl, rfl, rfl, Nat.le_refl _, fun _ _ => rfl⟩
  exact ⟨_, ((beginFunction_quiet before).trans hQuiet).trans hBooked, hAfter⟩

theorem Completes.output_eq (hWriter : Planned tree writer)
    (hCompletes : before.Completes writer func after) :
    after.output = before.output ++ [.function func] := by
  rcases hCompletes.defines hWriter with ⟨mid, hQuiet, rfl⟩
  simp only [append, hQuiet.output]

/- A function is written unless the first pass fails. -/
theorem emitFunction_meets (hWriter : Planned tree writer) (id : NodeId) (name : String)
    (ctx : Context) :
    Step.Meets False (emitFunction tree id name writer) ctx fun res next =>
        res = none ∧ Fails tree writer ctx next ∨ res = some name ∧ ∃ func : Function,
            func.name = name ∧ ctx.Completes writer func next := by
  apply emitFunction_rule hWriter.draft.execute_local
    ((hWriter.quietly ctx.beginFunction).and (hWriter.changes ctx.beginFunction)).with_run
  · rintro declared ⟨hDecl, hQuiet, hChanges⟩ hErrs
    exact .inl ⟨rfl, (beginFunction_quiet ctx).trans hQuiet, .head (.begin ctx) hChanges, hErrs,
      hDecl⟩
  · exact fun _ _ _ => False.elim
  · rintro declared func bookings ⟨hDecl, -, -⟩ hErrs hName hLines hBody
    exact .inr ⟨rfl, func, hName, declared, bookings, hDecl, hErrs, hBody, hLines, rfl⟩

theorem Issued.coded (hCodes : ∀ checked, writer.Codes tree ⟨checked, mark⟩ False code)
    (hIssued : Issued writer func) :
    ∃ ctx naming errors, naming.mark = mark ∧ Declaring tree naming errors ctx ∧
      func.declarations = ctx.declarations.lines ∧ code ctx ctx.bookings func.body := by
  rcases hIssued with ⟨before, declared, next, hDeclare, hErrs, hBody, hLines⟩
  rcases hCodes before.options.checked with ⟨post, hDeclares, hExecutes⟩
  have hFirst := hDeclares before.errorCount before.beginFunction
    (beginFunction_declaring before mark)
  rcases Walk.Meets.of_ok hFirst hDeclare with ⟨hDeclaring, -, hReady⟩
  have hCount := Nat.le_antisymm hErrs hDeclaring.counted
  have hSecond := hExecutes declared (hReady hCount _ (.refl _))
    declared.bookings (.start hDeclaring.booked)
  rcases Walk.Meets.of_ok hSecond hBody with ⟨after, -, -, hCode⟩
  exact ⟨declared, _, before.errorCount, rfl, hDeclaring, hLines, hCode⟩

theorem not_fails_ofStatements : ¬ Fails tree (.ofStatements body) before after := by
  rintro ⟨-, -, hErrs, hDecl⟩
  cases hDecl
  exact Nat.lt_irrefl _ hErrs

/- A planned function is written in full, or not at all. -/
theorem emitFunction_ends (hTree : tree.Conforms) (hWriter : Planned tree writer)
    (hNode : tree.node id = .ok node) (name : String) (ctx : Context) :
    ((emitFunction tree id name writer).run ctx).Ends := by
  rcases hWriter.codes hTree.toIsRegular (fun _ : True => hTree.modes) ctx.options.checked with
    ⟨code, post, hDeclares, hExecutes⟩
  suffices hMeets : Step.Meets True (emitFunction tree id name writer) ctx fun _ _ => True by
    rcases hMeets.answer with ⟨res, hRes, -⟩
    exact ⟨res, hRes⟩
  apply emitFunction_rule hWriter.draft.execute_local
    (hDeclares ctx.errorCount ctx.beginFunction (beginFunction_declaring ctx _))
  · exact fun _ _ _ => trivial
  · rintro declared ⟨hDeclaring, -, hReady⟩ hErrs _
    have hCount : declared.errorCount = ctx.errorCount := Nat.le_antisymm hErrs hDeclaring.counted
    have hExec := hExecutes declared (hReady hCount _ (.refl _))
    rcases (hExec declared.bookings (.start hDeclaring.booked)).answer with ⟨found, hBody, -⟩
    exact ⟨hTree.sourceText_ends hNode, ⟨node, hNode⟩, found, hBody⟩
  · exact fun _ _ _ _ _ _ _ _ => trivial

end Context

end Algol68
