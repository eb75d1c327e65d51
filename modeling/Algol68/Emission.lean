import Algol68.Inline
import Algol68.Plan

/-
  The code of planned clauses.

  A clause is written in two passes: the first declares all
  temporaries of the function, the second writes statements.
-/

------ Writers

namespace Algol68

variable (tree : SyntaxTree) (id : NodeId) (plan : SerialPlan)

namespace Emission

open Inline

/- The two passes of a piece of code. -/
structure Writer where
  declare : Context.Task Unit
  execute : Inline.Emission

namespace Writer

/- Code that is written without any temporaries. -/
def ofStatements (body : List Stmt) : Writer where
  declare := pure ()
  execute := pure body

/- A unit whose value is dropped or used later. -/
def unit : Writer where
  declare := declareUnit tree id
  execute := executeUnit tree id

end Writer

/- Push the value of a unit that has been computed. -/
def pushValue (mode : ModeId) (id : NodeId) : Context.Task Stmt := do
  let value ← yieldUnit tree id
  pushOf tree mode value

def executeValue : Inline.Emission := do
  let body ← executeUnit tree id
  match ← tree.mode? id with
  | none => pure body
  | some mode => do
    if ← tree.modes.isVoid mode then pure body
    else
      let push ← pushValue tree mode id
      pure (body ++ [push])

def value : Writer where
  declare := declareUnit tree id
  execute := executeValue tree id

/- Units whose values are pushed one after the other. -/
def values (ids : List NodeId) : Writer where
  declare := ids.forM (declareUnit tree)
  execute := inOrder (executeValue tree) ids

------ Items

def declareItem (item : Item) : Context.Task Unit := do
  match item.kind with
  | .inline => declareUnit tree item.site.node
  | .allocation => do
    match ← tree.sub? item.site.node with
    | some init => declareUnit tree init
    | none => pure ()
  | _ => pure ()

def allocatedTag : Walk (TagId × Tag × ModeId) := do
  match (← tree.node id).tag with
  | none => tree.violation id .variableWithoutTag
  | some tag => do
    let entry ← tree.tags.fetch tag
    match ← tree.modes.deref? entry.mode with
    | none => tree.violation id .variableNotReference
    | some object => pure (tag, entry, object)

def executeInit (object : ModeId) (reference : Temp) (init : Option NodeId) : Inline.Emission := do
  match init with
  | none => pure []
  | some init => do
    let body ← executeUnit tree init
    let value ← yieldUnit tree init
    let storage ← tree.modes.objectClass object
    let store ← storeOf tree object (.target storage reference) value
    pure (body ++ [store])

def executeAllocation (site : Site) : Inline.Emission := do
  let init ← tree.sub? site.node
  let (tag, entry, object) ← allocatedTag tree site.node
  let reference : Temp := ⟨Text.identifier entry.name ++ "_ref", site.node⟩
  let size ← tree.modes.byteSize object
  let body ← executeInit tree object reference init
  pure [.block (.referenceTo reference (slotOf tag entry) :: .generate site reference size :: body)]

/- Write an item; only the last one leaves its value. -/
def executeItem (last : Bool) (item : Item) : Inline.Emission := do
  match item.kind with
  | .inline => if last then executeValue tree item.site.node else executeUnit tree item.site.node
  | .call function => pure [.call function item.site]
  | .declaration => pure [.declaration item.site]
  | .allocation => executeAllocation tree item.site

------ Serial Clauses

def stackMark : Temp := ⟨"pop_sp", id⟩

def frameMark : Temp := ⟨"pop_fp", id⟩

def declareMarks (opensFrame : Bool) : Context.Task Unit := do
  declareName "ADDR_T" (stackMark id).text
  if opensFrame then declareName "ADDR_T" (frameMark id).text

def openFrame (site : Site) (opensFrame : Bool) : List Stmt :=
  if opensFrame then [.saveFrame (frameMark id), .openFrame site, .initialiseFrame site] else []

def closeFrame (opensFrame : Bool) : List Stmt :=
  if opensFrame then [.closeFrame (frameMark id)] else []

def declareSerial : Context.Task Unit := do
  declareMarks plan.site.node plan.opensFrame
  plan.items.forM (declareItem tree)

/-
  Write items, each of which starts from the same bookings.
  The values of all but the last are dropped.
-/
def executeItems (tree : SyntaxTree) (mark : Temp) : List Item → Inline.Emission
  | [] => pure []
  | [last] => branch (executeItem tree true last)
  | item :: rest => do
    let body ← branch (executeItem tree false item)
    let others ← executeItems tree mark rest
    pure (body ++ .resetStack mark :: others)

def executeSerial : Inline.Emission := do
  let id := plan.site.node
  let body ← executeItems tree (stackMark id) plan.items
  pure (openFrame id plan.site plan.opensFrame ++ .saveStack (stackMark id) :: body ++
    closeFrame id plan.opensFrame)

def serial : Writer where
  declare := declareSerial tree plan
  execute := executeSerial tree plan

------ Conditional and Case Clauses

def declareBranches : Branches → Context.Task Unit
  | .guarded yes => declareSerial tree yes
  | .numbered alternatives => alternatives.forM (declareItem tree)

def declareChoice (tree : SyntaxTree) : ChoicePlan → Context.Task Unit
  | .nothing => pure ()
  | .otherwise last => declareSerial tree last
  | .select selector branches rest => do
    declareUnit tree selector
    declareBranches tree branches
    declareChoice tree rest

/- Write the alternatives of a case clause. -/
def executeArms (tree : SyntaxTree) : List Item → Context.Task (List (List Stmt))
  | [] => pure []
  | item :: rest => do
    let arm ← branch (executeItem tree true item)
    let arms ← executeArms tree rest
    pure (arm :: arms)

/- The statement of a guard, which has two branches unless nothing follows the first. -/
def guardOf (guard : NodeId) (condition : Expr) (yes no : List Stmt) : ChoicePlan → Stmt
  | .nothing => .branchOnly condition yes
  | _ => .branch guard condition yes no

def executeChoice (tree : SyntaxTree) : ChoicePlan → Inline.Emission
  | .nothing => pure []
  | .otherwise last => executeSerial tree last
  | .select selector branches rest => do
    let body ← executeUnit tree selector
    let value ← yieldUnit tree selector
    match branches with
    | .guarded yes => do
      let yes ← branch (executeSerial tree yes)
      let no ← branch (executeChoice tree rest)
      pure (body ++ [guardOf selector value yes no rest])
    | .numbered alternatives => do
      let arms ← executeArms tree alternatives
      let no ← branch (executeChoice tree rest)
      pure (body ++ [.switch value arms no])

def choice (plan : ChoicePlan) : Writer where
  declare := declareChoice tree plan
  execute := executeChoice tree plan

------ Loops

def loopCounter (counter : Option TagId) : Walk (Option (Temp × Slot)) := do
  match counter with
  | none => pure none
  | some tag => do
    let entry ← tree.tags.fetch tag
    pure (some (⟨Text.identifier entry.name ++ "_counter", id⟩, slotOf tag entry))

variable (plan : LoopPlan)

def declareLoop : Context.Task Unit := do
  let counter ← loopCounter tree id plan.counter
  plan.bounds.forM (declareUnit tree)
  let header := plan.header id
  ["from", "by", "to", "count"].forM fun stem => declareName "INT_T" (header.temp stem).text
  declareMarks id plan.opensFrame
  match counter with
  | some (temp, _) => declareName "A68_INT" ("*" ++ temp.text)
  | none => pure ()
  declareSerial tree plan.body

def boundValue (bound : Option NodeId) : Context.Task Expr := do
  match bound with
  | some bound => yieldUnit tree bound
  | none => pure (.constant (.int 1))

def executeLimit (header : LoopHeader) (limit : Option NodeId) : Inline.Emission := do
  match limit with
  | some limit => do
    let value ← yieldUnit tree limit
    pure [.compute (header.temp "to") value]
  | none => pure []

def executeLoop : Inline.Emission := do
  let counter ← loopCounter tree id plan.counter
  let header := plan.header id
  let bounds ← inOrder (executeUnit tree) plan.bounds
  let start ← boundValue tree plan.start
  let step ← boundValue tree plan.step
  let limit ← executeLimit tree header plan.limit
  let body ← branch (executeSerial tree plan.body)
  let fetchCounter := counter.toList.map fun entry => Stmt.fetch entry.1 "A68_INT" entry.2
  let setCounter := counter.toList.map fun entry => Stmt.setCounter entry.1 (header.temp "count")
  let refresh := if plan.needsInitialisation then [Stmt.initialiseFrame plan.body.site] else []
  pure (bounds ++ [.compute (header.temp "from") start, .compute (header.temp "by") step] ++
    limit ++ openFrame id plan.body.site plan.opensFrame ++ fetchCounter ++
    [.saveStack (stackMark id), .loop header (setCounter ++ body ++
          .resetStack (stackMark id) :: refresh)] ++
    closeFrame id plan.opensFrame)

def loop : Writer where
  declare := declareLoop tree id plan
  execute := executeLoop tree id plan

------ Routines and Unions

structure RoutineCall where
  routine : NodeId
  level : Nat
  body : NodeId
  arguments : List (NodeId × ModeId)
  result : ModeId

def pushArguments (tree : SyntaxTree) : List (NodeId × ModeId) → Inline.Emission
  | [] => pure []
  | (argument, mode) :: rest => do
    let push ← pushValue tree mode argument
    let others ← pushArguments tree rest
    pure (push :: others)

def executeRoutineCall (call : RoutineCall) : Inline.Emission := do
  let body ← inOrder (executeUnit tree) (call.arguments.map Prod.fst)
  let pushes ← pushArguments tree call.arguments
  pure (body ++ .saveStack (stackMark id) :: pushes ++ [.saveFrame (frameMark id),
      .openProcedure call.routine call.level, .bindArguments call.routine (stackMark id),
      .resetStack (stackMark id), .executeUnit call.body call.result, .closeFrame (frameMark id)])

def routineCall (call : RoutineCall) : Writer where
  declare := do
    (call.arguments.map Prod.fst).forM (declareUnit tree)
    declareMarks id true
  execute := executeRoutineCall tree id call

/- A value of a union: the alternative, the value, padding. -/
structure Injection where
  operand : NodeId
  mode : ModeId
  alternative : Nat
  padding : Nat

def executeInjection (injection : Injection) : Inline.Emission := do
  let body ← executeUnit tree injection.operand
  let push ← pushValue tree injection.mode injection.operand
  let padding := if 0 < injection.padding then [Stmt.padStack injection.padding] else []
  pure (body ++ .pushUnion injection.alternative :: push :: padding)

def injection (injection : Injection) : Writer where
  declare := declareUnit tree injection.operand
  execute := executeInjection tree injection

end Emission

------ Functions

namespace Context

open Emission

/- Write the function of a node whose temporaries have been declared. -/
def writeFunction (name : String) (writer : Writer) : Task Unit := do
  let source ← tree.sourceText id
  let line := (← tree.node id).line
  let body ← writer.execute
  let context ← get
  let function : Function :=
    { name := name
      source := source
      line := line
      declarations := context.declarations.lines
      body := body }
  set (context.append (.function function))

/- Keep what was written since the start, unless a problem came up. -/
def keepWritten (start : Context) (name : String) : Task (Option String) := do
  let context ← get
  if start.errorCount < context.errorCount then
    set (← context.truncateOutput start.outputText.utf8ByteSize)
    pure none
  else pure (some name)

/-
  Write a function for a node and give its name. Nothing is
  written if a problem comes up during the first pass, and the
  function is dropped if one comes up during the second.
-/
def emitFunction (name : String) (writer : Writer) : Task (Option String) := do
  let start ← get
  modify beginFunction
  writer.declare
  if start.errorCount < (← get).errorCount then pure none
  else
    writeFunction tree id name writer
    keepWritten start name

end Context

end Algol68
