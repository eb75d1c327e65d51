import Algol68.Inline.Yield

/- The second pass over a unit: the statements that compute its temporaries. -/

------ Emissions

namespace Algol68

namespace Inline

/- A step that gives statements. -/
abbrev Emission := Context.Task (List Stmt)

variable (tree : SyntaxTree) (unit : NodeId → Emission) (id : NodeId)

def noStatements : Emission := pure []

def inOrder {α : Type} (emit : α → Emission) : List α → Emission
  | [] => noStatements
  | item :: rest => do
    let first ← emit item
    let others ← inOrder emit rest
    pure (first ++ others)

/- Statements whose bookings do not outlive them. -/
def branch (emission : Emission) : Emission := do
  let mark := (← get).bookings.length
  let body ← emission
  modify fun context => { context with bookings := context.bookings.take mark }
  pure body

/- Check that a primitive object was assigned, in checked code. -/
def checkInitialised (checked : Bool) (pointer : Temp) (mode : ModeId) : Walk (List Stmt) := do
  if checked then
    if ← tree.modes.isPrimitive mode then
      pure [.checkInitialised pointer (← tree.modes.name mode)]
    else pure []
  else pure []

------ Pointers

/- Compute a pointer, unless an equal one was computed. The statements are given the temporary. -/
def executePointer (pointer : Pointer) (statements : Temp → Emission) : Emission := do
  let context ← get
  match ← context.signedIn? tree pointer.address .execute with
  | some _ => noStatements
  | none => do
    let owner ← context.ownerOf tree pointer.address pointer.node
    let body ← statements (pointer.temp owner)
    modify fun context => context.signIn pointer.address .execute owner
    pure body

/- Compute the pointer found through an identifier. -/
def executeNamed (named : Named) : Emission :=
  executePointer tree named.pointer fun temp => do
    let storage := named.pointer.storage
    match named.object with
    | none => pure [.fetch temp storage named.slot]
    | some object => do
      let check ← checkInitialised tree (← get).options.checked temp object
      pure (.deref temp storage named.slot :: check)

def executeElement : Emission := do
  let element ← elementOf tree id
  executePointer tree element.pointer fun temp => do
    let base ← baseOf tree element.primary
    let first ← executeNamed tree base
    let others ← inOrder unit element.indices
    let row ← yieldNamed tree (← baseOf tree element.primary)
    let indices ← element.indices.mapM (yieldUnit tree)
    pure (first ++ others ++ [.element temp element.pointer.storage row indices])

def executeComponent : Emission := do
  let component ← componentOf tree id
  executePointer tree component.pointer fun temp => do
    let base ← baseOf tree component.secondary
    let first ← executeNamed tree base
    let object ← yieldNamed tree (← baseOf tree component.secondary)
    if tree.modes.isComplex component.structureMode then
      pure (first ++ [.component temp object component.index])
    else
      let offset ← tree.modes.fieldOffset component.structureMode component.index
      pure (first ++ [.field temp component.pointer.storage object offset])

def executeAddress : Emission := do
  match ← tree.attr id with
  | .identifier => do
    executeNamed tree (← derefOf tree id)
  | .slice => executeElement tree unit id
  | .selection => executeComponent tree id
  | _ => tree.violation id .noObject

------ Units

/- Compute the object behind a reference, and check it. -/
def executeDereferencing : Emission := do
  let operand ← childOf tree id 0
  let mode ← modeOf tree id
  match ← tree.attr operand with
  | .identifier => do
    executeNamed tree (← derefOf tree operand)
  | .slice | .selection => do
    let body ← executeAddress tree unit operand
    let pointer ← yieldAddress tree operand
    let check ← checkInitialised tree (← get).options.checked pointer mode
    pure (body ++ check)
  | _ => tree.violation id .unsupportedPrimary

/- Compute the result of an operation, if it is kept. -/
def executeOperation : Emission := do
  let operation ← operationOf tree (← get).options.checked id
  let body ← inOrder unit operation.operands
  match operation.result with
  | none => pure body
  | some result => do
    let operands ← operation.operands.mapM (yieldUnit tree)
    match operation.builtin.signature.rendering with
    | .out function => pure (body ++ [.computeInto function result.temp operands])
    | rendering =>
      pure (body ++ [.compute result.temp (.apply rendering operands),
          .checkMath result.temp operation.builtin.name])

def executeProcedure : Emission := do
  let builtin ← procedureOf tree id
  pure [.compute (procedureTemp id) (.apply builtin.signature.rendering [])]

def executeWidening : Emission := do
  let (operand, isComplex) ← wideningOf tree id
  let body ← unit operand
  if isComplex then
    let re ← yieldUnit tree operand
    pure (body ++ [.setPair (pairResult id).temp re none])
  else pure body

/- Compute the branch that the guard of a conditional takes. -/
def executeChoice : Emission := do
  let choice ← choiceOf tree id
  let body ← unit choice.guard
  let guard ← yieldUnit tree choice.guard
  let yes ← branch (unit choice.yes)
  let no ← branch (unit choice.no)
  pure (body ++ [.branch id guard yes no])

def fillFields (tree : SyntaxTree) (mode : ModeId) (temp : Temp) :
    Nat → List Field → List Expr → Walk (List Stmt)
  | index, field :: fields, value :: values => do
    let storage ← tree.modes.objectClass field.mode
    let offset ← tree.modes.fieldOffset mode index
    let rest ← fillFields tree mode temp (index + 1) fields values
    pure (.initialiseField storage temp offset :: .setField storage temp offset value :: rest)
  | _, _, _ => pure []

/- Compute the members of a display and put them together. -/
def executeDisplay : Emission := do
  let display ← displayOf tree id
  let body ← inOrder unit display.members
  let values ← display.members.mapM (yieldUnit tree)
  let temp := display.temp id
  match display.isComplex, values with
  | true, [re, im] => pure (body ++ [.setPair temp re (some im)])
  | _, _ => do
    let fields ← displayFields tree id display.mode
    let filled ← fillFields tree display.mode temp 0 fields values
    pure (body ++ filled)

def executeAssignation : Emission := do
  let (destination, source) ← assignationOf tree id
  let first ← unit source
  let second ← executeAddress tree unit destination
  let pointer ← yieldAddress tree destination
  let value ← yieldUnit tree source
  let mode ← modeOf tree source
  let store ← storeOf tree mode (.object pointer) value
  pure (first ++ second ++ [store])

/- Compute a unit, where `unit` computes its parts. -/
def executeShape (node : Node) : Emission := do
  match node.attr with
  | .identifier => do
    executeNamed tree (← fetchOf tree id)
  | .dereferencing => executeDereferencing tree unit id
  | .slice | .selection => do
    let body ← executeAddress tree unit id
    let _ ← modeOf tree id
    pure body
  | .formula | .monadicFormula | .call => executeOperation tree unit id
  | .deproceduring => executeProcedure tree id
  | .cast | .closedClause | .serialClause | .voiding => do
    unit (← childOf tree id 0)
  | .widening => executeWidening tree unit id
  | .identityRelation => do
    let relation ← relationOf tree id
    let left ← unit relation.left
    let right ← unit relation.right
    pure (left ++ right)
  | .nihil => noStatements
  | .conditionalClause | .elifPart => executeChoice tree unit id
  | .collateralClause => executeDisplay tree unit id
  | .assignation => executeAssignation tree unit id
  | _ => tree.violation id .notBasic

/- Compute a unit at most `fuel` levels deep. -/
def executeWithin (tree : SyntaxTree) : Nat → NodeId → Emission
  | 0, _ => throw .unbounded
  | fuel + 1, id => do
    let node ← tree.node id
    if ← isFolded tree id node then noStatements
    else executeShape tree (executeWithin tree fuel) id node

/- The statements that compute the temporaries of a unit. -/
def executeUnit : Emission := executeWithin tree tree.bound id

end Inline

end Algol68
