import Algol68.Inline.Declare

/- The last pass over a unit: the expression for its value. -/

------ Constants

namespace Algol68

namespace Inline

variable (tree : SyntaxTree) (unit : NodeId → Context.Task Expr) (id : NodeId)

def yieldConstant : Context.Task Expr := do
  match (← get).folded.lookup id with
  | some (some value) => pure (.constant value)
  | some none => tree.violation id .foldFailed
  | none => tree.violation id .notDeclared

------ Pointers

def yieldPointer (pointer : Pointer) : Context.Task Temp := do
  let owner ← (← get).ownerOf tree pointer.address pointer.node
  pure (pointer.temp owner)

/- The temporary of the pointer found through an identifier. -/
def yieldNamed (named : Named) : Context.Task Temp := yieldPointer tree named.pointer

/- The pointer to the object a unit designates. -/
def yieldAddress : Context.Task Temp := do
  match ← tree.attr id with
  | .identifier => do
    yieldNamed tree (← derefOf tree id)
  | .slice => do
    let element ← elementOf tree id
    yieldPointer tree element.pointer
  | .selection => do
    let component ← componentOf tree id
    yieldPointer tree component.pointer
  | _ => tree.violation id .noObject

------ Units

/- The value behind a reference. -/
def yieldDereferencing : Context.Task Expr := do
  let operand ← childOf tree id 0
  let mode ← modeOf tree id
  let pointer ←
    match ← tree.attr operand with
    | .identifier => do
      yieldNamed tree (← derefOf tree operand)
    | .slice | .selection => yieldAddress tree operand
    | _ => tree.violation id .unsupportedPrimary
  valueOf tree mode pointer

def yieldPart : Context.Task Expr := do
  let pointer ← yieldAddress tree id
  let mode ← modeOf tree id
  match ← tree.modes.deref? mode with
  | some _ => pure (.reference pointer)
  | none => valueOf tree mode pointer

def yieldOperation : Context.Task Expr := do
  let operation ← operationOf tree (← get).options.checked id
  match operation.result with
  | some result => pure (.temp result.temp)
  | none => do
    let operands ← operation.operands.mapM unit
    pure (.apply operation.builtin.signature.rendering operands)

def yieldWidening : Context.Task Expr := do
  let (operand, isComplex) ← wideningOf tree id
  if isComplex then pure (.temp (pairResult id).temp) else pure (.toReal (← unit operand))

/- The value of a unit, where `unit` gives those of its parts. -/
def yieldShape (node : Node) : Context.Task Expr := do
  match node.attr with
  | .identifier => do
    let pointer ← yieldNamed tree (← fetchOf tree id)
    valueOf tree (← modeOf tree id) pointer
  | .dereferencing => yieldDereferencing tree id
  | .slice | .selection => yieldPart tree id
  | .formula | .monadicFormula | .call => yieldOperation tree unit id
  | .deproceduring => do
    let _ ← procedureOf tree id
    pure (.temp (procedureTemp id))
  | .cast | .closedClause | .serialClause => do
    unit (← childOf tree id 0)
  | .widening => yieldWidening tree unit id
  | .identityRelation => do
    let relation ← relationOf tree id
    let left ← unit relation.left
    let right ← unit relation.right
    pure (.sameName relation.same left right)
  | .nihil => pure .nil
  | .conditionalClause | .elifPart => do
    let choice ← choiceOf tree id
    let guard ← unit choice.guard
    let yes ← unit choice.yes
    let no ← unit choice.no
    pure (.choose id guard yes no)
  | .collateralClause => do
    let display ← displayOf tree id
    pure (.temp (display.temp id))
  | .assignation => do
    let (destination, _) ← assignationOf tree id
    pure (.reference (← yieldAddress tree destination))
  | .voiding => do
    let _ ← unit (← childOf tree id 0)
    pure .blank
  | _ => tree.violation id .notBasic

/- The value of a unit at most `fuel` levels deep. -/
def yieldWithin (tree : SyntaxTree) : Nat → NodeId → Context.Task Expr
  | 0, _ => throw .unbounded
  | fuel + 1, id => do
    let node ← tree.node id
    if ← isFolded tree id node then yieldConstant tree id
    else yieldShape tree (yieldWithin tree fuel) id node

def yieldUnit : Context.Task Expr := yieldWithin tree tree.bound id

end Inline

end Algol68
