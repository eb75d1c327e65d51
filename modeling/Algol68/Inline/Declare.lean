import Algol68.Classifier
import Algol68.Context
import Algol68.Inline.Parts

/- The first pass over a unit: its temporaries are declared and its constants are evaluated. -/

------ Constants

namespace Algol68

variable (tree : SyntaxTree) (unit : NodeId → Context.Task Unit) (id : NodeId)

namespace Inline

/- Whether a unit is written as the constant it stands for. Denotations always are. -/
def isFolded (node : Node) : Walk Bool :=
  match node.attr with
  | .denoter => pure true
  | .voiding | .assignation | .nihil => pure false
  | _ => tree.isConstant id

/- Evaluate a constant, once in a function. -/
def declareConstant : Context.Task Unit := do
  match (← get).folded.lookup id with
  | some _ => pure ()
  | none => do
    let value ← Context.fold tree id
    modify fun context => { context with folded := (id, value) :: context.folded }

------ Pointers

def declareName (storage declarator : String) : Context.Task Unit :=
  modify fun context => context.declare storage declarator

def declarePointer (pointer : Pointer) : Context.Task Unit := do
  match ← (← get).signedIn? tree pointer.address .declare with
  | some _ => pure ()
  | none => do
    declareName pointer.storage ("*" ++ (pointer.temp pointer.node).text)
    modify fun context => context.signIn pointer.address .declare pointer.node

/- Declare the pointer found through an identifier. -/
def declareNamed (named : Named) : Context.Task Unit := declarePointer tree named.pointer

def declareElement : Context.Task Unit := do
  let element ← elementOf tree id
  declareNamed tree (← baseOf tree element.primary)
  element.indices.forM unit
  declarePointer tree element.pointer

def declareComponent : Context.Task Unit := do
  let component ← componentOf tree id
  declareNamed tree (← baseOf tree component.secondary)
  declarePointer tree component.pointer

def declareAddress : Context.Task Unit := do
  match ← tree.attr id with
  | .identifier => do
    declareNamed tree (← derefOf tree id)
  | .slice => declareElement tree unit id
  | .selection => declareComponent tree id
  | _ => tree.violation id .noObject

------ Units

/- Declare the object behind a reference. -/
def declareDereferencing : Context.Task Unit := do
  let operand ← childOf tree id 0
  let _ ← modeOf tree id
  match ← tree.attr operand with
  | .identifier => do
    declareNamed tree (← derefOf tree operand)
  | .slice | .selection => declareAddress tree unit operand
  | _ => tree.violation id .unsupportedPrimary

def declareOperation : Context.Task Unit := do
  let operation ← operationOf tree (← get).options.checked id
  operation.operands.forM unit
  match operation.result with
  | some result => declareName result.storage result.declarator
  | none => pure ()

def declareProcedure : Context.Task Unit := do
  let _ ← procedureOf tree id
  let result ← plainResult tree id
  declareName result.storage result.declarator

def declareWidening : Context.Task Unit := do
  let (operand, isComplex) ← wideningOf tree id
  unit operand
  if isComplex then declareName (pairResult id).storage (pairResult id).declarator

def declareDisplay : Context.Task Unit := do
  let display ← displayOf tree id
  display.members.forM unit
  if display.isComplex then declareName (pairResult id).storage (pairResult id).declarator
  else
    let size ← tree.modes.byteSize display.mode
    declareName "BYTE_T" ((display.temp id).text ++ "[" ++ toString size ++ "]")

def declareShape (node : Node) : Context.Task Unit := do
  match node.attr with
  | .identifier => do
    declareNamed tree (← fetchOf tree id)
  | .dereferencing => declareDereferencing tree unit id
  | .slice | .selection => do
    declareAddress tree unit id
    let _ ← modeOf tree id
    pure ()
  | .formula | .monadicFormula | .call => declareOperation tree unit id
  | .deproceduring => declareProcedure tree id
  | .cast | .closedClause | .serialClause | .voiding => do
    unit (← childOf tree id 0)
  | .widening => declareWidening tree unit id
  | .identityRelation => do
    let relation ← relationOf tree id
    unit relation.left
    unit relation.right
  | .nihil => pure ()
  | .conditionalClause | .elifPart => do
    let choice ← choiceOf tree id
    unit choice.guard
    unit choice.yes
    unit choice.no
  | .collateralClause => declareDisplay tree unit id
  | .assignation => do
    let (destination, source) ← assignationOf tree id
    unit source
    declareAddress tree unit destination
  | _ => tree.violation id .notBasic

/- Declare a unit at most `fuel` levels deep. -/
def declareWithin (tree : SyntaxTree) : Nat → NodeId → Context.Task Unit
  | 0, _ => throw .unbounded
  | fuel + 1, id => do
    let node ← tree.node id
    if ← isFolded tree id node then declareConstant tree id
    else declareShape tree (declareWithin tree fuel) id node

def declareUnit : Context.Task Unit := declareWithin tree tree.bound id

end Inline

end Algol68
