import Algol68.Machine.Denoter
import Algol68.Tree

/- Evaluation of units on the stack machine. -/

------ Reading the Tree

namespace Algol68

variable (tree : SyntaxTree) (id : NodeId)

namespace Machine

def reading {α : Type} (walk : Walk α) : Run α := ExceptT.lift (StateT.lift walk)

def needing {α : Type} (node : NodeId) (walk : Walk (Option α)) : Run α := do
  match ← reading walk with
  | some value => pure value
  | none => throw (.notEvaluable node)

def pushDenoter : Run Unit := do
  let node ← reading (tree.node id)
  let chars := Text.trim node.symbol.toList
  let kind? ← reading (node.mode.mapM tree.modes.kind)
  match kind?.bind fun kind => Denoter.value? kind chars with
  | some value => push value
  | none => throw (.invalidDenoter id (String.ofList chars))

------ Execution

/- Execute siblings in order, each before the next is read. -/
def executeAll (tree : SyntaxTree) (execute : NodeId → Run Unit) : Nat → Option NodeId → Run Unit
  | _, none => pure ()
  | 0, some _ => reading (throw .unbounded)
  | fuel + 1, some id => do
    let node ← reading (tree.node id)
    execute id
    executeAll tree execute fuel node.next

/- Replace two real numbers by a complex number. -/
def pairReals (node : NodeId) : Run Unit := do
  let im ← pop node
  let re ← pop node
  match re, im with
  | .real re, .real im => push (.complex re im)
  | _, _ => throw (.notEvaluable node)

def wideningTarget (node : Node) : Walk (Option Prim) :=
  match node.mode with
  | some mode => tree.modes.prim? mode
  | none => pure none

/- Put the value of a unit on the stack, where `execute` does so for the units it is made of. -/
def executeUnit (execute : NodeId → Run Unit) (id : NodeId) : Run Unit := do
  let node ← reading (tree.node id)
  match node.attr with
  | .denoter => pushDenoter tree id
  | .identifier => do
    let tag ← needing id (tree.tag? id)
    match tag.builtin, tag.value with
    | some builtin, _ => apply builtin id node.line
    | none, some value => execute value
    | none, none => throw (.notEvaluable id)
  | .formula => do
    match ← reading (tree.firstChildren id 3) with
    | [left, operator, right] => do
      let builtin ← needing id (tree.builtin? operator)
      execute left
      execute right
      apply builtin id node.line
    | _ => throw (.notEvaluable id)
  | .monadicFormula => do
    match ← reading (tree.firstChildren id 2) with
    | [operator, operand] => do
      let builtin ← needing id (tree.builtin? operator)
      execute operand
      apply builtin id node.line
    | _ => throw (.notEvaluable id)
  | .call => do
    match ← reading (tree.firstChildren id 1) with
    | [callee] => do
      let callee' ← reading (tree.node callee)
      let builtin ← needing id (tree.builtin? callee)
      executeAll tree execute tree.bound callee'.next
      apply builtin id node.line
    | _ => throw (.notEvaluable id)
  | .deproceduring => do
    match node.sub with
    | some operand => do
      let builtin ← needing id (tree.builtin? operand)
      apply builtin id node.line
    | none => throw (.notEvaluable id)
  | .widening => do
    match node.sub with
    | some operand => do
      let target ← needing id (wideningTarget tree node)
      execute operand
      widen target id
    | none => throw (.notEvaluable id)
  | .collateralClause => do
    match ← reading (tree.firstChildren id 3) with
    | [re, im] => do
      execute re
      execute im
      pairReals id
    | _ => throw (.notEvaluable id)
  | .cast | .closedClause | .serialClause => do
    match ← reading (tree.firstChildren id 2) with
    | [only] => execute only
    | _ => throw (.notEvaluable id)
  | _ => throw (.notEvaluable id)

/- Execution of a unit at most `fuel` levels deep. -/
def executeWithin (tree : SyntaxTree) : Nat → NodeId → Run Unit
  | 0, _ => reading (throw .unbounded)
  | fuel + 1, id => executeUnit tree (executeWithin tree fuel) id

/- Put the value of a unit on the stack. -/
def execute : Run Unit := executeWithin tree (2 * tree.bound) id

/- The value of a unit, found on an empty stack. -/
def evaluate : Run Value := do
  modify reset
  execute tree id
  pop id

end Machine

end Algol68
