import Algol68.Code.Stmt
import Algol68.Context.Booking
import Algol68.Mode.Layout

/- The parts of basic units, as all passes over a unit find them. -/

------ Required Parts

namespace Algol68

variable (tree : SyntaxTree) (id : NodeId) (mode : ModeId)

namespace Inline

def modeOf : Walk ModeId := do
  match ← tree.mode? id with
  | some mode => pure mode
  | none => tree.violation id .unitWithoutMode

def tagOf : Walk (TagId × Tag) := do
  match (← tree.node id).tag with
  | some tag => pure (tag, ← tree.tags.fetch tag)
  | none => tree.violation id .identifierWithoutTag

def childOf (position : Nat) : Walk NodeId := do
  match ← tree.child? id position with
  | some child => pure child
  | none => tree.violation id .missingChild

------ Pointers

/- A temporary that points to an object of a storage class. -/
structure Pointer where
  address : Address
  stem : String
  storage : String
  node : NodeId

def Pointer.temp (pointer : Pointer) (owner : NodeId) : Temp where
  stem := pointer.stem
  owner := owner

def bookingName (id : TagId) (tag : Tag) : String := tag.name ++ "#" ++ id.text

def slotOf (id : TagId) (tag : Tag) : Slot where
  tag := id
  level := tag.level
  offset := tag.offset

/-
  A pointer found through the slot of an identifier: to the
  slot itself, or to the object it refers to.
-/
structure Named where
  pointer : Pointer
  slot : Slot
  object : Option ModeId := none

def fetchOf : Walk Named := do
  let (tag, entry) ← tagOf tree id
  let storage ← tree.modes.objectClass entry.mode
  pure
    { pointer :=
        { address :=
            { action := .fetch
              name := bookingName tag entry }
          stem := Text.identifier entry.name
          storage := storage
          node := id }
      slot := slotOf tag entry }

def derefOf : Walk Named := do
  let (tag, entry) ← tagOf tree id
  match ← tree.modes.deref? entry.mode with
  | none => tree.violation id .notReference
  | some object => do
    let storage ← tree.modes.objectClass object
    pure
      { pointer :=
          { address :=
              { action := .deref
                name := bookingName tag entry }
            stem := Text.identifier entry.name ++ "_obj"
            storage := storage
            node := id }
        slot := slotOf tag entry
        object := some object }

/- The pointer to a row or structure, through the reference to it if there is one. -/
def baseOf : Walk Named := do
  let mode ← modeOf tree id
  if ← tree.modes.isRef mode then derefOf tree id else fetchOf tree id

/- The pointer to an element of a named row. -/
structure Element where
  pointer : Pointer
  primary : NodeId
  indices : List NodeId

def elementOf : Walk Element := do
  let primary ← childOf tree id 0
  let indexer ← childOf tree id 1
  let (tag, entry) ← tagOf tree primary
  match ← tree.modes.rowElement? entry.mode with
  | none => tree.violation id .notRow
  | some element => do
    let storage ← tree.modes.objectClass element
    let payload ← Payload.ofNode tree indexer
    let indices ← tree.children indexer
    pure
      { pointer :=
          { address :=
              { action := .slice
                name := bookingName tag entry
                payload := some payload }
            stem := Text.identifier entry.name ++ "_elem"
            storage := storage
            node := id }
        primary := primary
        indices := indices }

/- The pointer to a field of a named structure. -/
structure Component where
  pointer : Pointer
  secondary : NodeId
  structureMode : ModeId
  index : Nat

def componentOf : Walk Component := do
  let selector ← childOf tree id 0
  let secondary ← childOf tree id 1
  let (tag, entry) ← tagOf tree secondary
  let symbol := (← tree.node selector).symbol
  let target ← tree.modes.deref? entry.mode
  let structureMode := target.getD entry.mode
  match ← tree.modes.field? structureMode symbol with
  | none => tree.violation id .fieldMissing
  | some (index, fieldMode) => do
    let storage ← tree.modes.objectClass fieldMode
    let payload ← Payload.ofNode tree selector
    pure
      { pointer :=
          { address :=
              { action := .selection
                name := bookingName tag entry
                payload := some payload }
            stem := Text.identifier entry.name ++ "_" ++ Text.identifier symbol
            storage := storage
            node := id }
        secondary := secondary
        structureMode := structureMode
        index := index }

------ Operations

structure Result where
  temp : Temp
  storage : String
  declarator : String

/- The array of two parts that a node needs. -/
def pairResult : Result :=
  let temp : Temp := ⟨"cplx", id⟩
  { temp := temp
    storage := "A68_REAL"
    declarator := temp.text ++ "[2]" }

def plainResult : Walk Result := do
  let mode ← modeOf tree id
  let storage ← tree.modes.storageClass? mode
  let temp : Temp := ⟨"tmp", id⟩
  pure
    { temp := temp
      storage := storage.getD "A68_REAL"
      declarator := temp.text }

structure Operation where
  builtin : Builtin
  operands : List NodeId
  result : Option Result

def operandsOf : Walk (Builtin × List NodeId) := do
  let children ← tree.children id
  let found ←
    match ← tree.attr id, children with
    | .formula, [left, operator, right] => do
      pure ((← tree.builtin? operator).map fun builtin => (builtin, [left, right]))
    | .monadicFormula, [operator, operand] => do
      pure ((← tree.builtin? operator).map fun builtin => (builtin, [operand]))
    | .call, callee :: arguments => do
      pure ((← tree.builtin? callee).map fun builtin => (builtin, arguments))
    | _, _ => pure none
  match found with
  | some found => pure found
  | none => tree.violation id .noStandardOperation

/-
  The operation of a formula or call. A complex result goes
  into an array, and a result that is checked into a variable.
-/
def operationOf (checked : Bool) (id : NodeId) : Walk Operation := do
  let (builtin, operands) ← operandsOf tree id
  let result ←
    match builtin.signature.rendering with
    | .out _ => pure (some (pairResult id))
    | _ =>
      if checked && builtin.mayRaiseMathError then do
        pure (some (← plainResult tree id))
      else pure none
  pure { builtin, operands, result }

def procedureOf : Walk Builtin := do
  let operand ← childOf tree id 0
  match ← tree.builtin? operand with
  | some builtin => pure builtin
  | none => tree.violation id .noStandardProcedure

/- The variable for the result of a parameterless procedure. -/
def procedureTemp : Temp := ⟨"tmp", id⟩

------ Clauses

def wideningOf : Walk (NodeId × Bool) := do
  let operand ← childOf tree id 0
  let mode ← modeOf tree id
  pure (operand, tree.modes.isComplex mode)

/- Two names, and whether they are to be the same. -/
structure Relation where
  left : NodeId
  same : Bool
  right : NodeId

/- The names an identity relation compares. -/
def relationOf : Walk Relation := do
  let left ← childOf tree id 0
  let operator ← childOf tree id 1
  let same ← tree.is operator .is
  let right ← childOf tree id 2
  pure { left, same, right }

/- The guard and the branches of a conditional. -/
structure Choice where
  guard : NodeId
  yes : NodeId
  no : NodeId

/- The guard and the branches of a conditional clause. -/
def choiceOf : Walk Choice := do
  let guard ← childOf tree (← childOf tree id 0) 0
  let yes ← childOf tree (← childOf tree id 1) 0
  let tail ← childOf tree id 2
  let no ←
    match ← tree.attr tail with
    | .elsePart => childOf tree tail 0
    | .elifPart => pure tail
    | _ => tree.violation id .noElsePart
  pure { guard, yes, no }

/- A display, and the object it is built in. -/
structure Display where
  mode : ModeId
  members : List NodeId
  isComplex : Bool

def Display.temp (display : Display) (id : NodeId) : Temp :=
  ⟨if display.isComplex then "cplx" else "display", id⟩

def displayOf : Walk Display := do
  let mode ← modeOf tree id
  let members ← tree.children id
  pure
    { mode := mode
      members := members
      isComplex := tree.modes.isComplex mode }

def displayFields : Walk (List Field) := do
  match ← tree.modes.kind mode with
  | .struct fields => pure fields
  | _ => tree.violation id .notStructure

def assignationOf : Walk (NodeId × NodeId) := do
  let destination ← childOf tree id 0
  let source ← childOf tree id 1
  pure (destination, source)

------ Values

def valueOf (pointer : Temp) : Walk Expr := do
  let kind ← tree.modes.kind mode
  if kind.isRef then pure (.content pointer)
  else if kind.isPrimitive then pure (.value pointer)
  else pure (.temp pointer)

def pushFormOf : Walk PushForm := do
  match ← tree.modes.kind mode with
  | .ref _ => pure .reference
  | kind =>
    if tree.modes.isComplex mode then pure .pair
    else
      match kind with
      | .struct _ => pure (.bytes (← tree.modes.byteSize mode))
      | _ => pure (.value (kind.storageClass?.getD "A68_INT"))

def pushOf (value : Expr) : Walk Stmt := do
  pure (.push mode (← pushFormOf tree mode) value)

def storeOf (place : Place) (value : Expr) : Walk Stmt := do
  if tree.modes.isComplex mode then pure (.store place .pair value)
  else if ← tree.modes.isPrimitive mode then pure (.store place .value value)
  else pure (.store place (.bytes (← tree.modes.byteSize mode)) value)

end Inline

end Algol68
