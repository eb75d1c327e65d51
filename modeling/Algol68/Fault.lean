import Algol68.Store
import Algol68.Attribute

/-
  What a malformed tree makes of a walk over it.

  A tree that passed mode checking has every link in range and every child in place. A walk over
  any other tree ends in a fault, which says what was found instead.
-/

------ Broken Invariants

namespace Algol68

/- A tree shape that successful mode checking rules out. -/
inductive Invariant
  | unitWithoutMode
  | identifierWithoutTag
  | missingChild
  | notBasic
  | foldFailed
  | notDeclared
  | notReference
  | unsupportedPrimary
  | noObject
  | notRow
  | fieldMissing
  | noStandardOperation
  | noStandardProcedure
  | noElsePart
  | notStructure
  | noConditionalParts
  | conditionalPartsOrder
  | noGuard
  | conditionalTail
  | noCaseParts
  | caseTail
  | loopPart
  | noDoPart
  | variableWithoutTag
  | variableNotReference
deriving DecidableEq, Repr

def Invariant.describe : Invariant → String
  | .unitWithoutMode => "unit without a mode"
  | .identifierWithoutTag => "identifier without a tag"
  | .missingChild => "missing child"
  | .notBasic => "inline emission of a unit that is not basic"
  | .foldFailed => "yield of a constant whose fold failed"
  | .notDeclared => "yield of a constant before its declare phase"
  | .notReference => "dereferencing an identifier that is not a reference"
  | .unsupportedPrimary => "dereferencing of an unsupported primary"
  | .noObject => "address of a unit that designates no object"
  | .notRow => "slice of a primary that is not a row"
  | .fieldMissing => "selection of a field the structure lacks"
  | .noStandardOperation => "operation without a standard operator or procedure"
  | .noStandardProcedure => "deproceduring of a procedure outside the standard environment"
  | .noElsePart => "conditional without an else or elif part"
  | .notStructure => "display of a mode that is not a structure"
  | .noConditionalParts => "conditional clause without if and then parts"
  | .conditionalPartsOrder => "conditional clause parts out of order"
  | .noGuard => "if part without a guard"
  | .conditionalTail => "conditional tail that is neither else nor elif"
  | .noCaseParts => "case clause without case and in parts"
  | .caseTail => "case tail that is neither out nor ouse"
  | .loopPart => "unexpected part in a loop clause"
  | .noDoPart => "loop clause without a do part"
  | .variableWithoutTag => "variable declaration without a tag"
  | .variableNotReference => "variable of a mode that is not a reference"

------ Faults

/- Why a walk over a tree ended early. -/
inductive Fault
  /- A handle outside its store. -/
  | dangling
  /- A row of no dimensions, or a text cut inside a character. -/
  | degenerate
  /- Links that lead back to where they came from. -/
  | unbounded
  /- A node that breaks an invariant. -/
  | broken (line : Nat) (attr : Attribute) (node : NodeId) (invariant : Invariant)
deriving DecidableEq, Repr

def Fault.message? : Fault → Option String
  | .broken line attr node invariant =>
    some ("internal error at line " ++ toString line ++
      " (" ++ attr.name ++ " node " ++ node.text ++ "): " ++ invariant.describe)
  | _ => none

------ Walks

/- The result of reading a tree that may be malformed. -/
abbrev Walk (α : Type) := Except Fault α

namespace Walk

/- Both answers hold; the second is asked only after the first. -/
@[macro_inline] def and (first second : Walk Bool) : Walk Bool :=
  match first with
  | .ok true => second
  | .ok false => .ok false
  | .error fault => .error fault

/- One answer holds; the second is asked only if needed. -/
@[macro_inline] def or (first second : Walk Bool) : Walk Bool :=
  match first with
  | .ok true => .ok true
  | .ok false => second
  | .error fault => .error fault

def not (answer : Walk Bool) : Walk Bool := answer.map Bool.not

def holdsOf {α : Type} (value : Option α) (answer : α → Walk Bool) : Walk Bool :=
  match value with
  | some value => answer value
  | none => .ok false

end Walk

namespace Store

variable {entity α : Type} (store : Store entity α) (handle : Handle entity)

def fetch : Walk α :=
  match store.get? handle with
  | some entry => .ok entry
  | none => .error .dangling

def modify (change : α → α) : Walk (Store entity α) :=
  match store.get? handle with
  | some entry => .ok ⟨store.entries.setIfInBounds handle.number (change entry)⟩
  | none => .error .dangling

end Store

end Algol68
