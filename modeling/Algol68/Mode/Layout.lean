import Algol68.Mode

/-
  How the values of a mode are laid out at run time, and
  which modes the generated code can handle.
-/

------ Sizes

namespace Algol68

namespace ModeTable

/- The bytes of a value, for a mode at most `fuel` levels deep. -/
def byteSizeWithin (table : ModeTable) : Nat → ModeId → Walk Nat
  | 0, _ => throw .unbounded
  | fuel + 1, mode => do
    match ← table.kind mode with
    | .void => pure 0
    | .int | .real | .bits => pure 16
    | .bool | .char => pure 8
    | .hip | .ref _ | .proc _ _ | .row _ _ => pure 24
    | .struct fields => do
      let sizes ← fields.mapM fun field => table.byteSizeWithin fuel field.mode
      pure (sizes.foldr (· + ·) 0)
    | .union alternatives => do
      let sizes ← alternatives.mapM (table.byteSizeWithin fuel)
      pure (8 + sizes.foldl Nat.max 0)

variable (table : ModeTable)

/- The bytes a value of a mode takes on the run-time stack. -/
def byteSize (mode : ModeId) : Walk Nat := table.byteSizeWithin (table.size + 1) mode

def fieldOffset (mode : ModeId) (index : Nat) : Walk Nat := do
  match ← table.kind mode with
  | .struct fields => do
    let sizes ← (fields.take index).mapM fun field => table.byteSize field.mode
    pure (sizes.foldr (· + ·) 0)
  | _ => pure 0

end ModeTable

------ Classes of Modes

namespace ModeKind

/- Whether values of the kind are single words. -/
def isPrimitive : ModeKind → Bool
  | .int | .real | .bool | .char | .bits => true
  | _ => false

def isRef : ModeKind → Bool
  | .ref _ => true
  | _ => false

def isRow : ModeKind → Bool
  | .row _ _ => true
  | _ => false

/- The C type of a primitive value or a reference. -/
def storageClass? : ModeKind → Option String
  | .int => some "A68_INT"
  | .real => some "A68_REAL"
  | .bool => some "A68_BOOL"
  | .char => some "A68_CHAR"
  | .bits => some "A68_BITS"
  | .ref _ => some "A68_REF"
  | _ => none

end ModeKind

namespace ModeTable

variable (table : ModeTable) (mode : ModeId)

def isPrimitive : Walk Bool := do
  pure (← table.kind mode).isPrimitive

def isBasicStruct : Walk Bool := do
  match ← table.kind mode with
  | .struct [] => pure false
  | .struct fields => fields.allM fun field => table.isPrimitive field.mode
  | _ => pure false

def isComplex : Bool := mode == table.standard.complex

def isPlain : Walk Bool := (table.isPrimitive mode).or (table.isBasicStruct mode)

def isBasic : Walk Bool := do
  match ← table.kind mode with
  | .ref target =>
    match ← table.kind target with
    | .ref _ | .proc _ _ => pure false
    | _ => table.isPlain target
  | _ => table.isPlain mode

def isRow : Walk Bool := do
  pure (← table.kind mode).isRow

def isRef : Walk Bool := do
  pure (← table.kind mode).isRef

def isRefRow : Walk Bool := do
  Walk.holdsOf (← table.deref? mode) table.isRow

def isBasicNonRow : Walk Bool := (table.isRow mode).not.and (table.isBasic mode)

/- Whether a value of a mode has a C literal. -/
def isFoldable : Walk Bool := (table.isPrimitive mode).or (pure (table.isComplex mode))

def isVoid : Walk Bool := do
  pure ((← table.kind mode) == .void)

------ C Types

/- The C type of a primitive value or a reference. -/
def storageClass? : Walk (Option String) := do
  pure (← table.kind mode).storageClass?

/- The C type of the object a value of a mode occupies. -/
def objectClass : Walk String := do
  match ← table.kind mode with
  | .row _ _ => pure "A68_ROW"
  | .struct _ =>
    pure (if table.isComplex mode then "A68_REAL"
      else "BYTE_T")
  | kind => pure (kind.storageClass?.getD "BYTE_T")

end ModeTable

------ Requirements

/- What is asked of the mode of a classified unit. -/
inductive Requirement
  | basic
  | constant
deriving DecidableEq, Repr

namespace Requirement

def accepts (requirement : Requirement) (table : ModeTable) (mode : ModeId) : Walk Bool :=
  match requirement with
  | .basic => table.isBasic mode
  | .constant => table.isFoldable mode

end Requirement

end Algol68
