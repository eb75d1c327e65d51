import Algol68.Store
import Algol68.Builtin

/- Bindings of identifiers and the frames that hold them. -/

------ Tags

namespace Algol68

inductive TagKind
  /- The subject of an identity declaration. -/
  | identifier
  /- A variable; its mode is a reference. -/
  | var
  | parameter
  /- A procedure with a routine text. -/
  | procedure
  | operator
  | label
  /- An entry of the standard environment. -/
  | standard
deriving DecidableEq, Repr, Inhabited

namespace TagKind

def all : List TagKind := [.identifier, .var, .parameter, .procedure, .operator, .label, .standard]

/- The spelling of a kind in the written form of a tree. -/
def name : TagKind → String
  | .identifier => "Identifier"
  | .var => "Variable"
  | .parameter => "Parameter"
  | .procedure => "Procedure"
  | .operator => "Operator"
  | .label => "Label"
  | .standard => "Standard"

def ofName? (text : String) : Option TagKind := all.find? fun kind => kind.name == text

def isValue : TagKind → Bool
  | .identifier | .var | .parameter => true
  | _ => false

/- The spelling of a kind leads back to it. -/
@[simp] theorem ofName?_name (kind : TagKind) : ofName? kind.name = some kind := by
  cases kind <;> decide +kernel

end TagKind

/-
  A binding. The value is the source of an identity declaration, the body the routine text of a
  procedure, and level and offset say where the frame holds it.
-/
structure Tag where
  name : String
  mode : ModeId
  kind : TagKind
  definingNode : Option NodeId := none
  value : Option NodeId := none
  body : Option NodeId := none
  builtin : Option Builtin := none
  level : Nat := 0
  offset : Nat := 0
deriving DecidableEq, Repr

------ Scope Tables

/- The frame layout of a range. -/
structure ScopeTable where
  level : Nat := 0
  parent : Option TableId := none
  frameIncrement : Nat := 0
  hasRoutines : Bool := false
deriving DecidableEq, Repr

/- Whether entering the range must initialise its frame. -/
def ScopeTable.needsInitialisation (table : ScopeTable) : Bool :=
  decide (0 < table.frameIncrement) || table.hasRoutines

end Algol68
