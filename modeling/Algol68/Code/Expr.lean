import Algol68.Builtin
import Algol68.Store
import Algol68.Value.Text

/-
  Expressions of generated code.

  Expressions have no side effects: what must happen only
  once is computed into a temporary by a statement.
-/

------ Temporaries and Slots

namespace Algol68

/- A local name, made of a stem and the node that owns it. -/
structure Temp where
  stem : String
  owner : NodeId
deriving DecidableEq, Repr, Inhabited

def Temp.text (temp : Temp) : String := temp.stem ++ "_" ++ temp.owner.text

/- The place of a tag in the frames of the program. -/
structure Slot where
  tag : TagId
  level : Nat
  offset : Nat
deriving DecidableEq, Repr, Inhabited

def Slot.text (slot : Slot) : String :=
  "A68_FRAME (p, " ++ toString slot.level ++ ", " ++ toString slot.offset ++ ")"

------ Expressions

/- A value without side effects. -/
inductive Expr
  /- Nothing, for a unit whose value is dropped. -/
  | blank
  | constant (value : Value)
  /- A temporary itself. -/
  | temp (temp : Temp)
  /- The primitive value that a temporary points to. -/
  | value (pointer : Temp)
  /- The reference that a temporary points to. -/
  | content (pointer : Temp)
  /- A reference to what a temporary points to. -/
  | reference (pointer : Temp)
  | nil
  | apply (rendering : Rendering) (operands : List Expr)
  | toReal (operand : Expr)
  /- Whether two references are the same, or are not. -/
  | sameName (same : Bool) (left right : Expr)
  /- The part that the conditional at a node takes. -/
  | choose (node : NodeId) (guard yes no : Expr)
deriving Repr, Inhabited

def commaJoined (texts : List String) : String := String.intercalate ", " texts

/-
  A builtin applied to operands. An operator with a number of
  operands it cannot have is written as a call.
-/
def Rendering.textOf : Rendering → List String → String
  | .infixOp op, [left, right] => "(" ++ left ++ " " ++ op ++ " " ++ right ++ ")"
  | .prefixOp op, [operand] => "(" ++ op ++ operand ++ ")"
  | .constant name, _ => name
  | .call function, operands => function ++ " (" ++ commaJoined operands ++ ")"
  | .out function, operands => function ++ " (" ++ commaJoined operands ++ ")"
  | .infixOp op, operands => "A68_OP (" ++ op ++ ", " ++ commaJoined operands ++ ")"
  | .prefixOp op, operands => "A68_OP (" ++ op ++ ", " ++ commaJoined operands ++ ")"

namespace Expr

mutual

def text : Expr → String
  | .blank => ""
  | .constant folded => folded.codeText
  | .temp name => name.text
  | .value pointer => "V (" ++ pointer.text ++ ")"
  | .content pointer => "*" ++ pointer.text
  | .reference pointer => "A68_MAKE_REF (p, " ++ pointer.text ++ ")"
  | .nil => "A68_NIL"
  | .apply rendering operands => rendering.textOf (texts operands)
  | .toReal operand => "((A68_REAL) " ++ text operand ++ ")"
  | .sameName same left right =>
    "(A68_ADDRESS (" ++ text left ++ ") " ++ (if same then "==" else "!=") ++
      " A68_ADDRESS (" ++ text right ++ "))"
  | .choose _ guard yes no => "(" ++ text guard ++ " ? " ++ text yes ++ " : " ++ text no ++ ")"

def texts : List Expr → List String
  | [] => []
  | expr :: rest => text expr :: texts rest

end

end Expr

end Algol68
