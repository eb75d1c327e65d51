import Algol68.Builtin.Apply
import Algol68.Decimal.Numeral
import Algol68.Text.Blank
import Algol68.Mode

/-
  The stack machine that gives expressions their values.

  Operands are taken from the stack and results are put back on it. An error leaves the stack as
  it was when the error arose, without the operands already taken.
-/

------ Errors

namespace Algol68

/- Why a unit has no value, and the node that has none. -/
inductive RuntimeError
  | builtin (node : NodeId) (line : Nat) (source : BuiltinError)
  | invalidDenoter (node : NodeId) (text : String)
  | invalidWidening (node : NodeId) (prim : Prim)
  | stackUnderflow (node : NodeId)
  | notEvaluable (node : NodeId)
deriving DecidableEq, Repr

namespace RuntimeError

def node : RuntimeError → NodeId
  | .builtin node _ _ => node
  | .invalidDenoter node _ => node
  | .invalidWidening node _ => node
  | .stackUnderflow node => node
  | .notEvaluable node => node

def message : RuntimeError → String
  | .builtin _ line source => "line " ++ toString line ++ ": " ++ source.message
  | .invalidDenoter _ text => "Invalid denotation \"" ++ text ++ "\""
  | .invalidWidening _ prim => "Cannot widen a value of mode " ++ prim.modeName
  | .stackUnderflow _ => "Evaluation stack underflow"
  | .notEvaluable _ => "Unit cannot be evaluated statically"

end RuntimeError

------ Machines

/- A stack with its top first, and the seed of `random`. -/
structure Machine where
  stack : List Value := []
  seed : UInt64 := 0x2545f4914f6cdd1d
deriving DecidableEq, Repr

namespace Machine

abbrev Run (α : Type) := ExceptT RuntimeError (StateT Machine Walk) α

def depth (machine : Machine) : Nat := machine.stack.length

/- The machine with an empty stack; the seed is kept. -/
def reset (machine : Machine) : Machine := { machine with stack := [] }

def push (value : Value) : Run Unit :=
  modify fun machine => { machine with stack := value :: machine.stack }

def pop (node : NodeId) : Run Value := do
  let machine ← get
  match machine.stack with
  | value :: rest => do
    set { machine with stack := rest }
    pure value
  | [] => throw (.stackUnderflow node)

------ Random Numbers

/- The seed after a random number was drawn. -/
def nextSeed (seed : UInt64) : UInt64 :=
  let first := seed ^^^ (seed <<< 13)
  let second := first ^^^ (first >>> 7)
  second ^^^ (second <<< 17)

/- The number between zero and one that a seed stands for. -/
def seedValue (seed : UInt64) : Float := (seed >>> 11).toFloat / (9007199254740992 : Float)

def draw : Run Float := do
  let seed := nextSeed (← get).seed
  modify fun machine => { machine with seed := seed }
  pure (seedValue seed)

------ Operations

/- Replace the operands of a builtin by its result. -/
def apply (builtin : Builtin) (node : NodeId) (line : Nat) : Run Unit := do
  if builtin = .random then push (.real (← draw))
  else
    let machine ← get
    let arity := builtin.arity
    if machine.stack.length < arity then throw (.stackUnderflow node)
    set { machine with stack := machine.stack.drop arity }
    match builtin.apply (machine.stack.take arity).reverse with
    | .ok value => push value
    | .error source => throw (.builtin node line source)

/- A value widened to a category, if it can be. -/
def widened? : Value → Prim → Option Value
  | .int n, .real => some (.real n.toFloat)
  | .int n, .complex => some (.complex n.toFloat 0.0)
  | .real x, .complex => some (.complex x 0.0)
  | _, _ => none

def widen (target : Prim) (node : NodeId) : Run Unit := do
  let value ← pop node
  match widened? value target with
  | some value => push value
  | none => throw (.invalidWidening node value.prim)

end Machine

end Algol68
