import Algol68.Code.Function
import Algol68.Context.Booking
import Algol68.Context.Declarations
import Algol68.Diagnostic
import Algol68.Machine.Evaluation
import Algol68.Options

/- What a compilation has made so far. -/

------ Output

namespace Algol68

/- A piece of generated code. -/
inductive Fragment
  | text (content : String)
  /- Statements at a depth. -/
  | statements (depth : Nat) (body : List Stmt)
  | function (function : Function)

def Fragment.render : Fragment → String
  | .text content => content
  | .statements depth body => Line.renderAll (Stmt.linesOf depth body)
  | .function definition => definition.text

/- A definition outside all functions. -/
inductive Global
  | text (content : String)
  /- The array that holds a complex constant. -/
  | pair (re im : Float)

def Global.render : Global → String
  | .text content => content
  | .pair re im =>
    "static const A68_REAL " ++ Value.pairName re im ++
      "[2] = " ++ (Value.complex re im).literal ++ ";"

------ Contexts

/- The constants of a function with their values; a constant whose evaluation failed has none. -/
abbrev Folded := List (NodeId × Option Value)

/-
  The state of a compilation: the function being generated,
  the code made before it, and what was found out.
-/
structure Context where
  options : Options
  /- The tier of the current pass. -/
  tier : Nat
  declarations : Declarations := {}
  bookings : Bookings := []
  /- Names of the functions and arrays that are shared. -/
  uniqueNames : List String := []
  machine : Machine := {}
  folded : Folded := []
  depth : Nat := 0
  output : List Fragment := []
  globals : List Global := []
  functionCount : Nat := 0
  diagnostics : List Diagnostic := []
  errorCount : Nat := 0
  /- The compiled nodes with the names of their functions. -/
  compiled : List (NodeId × String) := []
  counted : errorCount = diagnostics.length := by rfl

variable (context : Context)

namespace Context

/- A step of a compilation. -/
abbrev Task (α : Type) := StateT Context Walk α

/- A context without any code. -/
def ofOptions (options : Options) : Context where
  options := options
  tier := options.tier

/- The context without any code, with the same options. -/
def reset : Context := ofOptions context.options

def outputText : String := String.join (context.output.map Fragment.render)

/- The text of the definitions outside all functions. -/
def globalsText : String := String.join (context.globals.map fun entry => entry.render ++ "\n")

------ Writing

def beginFunction : Context :=
  { context with
    declarations := {}
    bookings := []
    folded := []
    depth := 0
    functionCount := context.functionCount + 1 }

/- Add a piece of code. -/
def append (fragment : Fragment) : Context :=
  { context with output := context.output ++ [fragment] }

def firstBytes (text : String) (count : Nat) : Walk String :=
  if text.utf8ByteSize ≤ count then pure text
  else
    match String.fromUTF8? (text.toUTF8.extract 0 count) with
    | some start => pure start
    | none => throw .degenerate

/- Keep only the first bytes of the code. -/
def truncateOutput (count : Nat) : Walk Context := do
  let text ← firstBytes context.outputText count
  pure { context with output := [.text text] }

/- Add a definition outside all functions. -/
def addGlobal (entry : Global) : Context := { context with globals := context.globals ++ [entry] }

def declare (storage name : String) : Context :=
  { context with
    declarations := context.declarations.add storage name }

def report (diagnostic : Diagnostic) : Context :=
  { context with
    diagnostics := context.diagnostics ++ [diagnostic]
    errorCount := context.errorCount + 1
    counted := by simp [context.counted] }

def recordCompiled (node : NodeId) (function : String) : Context :=
  { context with
    compiled := context.compiled ++ [(node, function)] }

def hasName (name : String) : Bool := context.uniqueNames.contains name

/- Take a shared name; taking it again changes nothing. -/
def takeName (name : String) : Context :=
  if context.hasName name then context
  else { context with uniqueNames := name :: context.uniqueNames }

------ Bookings

def signIn (address : Address) (phase : Phase) (owner : NodeId) : Context :=
  { context with
    bookings := context.bookings.signIn address phase owner }

def signedIn? (tree : SyntaxTree) (address : Address) (phase : Phase) : Walk (Option Booking) :=
  context.bookings.signedIn? context.options.hasher tree address phase

/- The owner of the temporary of an address, which is the given node if there is none so far. -/
def ownerOf (tree : SyntaxTree) (address : Address) (node : NodeId) : Walk NodeId :=
  context.bookings.owner context.options.hasher tree address node

------ Folding

def reportAt (tree : SyntaxTree) (id : NodeId) (cause : Cause) : Task Unit := do
  let node ← tree.node id
  modify fun context => context.report { node := id, line := node.line, cause }

def runMachine {α : Type} (run : Machine.Run α) : Task (Except RuntimeError α) := do
  let context ← get
  let (result, machine) ← run.run.run context.machine
  set { context with machine := machine }
  pure result

/- Define the array of a complex constant, once. -/
def definePair (re im : Float) : Task Unit :=
  modify fun context =>
    let name := Value.pairName re im
    if context.hasName name then context else (context.takeName name).addGlobal (.pair re im)

/-
  The value of a constant unit. A unit that fails or whose
  value is not finite is recorded as a problem.
-/
def fold (tree : SyntaxTree) (id : NodeId) : Task (Option Value) := do
  match ← runMachine (Machine.evaluate tree id) with
  | .error error => do
    reportAt tree id (.unfoldable error)
    pure none
  | .ok value => do
    if value.isFinite then
      match value with
      | .complex re im => definePair re im
      | _ => pure ()
      pure (some value)
    else
      reportAt tree id (.notFinite id)
      pure none

end Context

end Algol68
