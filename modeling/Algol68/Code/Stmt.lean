import Algol68.Code.Expr
import Algol68.Code.Path

/- Statements of generated code. -/

------ Statements

namespace Algol68

/- What a value is stored into. -/
inductive Place
  /- The object a temporary points to. -/
  | object (pointer : Temp)
  /- The object behind a reference that a temporary points to. -/
  | target (storage : String) (reference : Temp)
deriving DecidableEq, Repr

/- How a value is put on the evaluation stack. -/
inductive PushForm
  | reference
  | pair
  | bytes (size : Nat)
  | value (storage : String)
deriving DecidableEq, Repr

inductive StoreForm
  | pair
  | value
  | bytes (size : Nat)
deriving DecidableEq, Repr

/-
  The header of a counting loop over the bounds kept in
  temporaries. Without a limit the loop goes on for ever.
-/
structure LoopHeader where
  owner : NodeId
  hasLimit : Bool
  downwards : Bool
deriving DecidableEq, Repr

/- A statement. Storage names are the C types of objects. -/
inductive Stmt
  /- Point to a slot of a frame. -/
  | fetch (target : Temp) (storage : String) (slot : Slot)
  /- Point to the object behind the reference in a slot. -/
  | deref (target : Temp) (storage : String) (slot : Slot)
  /- Stop unless an object of a mode was assigned. -/
  | checkInitialised (pointer : Temp) (modeName : String)
  /- Point to an element of a row. -/
  | element (target : Temp) (storage : String) (row : Temp) (indices : List Expr)
  /- Point to a part of a complex number. -/
  | component (target base : Temp) (index : Nat)
  /- Point to a field of a structure. -/
  | field (target : Temp) (storage : String) (base : Temp) (offset : Nat)
  | compute (target : Temp) (value : Expr)
  /- Compute a complex number into an array. -/
  | computeInto (function : String) (target : Temp) (operands : List Expr)
  /- Stop if a result is not a number. -/
  | checkMath (result : Temp) (builtin : String)
  /- Fill an array with two parts; the second may be zero. -/
  | setPair (target : Temp) (re : Expr) (im : Option Expr)
  | initialiseField (storage : String) (base : Temp) (offset : Nat)
  | setField (storage : String) (base : Temp) (offset : Nat) (value : Expr)
  | store (place : Place) (form : StoreForm) (value : Expr)
  /- Take the branch that the guard at a node decides for. -/
  | branch (node : NodeId) (guard : Expr) (yes no : List Stmt)
  | branchOnly (guard : Expr) (yes : List Stmt)
  /- Arms are numbered from one. -/
  | switch (selector : Expr) (arms : List (List Stmt)) (otherwise : List Stmt)
  | loop (header : LoopHeader) (body : List Stmt)
  | block (body : List Stmt)
  /- Declare a reference that is kept in a slot. -/
  | referenceTo (reference : Temp) (slot : Slot)
  /- Give a declared reference an object. -/
  | generate (site : Site) (reference : Temp) (size : Nat)
  /- Call the generated function of a node. -/
  | call (function : String) (site : Site)
  /- Leave a declaration to the interpreter. -/
  | declaration (site : Site)
  | saveStack (mark : Temp)
  | resetStack (mark : Temp)
  | saveFrame (mark : Temp)
  | openFrame (site : Site)
  | initialiseFrame (site : Site)
  | closeFrame (mark : Temp)
  | setCounter (counter count : Temp)
  /- Push a value of a mode. -/
  | push (mode : ModeId) (form : PushForm) (value : Expr)
  /- Push the number of an alternative of a union. -/
  | pushUnion (alternative : Nat)
  | padStack (size : Nat)
  | openProcedure (routine : NodeId) (level : Nat)
  | bindArguments (routine : NodeId) (mark : Temp)
  /- Execute the body of a routine with a result of a mode. -/
  | executeUnit (body : NodeId) (result : ModeId)
deriving Repr, Inhabited

------ Lines

/- A line of code and how far it is indented. -/
structure Line where
  depth : Nat
  text : String
deriving DecidableEq, Repr

namespace Line

def rendered (line : Line) : String :=
  String.join (List.replicate line.depth "  ") ++ line.text ++ "\n"

def renderAll (lines : List Line) : String := String.join (lines.map rendered)

end Line

def Place.text : Place → String
  | .object pointer => pointer.text
  | .target storage reference => "A68_DEREF (" ++ storage ++ ", " ++ reference.text ++ ")"

variable (header : LoopHeader)

namespace LoopHeader

def temp (stem : String) : Temp where
  stem := stem
  owner := header.owner

def condition : String :=
  if header.hasLimit then
    let count := (header.temp "count").text
    let limit := (header.temp "to").text
    let (up, down) := if header.downwards then (">=", "<=") else ("<=", ">=")
    "(" ++ (header.temp "by").text ++ " >= 0 ? " ++ count ++ " " ++ up ++ " " ++ limit ++ " : " ++
      count ++ " " ++ down ++ " " ++ limit ++ ")"
  else "A68_TRUE"

def text : String :=
  let count := (header.temp "count").text
  "for (" ++ count ++ " = " ++ (header.temp "from").text ++
    "; " ++ header.condition ++ "; " ++ count ++ (if header.downwards then " -= " else " += ") ++
    (header.temp "by").text ++ ") \x7b"

end LoopHeader

namespace Stmt

/- The address of a field, as a pointer to its type. -/
def fieldText (storage : String) (base : Temp) (offset : Nat) : String :=
  "((" ++ storage ++ " *) A68_FIELD (" ++ base.text ++ ", " ++ toString offset ++ "))"

/- The text of a statement that takes one line. -/
def simpleText : Stmt → String
  | .fetch target storage slot => target.text ++ " = (" ++ storage ++ " *) " ++ slot.text ++ ";"
  | .deref target storage slot =>
    target.text ++ " = A68_DEREF (" ++ storage ++ ", (A68_REF *) " ++ slot.text ++ ");"
  | .checkInitialised pointer modeName =>
    "A68_CHECK_INIT (p, " ++ pointer.text ++ ", \"" ++ modeName ++ "\");"
  | .element target storage row indices =>
    target.text ++ " = (" ++ storage ++ " *) A68_ROW_ELEMENT (p, " ++ row.text ++ ", " ++
      toString indices.length ++ ", " ++ commaJoined (Expr.texts indices) ++ ");"
  | .component target base index =>
    target.text ++ " = &" ++ base.text ++ "[" ++ toString index ++ "];"
  | .field target storage base offset =>
    target.text ++ " = (" ++ storage ++ " *) A68_FIELD (" ++
      base.text ++ ", " ++ toString offset ++ ");"
  | .compute target value => target.text ++ " = " ++ value.text ++ ";"
  | .computeInto function target operands =>
    function ++ " (" ++ target.text ++ ", " ++ commaJoined (Expr.texts operands) ++ ");"
  | .checkMath result builtin => "A68_MATH_RTE (p, " ++ result.text ++ ", \"" ++ builtin ++ "\");"
  | .setPair target re im =>
    "A68_SET_COMPLEX (" ++ target.text ++ ", " ++ re.text ++
      ", " ++ (im.map Expr.text).getD "0.0" ++ ");"
  | .initialiseField storage base offset =>
    "STATUS " ++ fieldText storage base offset ++ " = INIT_MASK;"
  | .setField storage base offset value =>
    "V " ++ fieldText storage base offset ++ " = " ++ value.text ++ ";"
  | .store place .pair value => "A68_COPY_COMPLEX (" ++ place.text ++ ", " ++ value.text ++ ");"
  | .store place .value value => "V (" ++ place.text ++ ") = " ++ value.text ++ ";"
  | .store place (.bytes size) value =>
    "A68_COPY (" ++ place.text ++ ", " ++ value.text ++ ", " ++ toString size ++ ");"
  | .referenceTo reference slot =>
    "A68_REF *" ++ reference.text ++ " = (A68_REF *) " ++ slot.text ++ ";"
  | .generate site reference size =>
    "A68_LOCAL_GENERATOR (" ++ site.text ++ ", " ++ reference.text ++ ", " ++ toString size ++ ");"
  | .call function site => function ++ " (" ++ site.text ++ ");"
  | .declaration site => "a68_genie_declaration (" ++ site.text ++ ");"
  | .saveStack mark => mark.text ++ " = A68_SP;"
  | .resetStack mark => "A68_SP = " ++ mark.text ++ ";"
  | .saveFrame mark => mark.text ++ " = A68_FP;"
  | .openFrame site => "A68_OPEN_STATIC_FRAME (" ++ site.text ++ ");"
  | .initialiseFrame site => "A68_INIT_STATIC_FRAME (" ++ site.text ++ ");"
  | .closeFrame mark => "A68_CLOSE_FRAME (" ++ mark.text ++ ");"
  | .setCounter counter count => "V (" ++ counter.text ++ ") = " ++ count.text ++ ";"
  | .push _ .reference value => "A68_PUSH_REF (p, " ++ value.text ++ ");"
  | .push _ .pair value => "A68_PUSH_COMPLEX (p, " ++ value.text ++ ");"
  | .push _ (.bytes size) value =>
    "A68_PUSH_STRUCT (p, " ++ value.text ++ ", " ++ toString size ++ ");"
  | .push _ (.value storage) value => "A68_PUSH_VALUE (p, " ++ value.text ++ ", " ++ storage ++ ");"
  | .pushUnion alternative => "A68_PUSH_UNION (p, " ++ toString alternative ++ ");"
  | .padStack size => "A68_INCREMENT_STACK_POINTER (p, " ++ toString size ++ ");"
  | .openProcedure routine level =>
    "A68_OPEN_PROC_FRAME (A68_NODE (" ++ routine.text ++ "), " ++ toString level ++ ");"
  | .bindArguments routine mark =>
    "A68_BIND_ARGUMENTS (A68_NODE (" ++ routine.text ++ "), " ++ mark.text ++ ");"
  | .executeUnit body _ => "A68_EXECUTE_UNIT (A68_NODE (" ++ body.text ++ "));"
  | _ => ""

mutual

def lines (depth : Nat) : Stmt → List Line
  | .branch _ guard yes no =>
    ⟨depth, "if (" ++ guard.text ++ ") \x7b"⟩ :: (linesOf (depth + 1) yes ++
        ⟨depth, "\x7d else \x7b"⟩ :: (linesOf (depth + 1) no ++ [⟨depth, "\x7d"⟩]))
  | .branchOnly guard yes =>
    ⟨depth, "if (" ++ guard.text ++ ") \x7b"⟩ :: (linesOf (depth + 1) yes ++ [⟨depth, "\x7d"⟩])
  | .switch selector arms otherwise =>
    ⟨depth, "switch (" ++ selector.text ++ ") \x7b"⟩ :: (armLines depth 1 arms ++
        ⟨depth, "default: \x7b"⟩ :: (linesOf (depth + 1) otherwise ++
            [⟨depth + 1, "break;"⟩, ⟨depth, "\x7d"⟩, ⟨depth, "\x7d"⟩]))
  | .loop header body => ⟨depth, header.text⟩ :: (linesOf (depth + 1) body ++ [⟨depth, "\x7d"⟩])
  | .block body => ⟨depth, "\x7b"⟩ :: (linesOf (depth + 1) body ++ [⟨depth, "\x7d"⟩])
  | stmt => [⟨depth, simpleText stmt⟩]

def linesOf (depth : Nat) : List Stmt → List Line
  | [] => []
  | stmt :: rest => lines depth stmt ++ linesOf depth rest

def armLines (depth number : Nat) : List (List Stmt) → List Line
  | [] => []
  | arm :: rest =>
    ⟨depth, "case " ++ toString number ++ ": \x7b"⟩ :: (linesOf (depth + 1) arm ++
        ⟨depth + 1, "break;"⟩ :: ⟨depth, "\x7d"⟩ :: armLines depth (number + 1) rest)

end

end Stmt

end Algol68
