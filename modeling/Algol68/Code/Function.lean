import Algol68.Code.Stmt

/-
  Generated functions.

  A function takes the node it replaces, computes the
  fragment below it and leaves its value on the stack.
-/

------ Comments

namespace Algol68

/-
  A generated function. The source is what the fragment looks
  like in the program, and the declarations are lines of C.
-/
structure Function where
  name : String
  source : String
  line : Nat
  declarations : List String
  body : List Stmt

variable (function : Function)

namespace Function

def withoutCommentEnds : List Char → List Char
  | '*' :: '/' :: rest => '*' :: ' ' :: '/' :: withoutCommentEnds rest
  | c :: rest => c :: withoutCommentEnds rest
  | [] => []

def comment : String :=
  "/* " ++ String.ofList (withoutCommentEnds function.source.toList) ++
    " (line " ++ toString function.line ++ ") */"

------ Text

def header : String := "A68_PROP_T " ++ function.name ++ " (A68_NODE_T *p)"

def lines : List Line :=
  [⟨0, function.comment⟩, ⟨0, function.header⟩, ⟨0, "\x7b"⟩, ⟨1, "A68_PROP_T self;"⟩] ++
  function.declarations.map (Line.mk 1) ++
  [⟨1, "A68_UNIT (&self) = " ++ function.name ++ ";"⟩, ⟨1, "A68_SOURCE (&self) = p;"⟩] ++
  Stmt.linesOf 1 function.body ++
  [⟨1, "return (self);"⟩, ⟨0, "\x7d"⟩]

def text : String := Line.renderAll function.lines ++ "\n"

end Function

end Algol68
