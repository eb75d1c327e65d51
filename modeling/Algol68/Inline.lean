import Algol68.Inline.Execute

/- One pass over a unit within a compilation. -/

------ Passes

namespace Algol68

namespace Context

open Inline

/-
  Make one pass over a unit. Only the last one gives a text, that of the expression for the value.
-/
def inlineUnit (tree : SyntaxTree) (id : NodeId) : Phase → Task String
  | .declare => do
    declareUnit tree id
    pure ""
  | .execute => do
    let body ← executeUnit tree id
    modify fun context => context.append (.statements context.depth body)
    pure ""
  | .yield => do
    let value ← yieldUnit tree id
    pure value.text

end Context

end Algol68
