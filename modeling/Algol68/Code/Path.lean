import Algol68.Store

/- How generated code reaches a node of the tree. -/

------ Paths

namespace Algol68

/- A way from the node of a function to another node. -/
inductive Path
  /- The node itself. -/
  | start
  /- The first child. -/
  | sub (path : Path)
  /- The next sibling. -/
  | next (path : Path)
deriving DecidableEq, Repr, Inhabited

namespace Path

def sibling (path : Path) : Nat → Path
  | 0 => path
  | n + 1 => .next (path.sibling n)

def child (path : Path) (n : Nat) : Path := path.sub.sibling n

/- The path in generated code, from a node written `start`. -/
def textFrom (start : String) : Path → String
  | .start => start
  | .sub path => "A68_SUB (" ++ path.textFrom start ++ ")"
  | .next path => "A68_NEXT (" ++ path.textFrom start ++ ")"

/- The path in generated code, from the function's own node. -/
def text (path : Path) : String := path.textFrom "p"

end Path

structure Site where
  node : NodeId
  path : Path
deriving DecidableEq, Repr

/- The path to the node in generated code. -/
def Site.text (site : Site) : String := site.path.text

end Algol68
