import Algol68.Mode
import Algol68.Tag

/-
  The annotated syntax tree.

  Nodes live in a store and are linked by the handles of the first child and of the next sibling.
  Every walk along the links is bounded by the size of the tree, so that a tree whose links lead
  back into themselves gives a fault.
-/

------ Nodes

namespace Algol68

/- What the code generator decided about a node. -/
inductive Marking
  | pending
  | notGenerated
  /- The generated function that replaces the node. -/
  | compiled (function : String)
deriving DecidableEq, Repr, Inhabited

/- Whether nothing was decided yet. -/
def Marking.isPending : Marking → Bool
  | .pending => true
  | _ => false

/-
  A node. The symbol is the text of a denotation, the name of
  an identifier or operator, or a field selector.
-/
structure Node where
  attr : Attribute
  mode : Option ModeId := none
  tag : Option TagId := none
  table : Option TableId := none
  symbol : String := ""
  line : Nat := 0
  sub : Option NodeId := none
  next : Option NodeId := none
  marking : Marking := .pending
deriving DecidableEq, Repr

/- A program after mode checking. -/
structure SyntaxTree where
  nodes : Store NodeEntity Node := {}
  modes : ModeTable := ModeTable.standardTable
  tags : Store TagEntity Tag := {}
  tables : Store TableEntity ScopeTable := {}
  root : Option NodeId := none

------ Reading Nodes

variable (tree : SyntaxTree) (id : NodeId)

namespace SyntaxTree

def node : Walk Node := tree.nodes.fetch id

def attr : Walk Attribute := do
  pure (← tree.node id).attr

def is (attr : Attribute) : Walk Bool := do
  pure ((← tree.node id).attr == attr)

def mode? : Walk (Option ModeId) := do
  pure (← tree.node id).mode

def sub? : Walk (Option NodeId) := do
  pure (← tree.node id).sub

def tag? : Walk (Option Tag) := do
  match (← tree.node id).tag with
  | some tag => pure (some (← tree.tags.fetch tag))
  | none => pure none

def table? : Walk (Option ScopeTable) := do
  match (← tree.node id).table with
  | some table => pure (some (← tree.tables.fetch table))
  | none => pure none

/- The builtin an operator or procedure is bound to. -/
def builtin? : Walk (Option Builtin) := do
  match ← tree.tag? id with
  | some tag => pure tag.builtin
  | none => pure none

/- The categories of operands, if all have one. -/
def operandPrims? (tree : SyntaxTree) : List NodeId → Walk (Option (List Prim))
  | [] => pure (some [])
  | operand :: rest => do
    let some mode ← tree.mode? operand | pure none
    let some prim ← tree.modes.prim? mode | pure none
    let some prims ← tree.operandPrims? rest | pure none
    pure (some (prim :: prims))

def violation {α : Type} (tree : SyntaxTree) (id : NodeId) (invariant : Invariant) : Walk α := do
  let node ← tree.node id
  throw (.broken node.line node.attr id invariant)

------ Following Links

/-
  A bound on the length of every walk: without a cycle each walk visits a node at most once for
  each tag that is being expanded, and once more.
-/
def bound : Nat := (tree.nodes.size + 1) * (tree.tags.size + 1)

/- A node and its following siblings, at most `fuel` of them. -/
def siblingsWithin (tree : SyntaxTree) : Nat → Option NodeId → Walk (List NodeId)
  | _, none => pure []
  | 0, some _ => throw .unbounded
  | fuel + 1, some id => do
    let node ← tree.node id
    let rest ← tree.siblingsWithin fuel node.next
    pure (id :: rest)

def siblings : Walk (List NodeId) := tree.siblingsWithin tree.bound (some id)

def children : Walk (List NodeId) := do
  tree.siblingsWithin tree.bound (← tree.sub? id)

def firstSiblings (tree : SyntaxTree) : Nat → Option NodeId → Walk (List NodeId)
  | 0, _ => pure []
  | _ + 1, none => pure []
  | count + 1, some id => do
    let node ← tree.node id
    let rest ← tree.firstSiblings count node.next
    pure (id :: rest)

/- The first `count` children of a node. Siblings behind them are not looked at. -/
def firstChildren (count : Nat) : Walk (List NodeId) := do
  tree.firstSiblings count (← tree.sub? id)

def child? (position : Nat) : Walk (Option NodeId) := do
  pure (← tree.firstChildren id (position + 1))[position]?

def anySibling (tree : SyntaxTree) (test : NodeId → Node → Walk Bool) :
    Nat → Option NodeId → Walk Bool
  | _, none => pure false
  | 0, some _ => throw .unbounded
  | fuel + 1, some id => do
    let node ← tree.node id
    if ← test id node then pure true else tree.anySibling test fuel node.next

def findSibling? (tree : SyntaxTree) (attr : Attribute) : Nat → Option NodeId → Walk (Option NodeId)
  | _, none => pure none
  | 0, some _ => throw .unbounded
  | fuel + 1, some id => do
    let node ← tree.node id
    if node.attr = attr then pure (some id) else tree.findSibling? attr fuel node.next

def findChild? (attr : Attribute) : Walk (Option NodeId) := do
  tree.findSibling? attr tree.bound (← tree.sub? id)

------ Markings

def markings : Array Marking := tree.nodes.entries.map Node.marking

def withMarkings (markings : Array Marking) : SyntaxTree :=
  { tree with
    nodes := ⟨tree.nodes.entries.mapIdx fun i node =>
      { node with marking := markings[i]?.getD node.marking }⟩ }

end SyntaxTree

end Algol68
