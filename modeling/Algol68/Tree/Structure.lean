import Algol68.Hasher
import Algol68.Tree

/-
  Structural equality of fragments.

  Two fragments are equal when their nodes agree in attribute, symbol, tag and mode, and their
  children are pairwise equal. A fingerprint of 64 bits tells most unequal fragments apart without
  comparing them.
-/

------ Equality

namespace Algol68

/- Whether two nodes agree, their children aside. -/
def Node.agrees (left right : Node) : Bool :=
  left.attr == right.attr && left.symbol == right.symbol &&
    left.tag == right.tag && left.mode == right.mode

variable (tree : SyntaxTree)

namespace SyntaxTree

/-
  Whether two lists of siblings are pairwise equal, where `same` compares two nodes. The lists are
  walked in step and only as far as they agree.
-/
def sameSiblings (tree : SyntaxTree) (same : NodeId → NodeId → Walk Bool) :
    Nat → Option NodeId → Option NodeId → Walk Bool
  | 0, _, _ => throw .unbounded
  | _ + 1, none, none => pure true
  | _ + 1, none, some right => do
    let _ ← tree.node right
    pure false
  | _ + 1, some left, none => do
    let _ ← tree.node left
    pure false
  | fuel + 1, some left, some right => do
    let leftNode ← tree.node left
    let rightNode ← tree.node right
    if ← same left right then tree.sameSiblings same fuel leftNode.next rightNode.next
    else pure false

/- Equality of fragments at most `fuel` levels deep. -/
def sameStructureWithin (tree : SyntaxTree) : Nat → NodeId → NodeId → Walk Bool
  | 0, _, _ => throw .unbounded
  | fuel + 1, left, right => do
    if left = right then pure true
    else
      let leftNode ← tree.node left
      let rightNode ← tree.node right
      if leftNode.agrees rightNode then
        tree.sameSiblings (tree.sameStructureWithin fuel) tree.bound leftNode.sub rightNode.sub
      else pure false

/- Whether two fragments are equal. -/
def sameStructure (left right : NodeId) : Walk Bool :=
  tree.sameStructureWithin tree.bound left right

end SyntaxTree

------ Fingerprints

/- What a hasher is fed for a handle that may be absent. -/
def Handle.pieces {entity : Type} : Option (Handle entity) → List Piece
  | none => [.number 64 0]
  | some handle => [.number 64 1, .number 32 handle.number]

/- What a hasher is fed for a node, its children aside. -/
def Node.pieces (node : Node) : List Piece :=
  .number 64 node.attr.ctorIdx :: .text node.symbol :: .number 8 255 ::
    (Handle.pieces node.tag ++ Handle.pieces node.mode)

namespace SyntaxTree

/- What a hasher is fed for a fragment at most `fuel` levels deep. -/
def piecesWithin (tree : SyntaxTree) : Nat → NodeId → Walk (List Piece)
  | 0, _ => throw .unbounded
  | fuel + 1, id => do
    let node ← tree.node id
    let children ← tree.children id
    let inner ← children.mapM (tree.piecesWithin fuel)
    pure (node.pieces ++ .number 64 children.length :: inner.flatten)

def pieces (id : NodeId) : Walk (List Piece) := tree.piecesWithin tree.bound id

/- A number that equal fragments share. -/
def fingerprint (hasher : Hasher) (id : NodeId) : Walk UInt64 := do
  pure (hasher.hash (← tree.pieces id))

end SyntaxTree

end Algol68
