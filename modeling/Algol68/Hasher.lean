/-
  Hashers.

  A hasher is fed numbers and texts one after the other, and
  gives a number of 64 bits in the end. What it does with them
  is left open.
-/

------ Pieces

namespace Algol68

/- A piece of what a hasher is fed. -/
inductive Piece
  /- A number of some bits. -/
  | number (width value : Nat)
  | text (content : String)
deriving DecidableEq, Repr

------ Hashers

structure Hasher where
  init : UInt64
  write : UInt64 → Piece → UInt64
  finish : UInt64 → UInt64

/- A hasher that tells nothing apart. -/
instance : Inhabited Hasher where
  default := { init := 0, write := fun state _ => state, finish := id }

def Hasher.hash (hasher : Hasher) (pieces : List Piece) : UInt64 :=
  hasher.finish (pieces.foldl hasher.write hasher.init)

end Algol68
