import Algol68.Tree.Structure

/-
  Temporaries that are shared within a function.

  Each address that a function has a temporary for is booked, so that an equal address later in
  the function finds the temporary again instead of computing it twice.
-/

------ Phases

namespace Algol68

/- The passes over a unit, in order. -/
inductive Phase
  /- Name the temporaries. -/
  | declare
  /- Write the statements that compute them. -/
  | execute
  /- Give the expression for the value. -/
  | yield
deriving DecidableEq, Repr, Inhabited

namespace Phase

/- The position of a phase among the passes. -/
def rank : Phase → Nat
  | .declare => 0
  | .execute => 1
  | .yield => 2

/- Whether a phase is another one or comes after it. -/
def isFrom (phase earliest : Phase) : Bool := decide (earliest.rank ≤ phase.rank)

end Phase

/- What a temporary points to. -/
inductive Action
  /- The slot of an identifier. -/
  | fetch
  /- The object an identifier refers to. -/
  | deref
  /- An element of a row. -/
  | slice
  /- A field of a structure. -/
  | selection
deriving DecidableEq, Repr, Inhabited

------ Payloads

/- A fragment with what a hasher is fed for it. -/
structure Payload where
  node : NodeId
  pieces : List Piece
deriving DecidableEq, Repr

variable (hasher : Hasher) (tree : SyntaxTree)

namespace Payload

def ofNode (node : NodeId) : Walk Payload := do
  pure { node := node, pieces := ← tree.pieces node }

/- Whether two payloads are equal fragments. Fingerprints are compared first. -/
def isSame (left right : Payload) : Walk Bool :=
  if hasher.hash left.pieces = hasher.hash right.pieces then
    tree.sameStructure left.node right.node
  else pure false

/- Whether payloads are equal, or both are absent. -/
def areSame : Option Payload → Option Payload → Walk Bool
  | none, none => pure true
  | some left, some right => isSame hasher tree left right
  | _, _ => pure false

end Payload

------ Bookings

/-
  What is looked for: an action on the name of an identifier,
  with the indexer or selector if there is one.
-/
structure Address where
  action : Action
  name : String
  payload : Option Payload := none
deriving DecidableEq, Repr

/- An address, how far it got, and the owner of its temporary. -/
structure Booking where
  address : Address
  phase : Phase
  owner : NodeId
deriving DecidableEq, Repr

/- The bookings of a function, the earliest first. -/
abbrev Bookings := List Booking

namespace Bookings

def signIn (bookings : Bookings) (address : Address) (phase : Phase) (owner : NodeId) : Bookings :=
  bookings ++ [⟨address, phase, owner⟩]

/- The earliest booking of an equal address that got as far as a phase. -/
def signedIn? (hasher : Hasher) (tree : SyntaxTree) (address : Address) (phase : Phase) :
    Bookings → Walk (Option Booking)
  | [] => pure none
  | booking :: rest => do
    if booking.address.action = address.action ∧ booking.phase.isFrom phase = true ∧
        booking.address.name = address.name then
      if ← Payload.areSame hasher tree booking.address.payload address.payload then
        pure (some booking)
      else signedIn? hasher tree address phase rest
    else signedIn? hasher tree address phase rest

def owner (bookings : Bookings) (address : Address) (node : NodeId) : Walk NodeId := do
  match ← signedIn? hasher tree address .declare bookings with
  | some booking => pure booking.owner
  | none => pure node

end Bookings

end Algol68
