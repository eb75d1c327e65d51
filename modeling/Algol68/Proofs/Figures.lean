import Algol68.Proofs.Orderly

/-
  Figures of fragments.

  A figure is what is left of a fragment when its place in the tree is forgotten. Planting figures
  gives the nodes of a tree, each fragment before the ones behind it.
-/

------ Figures

namespace Algol68

/- A fragment without its place in the tree. -/
inductive Figure
  | mk (attr : Attribute) (symbol : String) (tag : Option TagId) (mode : Option ModeId)
      (parts : List Figure)

namespace Figure

mutual

/- The nodes of a fragment in order, from a number on. -/
def plant (start : Nat) (hasNext : Bool) : Figure → List Node
  | .mk attr symbol tag mode parts =>
      let below := plantAll (start + 1) parts
      { attr, symbol, tag, mode
        sub := if below.isEmpty then none else some ⟨start + 1⟩
        next := if hasNext then some ⟨start + 1 + below.length⟩ else none } :: below

/- The nodes of siblings. -/
def plantAll (start : Nat) : List Figure → List Node
  | [] => []
  | part :: rest =>
    let first := plant start (!rest.isEmpty) part
    first ++ plantAll (start + first.length) rest

end

/- The nodes of fragments that stand apart. -/
def plantApart (start : Nat) : List Figure → List Node
  | [] => []
  | figure :: rest =>
    let first := plant start false figure
    first ++ plantApart (start + first.length) rest

/- All nodes of a tree. -/
def nodes (figures : List Figure) : Store NodeEntity Node := ⟨(plantApart 0 figures).toArray⟩

------ Kinds of Figures

variable (attr : Attribute) (mode : ModeId)

/- A part of a clause, which has no mode. -/
def part (parts : List Figure) : Figure := .mk attr "" none none parts

/- A node of a mode. -/
def unit (parts : List Figure) : Figure := .mk attr "" none (some mode) parts

/- A part that stands for a tag. -/
def tagged (tag : TagId) : Figure := .mk attr "" (some tag) none []

def ident (tag : TagId) : Figure := .mk .identifier "" (some tag) (some mode) []

def denoter (symbol : String) : Figure := .mk .denoter symbol none (some mode) []

/- An integral denotation. -/
def number (symbol : String) : Figure := denoter ⟨1⟩ symbol

/- The value of a variable. -/
def valueOf (reference : ModeId) (tag : TagId) : Figure :=
  unit .dereferencing mode [ident reference tag]

def assign (target : TagId) (source : Figure) : Figure :=
  unit .assignation mode [ident mode target, source]

def voided (figure : Figure) : Figure := unit .voiding ⟨0⟩ [figure]

/- A guard in its part of a conditional clause. -/
def ifPart (guard : Figure) : Figure := part .ifPart [unit .serialClause ⟨3⟩ [guard]]

/- A serial clause in a part of a clause. -/
def branch (items : List Figure) : Figure := part attr [unit .serialClause mode items]

end Figure

end Algol68
