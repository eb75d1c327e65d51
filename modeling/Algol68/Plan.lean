import Algol68.Attribute
import Algol68.Code.Stmt
import Algol68.Fault

/- How the parts of a clause are to be written. -/

------ Items

namespace Algol68

/- How an item of a clause is written. -/
inductive ItemKind
  /- A basic unit, written in place. -/
  | inline
  /- A unit with a function of its own. -/
  | call (function : String)
  /- A declaration, left to the interpreter. -/
  | declaration
  /- A variable of a basic mode, allocated in place. -/
  | allocation
deriving DecidableEq, Repr

def ItemKind.declares : ItemKind → Bool
  | .declaration | .allocation => true
  | _ => false

structure Item where
  site : Site
  kind : ItemKind
deriving DecidableEq, Repr

------ Clauses

/- A serial clause, which may open a frame of its own. -/
structure SerialPlan where
  site : Site
  items : List Item
  opensFrame : Bool
deriving DecidableEq, Repr

namespace SerialPlan

/- Whether the clause does nothing but declare. -/
def onlyDeclares (plan : SerialPlan) : Bool := plan.items.all fun item => item.kind == .declaration

end SerialPlan

/- How the value of a unit chooses between branches. -/
inductive ChoiceKind
  | guarded
  | numbered
deriving DecidableEq, Repr

namespace ChoiceKind

def clause : ChoiceKind → Attribute
  | .guarded => .conditionalClause
  | .numbered => .caseClause

/- The last part of a clause. -/
def last : ChoiceKind → Attribute
  | .guarded => .elsePart
  | .numbered => .outPart

/- A part that goes on with the clause. -/
def more : ChoiceKind → Attribute
  | .guarded => .elifPart
  | .numbered => .ousePart

/- What any other part violates. -/
def tail : ChoiceKind → Invariant
  | .guarded => .conditionalTail
  | .numbered => .caseTail

end ChoiceKind

/- What is chosen by the value of a unit. -/
inductive Branches
  /- A clause behind a guard. -/
  | guarded (yes : SerialPlan)
  /- The alternatives of a case clause. -/
  | numbered (alternatives : List Item)
deriving Repr

namespace Branches

def kind : Branches → ChoiceKind
  | .guarded _ => .guarded
  | .numbered _ => .numbered

def items : Branches → List Item
  | .guarded yes => yes.items
  | .numbered alternatives => alternatives

end Branches

/- A conditional or case clause, or what follows its branches. -/
inductive ChoicePlan
  | nothing
  | otherwise (last : SerialPlan)
  | select (selector : NodeId) (branches : Branches) (rest : ChoicePlan)
deriving Repr

/- A counting loop. An absent bound is one. -/
structure LoopPlan where
  counter : Option TagId
  start : Option NodeId
  step : Option NodeId
  limit : Option NodeId
  downwards : Bool
  body : SerialPlan
  needsInitialisation : Bool
deriving Repr

variable (plan : LoopPlan)

namespace LoopPlan

def bounds : List NodeId := [plan.start, plan.step, plan.limit].filterMap id

def opensFrame : Bool := plan.counter.isSome || plan.needsInitialisation

def header (owner : NodeId) : LoopHeader where
  owner := owner
  hasLimit := plan.limit.isSome
  downwards := plan.downwards

end LoopPlan

end Algol68
