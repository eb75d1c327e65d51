import Algol68.Emission

/-
  Planning of clauses.

  An item that cannot be written in place needs a function of its own, so that planning a clause
  may generate functions. A clause with an item that stays interpreted is declined.
-/

------ Runs

namespace Algol68

/- A compilation and what it decided about the nodes. -/
structure Run where
  context : Context
  markings : Array Marking

/- A step that generates functions. -/
abbrev Generation (α : Type) := StateT Run Walk α

/- A step that may decline. -/
abbrev Planning (α : Type) := OptionT (StateT Run Walk) α

namespace Run

/- Take a step of the compilation. -/
def inContext {α : Type} (task : Context.Task α) : Generation α := do
  let run ← get
  let (result, context) ← task.run run.context
  set { run with context := context }
  pure result

def marking (run : Run) (id : NodeId) : Walk Marking :=
  match run.markings[id.number]? with
  | some marking => pure marking
  | none => throw .dangling

def mark (run : Run) (id : NodeId) (marking : Marking) : Run :=
  { run with
    markings := run.markings.setIfInBounds id.number marking }

end Run

------ Siblings

variable (tree : SyntaxTree) (visit : NodeId → Generation Unit)

namespace Planner

def visitSiblings (tree : SyntaxTree) (visit : NodeId → Generation Unit) :
    Nat → Option NodeId → Generation Unit
  | _, none => pure ()
  | 0, some _ => throw .unbounded
  | fuel + 1, some id => do
    visit id
    let node ← tree.node id
    visitSiblings tree visit fuel node.next

/- A plan that would never end. -/
def endless {α : Type} : Planning α := OptionT.lift (throw Fault.unbounded)

def currentTier : Generation Nat := do
  pure (← get).context.tier

------ Items

/- Whether a variable can be allocated in place. -/
def isAllocation (id : NodeId) (tier : Nat) : Walk Bool := do
  match ← tree.tag? id with
  | none => pure false
  | some tag =>
    (Walk.holdsOf (← tree.modes.deref? tag.mode) tree.modes.isBasicNonRow).and do
        match ← tree.sub? id with
        | some init => tree.isBasic init tier
        | none => pure true

/-
  How an item is written. The units of a declaration that is left to the interpreter are visited,
  and a unit that is not basic must get a function.
-/
def itemKind (id : NodeId) : Planning ItemKind := do
  let tier ← currentTier
  let attr ← tree.attr id
  let isAllocated ←
    if attr = .variableDeclaration then isAllocation tree id tier else pure false
  if isAllocated then pure .allocation
  else if attr.isDeclaration then
    match ← tree.sub? id with
    | some first => visitSiblings tree visit tree.bound (some first)
    | none => pure ()
    pure .declaration
  else if ← tree.isBasic id tier then pure .inline
  else
    visit id
    match ← (← get).marking id with
    | .compiled function => pure (.call function)
    | _ => failure

def item (site : Site) : Planning Item := do
  let kind ← itemKind tree visit site.node
  pure { site, kind }

def statements (tree : SyntaxTree) (visit : NodeId → Generation Unit) :
    List Site → Planning (List Item)
  | [] => pure []
  | site :: rest => do
    let first ← item tree visit site
    if first.kind.declares then failure
    else
      let others ← statements tree visit rest
      pure (first :: others)

def sitesBelow (path : Path) (children : List NodeId) : List Site :=
  children.zipIdx.map fun entry => { node := entry.1, path := path.child entry.2 }

------ Clauses

def serial (site : Site) (mayOpenFrame : Bool) : Planning SerialPlan := do
  if (← tree.attr site.node) ≠ .serialClause then failure
  if ← tree.hasLabels site.node then failure
  let children ← tree.children site.node
  if children.isEmpty then failure
  let items ← (sitesBelow site.path children).mapM (item tree visit)
  let opensFrame ←
    if mayOpenFrame then do
      match ← tree.table? site.node with
      | some table => pure table.needsInitialisation
      | none => pure false
    else pure false
  pure { site, items, opensFrame }

def selectorUnit (serial : NodeId) (mode : ModeId) : Planning NodeId := do
  if (← tree.mode? serial) ≠ some mode then failure
  if ← tree.isBasicSerial serial (← currentTier) then
    match ← tree.sub? serial with
    | some unit => pure unit
    | none => failure
  else failure

def partSerial (part : NodeId) (path : Path) : Planning SerialPlan := do
  match ← tree.sub? part with
  | some id => serial tree visit ⟨id, path.sub⟩ true
  | none => failure

def givesNothing (id : NodeId) : Walk Bool := do
  match ← tree.mode? id with
  | some mode => tree.modes.isVoid mode
  | none => pure true

def guardAndBranch (id : NodeId) (path : Path) : Planning (NodeId × Branches) := do
  match ← tree.firstChildren id 2 with
  | [ifPart, thenPart] => do
    let guardPart ← tree.node ifPart
    if guardPart.attr ≠ .ifPart ∨ (← tree.attr thenPart) ≠ .thenPart then
      tree.violation id .conditionalPartsOrder
    match guardPart.sub with
    | none => tree.violation id .noGuard
    | some guardSerial => do
      let guard ← selectorUnit tree guardSerial tree.modes.standard.bool
      let yes ← partSerial tree visit thenPart (path.child 1)
      pure (guard, .guarded yes)
  | _ => tree.violation id .noConditionalParts

def selectorAndArms (id : NodeId) (path : Path) : Planning (NodeId × Branches) := do
  match ← tree.firstChildren id 2 with
  | [casePart, inPart] => do
    match ← tree.sub? casePart with
    | none => failure
    | some selectorSerial => do
      let selector ← selectorUnit tree selectorSerial tree.modes.standard.int
      let children ← tree.children inPart
      let arms ← statements tree visit (sitesBelow (path.child 1) children)
      pure (selector, .numbered arms)
  | _ => tree.violation id .noCaseParts

def branchesOf : ChoiceKind → NodeId → Path → Planning (NodeId × Branches)
  | .guarded => guardAndBranch tree visit
  | .numbered => selectorAndArms tree visit

/- A clause of at most `fuel` continuations. One that gives a value needs a last part. -/
def choice (tree : SyntaxTree) (visit : NodeId → Generation Unit) (kind : ChoiceKind) :
    Nat → NodeId → Path → Planning ChoicePlan
  | 0, _, _ => endless
  | fuel + 1, id, path => do
    let (selector, branches) ← branchesOf tree visit kind id path
    match ← tree.child? id 2 with
    | some part => do
      let attr ← tree.attr part
      if attr = kind.last then
        let last ← partSerial tree visit part (path.child 2)
        pure (.select selector branches (.otherwise last))
      else if attr = kind.more then
        let rest ← choice tree visit kind fuel part (path.child 2)
        pure (.select selector branches rest)
      else tree.violation id kind.tail
    | none => do
      if ← givesNothing tree id then pure (.select selector branches .nothing) else failure

------ Loops

structure LoopOutline where
  counter : Option TagId := none
  start : Option NodeId := none
  step : Option NodeId := none
  limit : Option NodeId := none
  downwards : Bool := false
  /- The serial clause of the body and the part it stands in. -/
  body : Option (NodeId × Nat) := none

def LoopOutline.bounds (outline : LoopOutline) : List NodeId :=
  [outline.start, outline.step, outline.limit].filterMap id

/-
  The parts of a loop clause from the part at a position on.
  A loop with a condition of its own is declined.
-/
def loopOutline (tree : SyntaxTree) : Nat → Nat → LoopOutline → Option NodeId → Planning LoopOutline
  | _, _, outline, none => pure outline
  | 0, _, _, some _ => endless
  | fuel + 1, position, outline, some part => do
    let node ← tree.node part
    let go (outline : LoopOutline) := loopOutline tree fuel (position + 1) outline node.next
    match node.attr with
    | .forPart => go { outline with counter := node.tag }
    | .fromPart => go { outline with start := node.sub }
    | .byPart => go { outline with step := node.sub }
    | .toPart => go { outline with limit := node.sub }
    | .downtoPart => go { outline with limit := node.sub, downwards := true }
    | .doPart =>
      go
        { outline with
          body := node.sub.map fun id => (id, position) }
    | .whilePart | .untilPart => failure
    | _ => tree.violation part .loopPart

def hasBasicBounds (tier : Nat) (outline : LoopOutline) : Walk Bool :=
  outline.bounds.allM fun bound => do
    if (← tree.mode? bound) = some tree.modes.standard.int then tree.isBasic bound tier
    else pure false

def loop (id : NodeId) : Planning LoopPlan := do
  let outline ← loopOutline tree tree.bound 0 {} (← tree.sub? id)
  if ← hasBasicBounds tree (← currentTier) outline then
    match outline.body with
    | none => tree.violation id .noDoPart
    | some (bodySerial, position) => do
      let needsInitialisation ←
        match ← tree.table? bodySerial with
        | some table => pure table.needsInitialisation
        | none => pure false
      let path := (Path.start.child position).sub
      let body ← serial tree visit ⟨bodySerial, path⟩ false
      pure
        { counter := outline.counter
          start := outline.start
          step := outline.step
          limit := outline.limit
          downwards := outline.downwards
          body := body
          needsInitialisation := needsInitialisation }
  else failure

end Planner

end Algol68
