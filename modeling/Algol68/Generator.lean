import Algol68.Planner

/-
  The generators, which turn fragments into functions, and
  the walk that offers them every fragment of a tree.
-/

------ Names

namespace Algol68

variable (tree : SyntaxTree)

namespace Generator

def functionName (id : NodeId) (shape : String) : Walk String := do
  let mode ←
    match ← tree.mode? id with
    | some mode => tree.modes.codeName mode
    | none => pure "void"
  pure ("_" ++ shape ++ "_" ++ mode ++ "_" ++ id.text)

def emit (id : NodeId) (name : String) (writer : Emission.Writer) : Planning String :=
  OptionT.mk (Run.inContext (Context.emitFunction tree id name writer))

/- What must be there for a generator to take a node. -/
def needed {α : Type} (walk : Walk (Option α)) : Planning α := do
  match ← walk with
  | some value => pure value
  | none => failure

/- Decline unless an answer is yes. -/
def ensure (walk : Walk Bool) : Planning Unit := do
  if ← walk then pure () else failure

------ Clauses

variable (visit : NodeId → Generation Unit)

/- A closed or serial clause that does more than declare. -/
def serialClause (id : NodeId) : Planning String := do
  let node ← tree.node id
  let site ←
    match node.attr, node.sub with
    | .closedClause, some serial => pure (⟨serial, Path.start.sub⟩ : Site)
    | .serialClause, _ => pure ⟨id, .start⟩
    | _, _ => failure
  let plan ← Planner.serial tree visit site true
  if plan.onlyDeclares then failure
  let name ← functionName tree id node.attr.shortName
  emit tree id name (Emission.serial tree plan)

def collateralClause (id : NodeId) : Planning String := do
  ensure (tree.is id .collateralClause)
  let mode ← needed (tree.mode? id)
  let name ← functionName tree id "collateral"
  let members ← tree.children id
  if ← tree.modes.isBasicStruct mode then
    let tier ← Planner.currentTier
    ensure (members.allM fun member => tree.isBasic member tier)
    if members.isEmpty then failure
    emit tree id name (Emission.values tree members)
  else
    ensure (tree.modes.isVoid mode)
    if members.isEmpty then failure
    let items ← Planner.statements tree visit (Planner.sitesBelow .start members)
    emit tree id name
      (Emission.serial tree
        { site := ⟨id, .start⟩
          items := items
          opensFrame := false })

def conditionalClause (id : NodeId) : Planning String := do
  ensure (tree.is id .conditionalClause)
  let name ← functionName tree id "conditional"
  if ← tree.isBasicConditional id (← Planner.currentTier) then
    emit tree id name (Emission.value tree id)
  else
    let plan ← Planner.choice tree visit .guarded tree.bound id .start
    emit tree id name (Emission.choice tree plan)

def caseClause (id : NodeId) : Planning String := do
  ensure (tree.is id .caseClause)
  ensure (tree.isBasicCase id (← Planner.currentTier))
  let plan ← Planner.choice tree visit .numbered tree.bound id .start
  let name ← functionName tree id "case"
  emit tree id name (Emission.choice tree plan)

def loopClause (id : NodeId) : Planning String := do
  ensure (tree.is id .loopClause)
  let plan ← Planner.loop tree visit id
  let name ← functionName tree id "loop"
  emit tree id name (Emission.loop tree id plan)

------ Calls, Unions and Units

def hasBasicArguments (tier : Nat) (arguments : List (NodeId × ModeId)) : Walk Bool :=
  arguments.allM fun entry => do
    if (← tree.mode? entry.1) = some entry.2 then
      (tree.modes.isBasicNonRow entry.2).and (tree.isBasic entry.1 tier)
    else pure false

def routineCall (_visit : NodeId → Generation Unit) (id : NodeId) : Planning String := do
  ensure (tree.is id .call)
  let callee ← needed (tree.sub? id)
  let tag ← needed (tree.tag? callee)
  if tag.kind ≠ .procedure then failure
  let routine ← needed (pure tag.body)
  let body ← needed (tree.sub? routine)
  match ← tree.modes.kind tag.mode with
  | .proc params result => do
    let arguments := (← tree.children id).tail
    if arguments.length ≠ params.length then failure
    let arguments := arguments.zip params
    ensure (hasBasicArguments tree (← Planner.currentTier) arguments)
    let name ← functionName tree id "call"
    emit tree id name
      (Emission.routineCall tree id
        { routine := routine
          level := tag.level
          body := body
          arguments := arguments
          result := result })
  | _ => failure

/- A basic value as a value of a union. -/
def uniting (_visit : NodeId → Generation Unit) (id : NodeId) : Planning String := do
  ensure (tree.is id .uniting)
  let union ← needed (tree.mode? id)
  let operand ← needed (tree.sub? id)
  let mode ← needed (tree.mode? operand)
  match ← tree.modes.kind union with
  | .union alternatives => do
    let alternative ← needed (pure (alternatives.idxOf? mode))
    ensure (tree.isBasic operand (← Planner.currentTier))
    let whole ← tree.modes.byteSize union
    let part ← tree.modes.byteSize mode
    let name ← functionName tree id "uniting"
    emit tree id name
      (Emission.injection tree
        { operand := operand
          mode := mode
          alternative := alternative
          padding := whole - (8 + part) })
  | _ => failure

/- A constant denotation or identifier. Equal values of a mode share one function. -/
def constantUnit (_visit : NodeId → Generation Unit) (id : NodeId) : Planning String := do
  let node ← tree.node id
  if node.attr ≠ .denoter ∧ node.attr ≠ .identifier then failure
  let mode ← needed (pure node.mode)
  ensure (tree.modes.isFoldable mode)
  ensure (tree.isConstant id)
  let value ← OptionT.mk (Run.inContext (Context.fold tree id))
  let modeName ← tree.modes.codeName mode
  let name := "_" ++ node.attr.shortName ++ "_" ++ modeName ++ "_" ++ value.key
  let context := (← get).context
  if context.hasName name then pure name
  else
    Run.inContext (modify fun context => context.takeName name)
    let push ← Inline.pushOf tree mode (.constant value)
    emit tree id name (.ofStatements [push])

def basicUnit (_visit : NodeId → Generation Unit) (id : NodeId) : Planning String := do
  ensure (tree.isBasic id (← Planner.currentTier))
  let attr ← tree.attr id
  let name ← functionName tree id attr.shortName
  emit tree id name (Emission.value tree id)

end Generator

------ Generators

/- A generator is tried from a tier on. It gives the name of the function of a node, or declines. -/
structure Generator where
  tier : Nat
  shape : String
  attempt : SyntaxTree → (NodeId → Generation Unit) → NodeId → Planning String

namespace Generator

/- All generators in the order they are tried. -/
def table : List Generator :=
  [⟨Tier.clauses, "serial", serialClause⟩,
   ⟨Tier.clauses, "collateral", collateralClause⟩,
   ⟨Tier.clauses, "conditional", conditionalClause⟩,
   ⟨Tier.clauses, "case", caseClause⟩,
   ⟨Tier.clauses, "loop", loopClause⟩,
   ⟨Tier.clauses, "call", routineCall⟩,
   ⟨Tier.indexing, "uniting", uniting⟩,
   ⟨Tier.units, "constant", constantUnit⟩,
   ⟨Tier.units, "unit", basicUnit⟩]

/- Try generators in order. One that meets a problem gives the node up for all that follow. -/
def tryInOrder (tree : SyntaxTree) (visit : NodeId → Generation Unit) (id : NodeId) :
    List Generator → Generation (Option String)
  | [] => pure none
  | generator :: rest => do
    let errors := (← get).context.errorCount
    match ← (generator.attempt tree visit id).run with
    | some name => pure (some name)
    | none => do
      if errors < (← get).context.errorCount then pure none else tryInOrder tree visit id rest

def generateWith (visit : NodeId → Generation Unit) (id : NodeId) : Generation (Option String) := do
  let tier ← Planner.currentTier
  tryInOrder tree visit id (table.filter fun generator => decide (generator.tier ≤ tier))

------ The Walk

/-
  Decide about a pending node, where `visit` decides about others. Fragments below a node without
  a function are visited, unless the node was given up for a problem.
-/
def visitNode (visit : NodeId → Generation Unit) (id : NodeId) : Generation Unit := do
  let run ← get
  let marking ← run.marking id
  if marking.isPending then
    let errors := run.context.errorCount
    match ← generateWith tree visit id with
    | some name =>
      modify fun run =>
        { run with
          context := run.context.recordCompiled id name }.mark id (.compiled name)
    | none => do
      modify fun run => run.mark id .notGenerated
      if (← get).context.errorCount ≤ errors then
        Planner.visitSiblings tree visit tree.bound (← tree.sub? id)

/- Decide about nodes at most `fuel` levels below another. -/
def visitWithin (tree : SyntaxTree) : Nat → NodeId → Generation Unit
  | 0, _ => throw .unbounded
  | fuel + 1, id => visitNode tree (visitWithin tree fuel) id

/- Decide about a node and what is below it. -/
def visitUnit (id : NodeId) : Generation Unit := visitWithin tree tree.bound id

/- Decide about a node and its following siblings. -/
def visit (id : NodeId) : Generation Unit :=
  Planner.visitSiblings tree (visitUnit tree) tree.bound (some id)

def atTier (tier : Nat) : Generation Unit :=
  modify fun run => { run with context := { run.context with tier := tier } }

/- The pass of the lowest level: units only. -/
def visitUnitsOnly (root : NodeId) : Generation Unit := do
  atTier Tier.units
  visit tree root

def visitAll (root : NodeId) : Generation Unit := do
  atTier (← get).context.options.tier
  visit tree root

/- The function of a node, made at the current tier. -/
def generate (id : NodeId) : Generation (Option String) := generateWith tree (visitUnit tree) id

end Generator

end Algol68
