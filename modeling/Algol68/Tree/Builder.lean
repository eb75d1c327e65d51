import Algol68.Tree
import Algol68.Mode.Layout

/-
  Construction of annotated trees.

  Every node that a builder returns carries its mode, every identifier is bound to a tag, and
  every declaration has its place in the frame of the innermost open scope.
-/

------ Builders

namespace Algol68

/-
  A tree under construction. The innermost open scope stands apart from the scopes around it, and
  line numbers go to the nodes that are added from now on.
-/
structure TreeBuilder where
  tree : SyntaxTree
  scope : TableId
  outerScopes : List TableId := []
  standardTags : List (Builtin × TagId) := []
  line : Nat := 1

namespace TreeBuilder

/- A builder with nothing but the outermost scope. -/
def empty : TreeBuilder where
  tree := { tables := Store.push {} {} }
  scope := ⟨0⟩

/- A step of a construction. -/
abbrev Build (α : Type) := StateT TreeBuilder Walk α

def modifyTree (change : SyntaxTree → SyntaxTree) : Build Unit :=
  modify fun builder => { builder with tree := change builder.tree }

def modifyNode (id : NodeId) (change : Node → Node) : Build Unit := do
  let nodes ← (← get).tree.nodes.modify id change
  modifyTree fun tree => { tree with nodes := nodes }

def modifyTag (id : TagId) (change : Tag → Tag) : Build Unit := do
  let tags ← (← get).tree.tags.modify id change
  modifyTree fun tree => { tree with tags := tags }

def modifyTable (id : TableId) (change : ScopeTable → ScopeTable) : Build Unit := do
  let tables ← (← get).tree.tables.modify id change
  modifyTree fun tree => { tree with tables := tables }

def modes : Build ModeTable := do
  pure (← get).tree.modes

/- Number the lines of the nodes to come. -/
def setLine (line : Nat) : Build Unit := modify fun builder => { builder with line := line }

------ Modes

def intern (kind : ModeKind) : Build ModeId := do
  let (mode, modes) := (← modes).intern kind
  modifyTree fun tree => { tree with modes := modes }
  pure mode

def reference (target : ModeId) : Build ModeId := intern (.ref target)

def modeOf (id : NodeId) : Build ModeId := do
  let builder ← get
  let node ← builder.tree.node id
  pure (node.mode.getD builder.tree.modes.standard.void)

------ Nodes

def linkSiblings : List NodeId → Build Unit
  | [] => pure ()
  | [last] => modifyNode last fun node => { node with next := none }
  | first :: second :: rest => do
    modifyNode first fun node => { node with next := some second }
    linkSiblings (second :: rest)

def pushNode (node : Node) : Build NodeId := do
  let builder ← get
  set { builder with
    tree :=
      { builder.tree with
        nodes := builder.tree.nodes.push node } }
  pure builder.tree.nodes.nextHandle

def addNode (attr : Attribute) (mode : Option ModeId) (children : List NodeId)
    (symbol : String := "") (tag : Option TagId := none) : Build NodeId := do
  linkSiblings children
  pushNode
    { attr := attr
      mode := mode
      tag := tag
      symbol := symbol
      line := (← get).line
      sub := children.head? }

def addScopeNode (attr : Attribute) (mode : Option ModeId) (children : List NodeId)
    (table : TableId) : Build NodeId := do
  let id ← addNode attr mode children
  modifyNode id fun node => { node with table := some table }
  pure id

------ Scopes

/- Open a scope one level deeper; declarations land in it until it is closed. -/
def openScope : Build TableId := do
  let builder ← get
  let parent ← builder.tree.tables.fetch builder.scope
  let table : ScopeTable :=
    { level := parent.level + 1
      parent := some builder.scope }
  let id := builder.tree.tables.nextHandle
  set { builder with
    tree :=
      { builder.tree with
        tables := builder.tree.tables.push table }
    scope := id
    outerScopes := builder.scope :: builder.outerScopes }
  pure id

/- Close the innermost scope and give its table. The outermost scope stays open. -/
def closeScope : Build TableId := do
  let builder ← get
  match builder.outerScopes with
  | [] => pure ()
  | outer :: rest => set { builder with scope := outer, outerScopes := rest }
  pure builder.scope

def reserve (mode : ModeId) : Build Unit := do
  let builder ← get
  let size ← builder.tree.modes.byteSize mode
  modifyTable builder.scope fun table =>
    { table with frameIncrement := table.frameIncrement + size }

def pushTag (tag : Tag) : Build TagId := do
  let builder ← get
  set { builder with
    tree :=
      { builder.tree with
        tags := builder.tree.tags.push tag } }
  pure builder.tree.tags.nextHandle

/-
  Add a tag at the end of the innermost frame, with room for
  a value of the frame mode if there is one.
-/
def declareTag (name : String) (mode : ModeId) (kind : TagKind)
    (frameMode : Option ModeId) : Build TagId := do
  let builder ← get
  let table ← builder.tree.tables.fetch builder.scope
  match frameMode with
  | some frameMode => reserve frameMode
  | none => pure ()
  pushTag
    { name := name
      mode := mode
      kind := kind
      level := table.level
      offset := table.frameIncrement }

/- The mode of a builtin: a constant's value, or a procedure. -/
def builtinMode (builtin : Builtin) : Build ModeId := do
  let standard := (← modes).standard
  let signature := builtin.signature
  let result := standard.ofPrim signature.result
  if signature.params.isEmpty && builtin != .random then pure result
  else intern (.proc (signature.params.map standard.ofPrim) result)

def standardTag (builtin : Builtin) : Build TagId := do
  match (← get).standardTags.lookup builtin with
  | some tag => pure tag
  | none => do
    let mode ← builtinMode builtin
    let tag ← pushTag
      { name := builtin.name
        mode := mode
        kind := .standard
        builtin := some builtin }
    modify fun builder =>
      { builder with
        standardTags := (builtin, tag) :: builder.standardTags }
    pure tag

------ Declarations

def identityDeclaration (name : String) (mode : ModeId)
    (source : NodeId) : Build (NodeId × TagId) := do
  let tag ← declareTag name mode .identifier (some mode)
  let declaration ← addNode .identityDeclaration (some mode) [source] name (some tag)
  modifyTag tag fun entry =>
    { entry with
      definingNode := some declaration
      value := some source }
  pure (declaration, tag)

/-
  Declare a variable. Its tag has the mode of a reference and
  the frame has room for the reference and for its object.
-/
def variableDeclaration (name : String) (mode : ModeId)
    (init : Option NodeId) : Build (NodeId × TagId) := do
  let refMode ← reference mode
  let tag ← declareTag name refMode .var (some refMode)
  reserve mode
  let declaration ← addNode .variableDeclaration (some refMode) init.toList name (some tag)
  modifyTag tag fun entry => { entry with definingNode := some declaration }
  pure (declaration, tag)

def procedureDeclaration (name : String) (routine : NodeId) : Build (NodeId × TagId) := do
  let mode ← modeOf routine
  let tag ← declareTag name mode .procedure (some mode)
  let declaration ← addNode .procedureDeclaration (some mode) [routine] name (some tag)
  modifyTable (← get).scope fun table => { table with hasRoutines := true }
  modifyTag tag fun entry =>
    { entry with
      definingNode := some declaration
      body := some routine }
  pure (declaration, tag)

/- Declare a mode, a priority or an operator. -/
def otherDeclaration (attr : Attribute) (name : String) : Build NodeId := addNode attr none [] name

def parameter (name : String) (mode : ModeId) : Build TagId :=
  declareTag name mode .parameter (some mode)

def loopCounter (name : String) : Build TagId := do
  let int := (← modes).standard.int
  declareTag name int .identifier (some int)

def operatorTag (name : String) (mode : ModeId) : Build TagId := declareTag name mode .operator none

def label (name : String) : Build (NodeId × TagId) := do
  let tag ← declareTag name (← modes).standard.void .label none
  let id ← addNode .label none [] name (some tag)
  modifyTag tag fun entry => { entry with definingNode := some id }
  pure (id, tag)

------ Units

def denoter (text : String) (mode : ModeId) : Build NodeId := addNode .denoter (some mode) [] text

def occurrence (attr : Attribute) (tag : TagId) : Build NodeId := do
  let entry ← (← get).tree.tags.fetch tag
  addNode attr (some entry.mode) [] entry.name (some tag)

def identifier (tag : TagId) : Build NodeId := occurrence .identifier tag

def standard (builtin : Builtin) : Build NodeId := do
  identifier (← standardTag builtin)

def jump (label : TagId) : Build NodeId := do
  let entry ← (← get).tree.tags.fetch label
  addNode .jump none [] entry.name (some label)

def dereference (operand : NodeId) : Build NodeId := do
  let mode ← modeOf operand
  let target ← (← modes).deref? mode
  addNode .dereferencing (some (target.getD mode)) [operand]

def deprocedure (operand : NodeId) : Build NodeId := do
  let mode ← modeOf operand
  let result :=
    match ← (← modes).kind mode with
    | .proc _ result => result
    | _ => mode
  addNode .deproceduring (some result) [operand]

def resultMode (builtin : Builtin) : Build ModeId := do
  pure ((← modes).standard.ofPrim builtin.signature.result)

def userFormula (left : NodeId) (operator : TagId) (right : NodeId)
    (mode : ModeId) : Build NodeId := do
  let operator ← occurrence .operator operator
  addNode .formula (some mode) [left, operator, right]

def formula (left : NodeId) (builtin : Builtin) (right : NodeId) : Build NodeId := do
  let tag ← standardTag builtin
  userFormula left tag right (← resultMode builtin)

def monadic (builtin : Builtin) (operand : NodeId) : Build NodeId := do
  let tag ← standardTag builtin
  let operator ← occurrence .operator tag
  addNode .monadicFormula (some (← resultMode builtin)) [operator, operand]

def call (callee : NodeId) (arguments : List NodeId) (mode : ModeId) : Build NodeId :=
  addNode .call (some mode) (callee :: arguments)

def callBuiltin (builtin : Builtin) (arguments : List NodeId) : Build NodeId := do
  let callee ← standard builtin
  call callee arguments (← resultMode builtin)

def slice (primary : NodeId) (indices : List NodeId) : Build NodeId := do
  let indexer ← addNode .indexer none indices
  let mode ← modeOf primary
  let modes ← modes
  let element := (← modes.rowElement? mode).getD mode
  let result ←
    if (← modes.deref? mode).isSome then reference element else pure element
  addNode .slice (some result) [primary, indexer]

/- The whole of a row, trimmed at neither end. -/
def trimmedSlice (primary : NodeId) : Build NodeId := do
  let trimmer ← addNode .trimmer none []
  let indexer ← addNode .indexer none [trimmer]
  let mode ← modeOf primary
  addNode .slice (some mode) [primary, indexer]

/-
  A field of a structure. A field of a structure that is
  referred to is a reference; an absent field is void.
-/
def selection (field : String) (secondary : NodeId) : Build NodeId := do
  let mode ← modeOf secondary
  let modes ← modes
  let target ← modes.deref? mode
  let found ← modes.field? (target.getD mode) field
  let fieldMode := (found.map Prod.snd).getD modes.standard.void
  let result ←
    if target.isSome then reference fieldMode else pure fieldMode
  let selector ← addNode .selector (some fieldMode) [] field
  addNode .selection (some result) [selector, secondary]

def cast (mode : ModeId) (operand : NodeId) : Build NodeId := addNode .cast (some mode) [operand]

def widen (operand : NodeId) (mode : ModeId) : Build NodeId :=
  addNode .widening (some mode) [operand]

/- A unit whose value is dropped. -/
def void (operand : NodeId) : Build NodeId := do
  let void := (← modes).standard.void
  addNode .voiding (some void) [operand]

def unite (operand : NodeId) (mode : ModeId) : Build NodeId :=
  addNode .uniting (some mode) [operand]

def assign (destination source : NodeId) : Build NodeId := do
  let mode ← modeOf destination
  addNode .assignation (some mode) [destination, source]

/- A comparison of two references. -/
def identityRelation (left : NodeId) (same : Bool) (right : NodeId) : Build NodeId := do
  let operator ← addNode (if same then .is else .isnt) none []
  let bool := (← modes).standard.bool
  addNode .identityRelation (some bool) [left, operator, right]

def nil (mode : ModeId) : Build NodeId := addNode .nihil (some mode) []

def skip (mode : ModeId) : Build NodeId := addNode .skip (some mode) []

def generator (mode : ModeId) : Build NodeId := do
  let refMode ← reference mode
  addNode .generator (some refMode) []

end TreeBuilder

------ Clauses

/- How a conditional clause goes on. -/
inductive ConditionalTail
  | otherwise (serial : NodeId)
  | elif (part : NodeId)
deriving DecidableEq, Repr

/- How a case clause goes on. -/
inductive CaseTail
  | out (serial : NodeId)
  | ouse (part : NodeId)
deriving DecidableEq, Repr

/- The parts of a loop clause, all of them optional. -/
structure LoopParts where
  counter : Option TagId := none
  start : Option NodeId := none
  step : Option NodeId := none
  upper : Option NodeId := none
  lower : Option NodeId := none
  guard : Option NodeId := none
  body : Option NodeId := none
  stop : Option NodeId := none
deriving DecidableEq, Repr

namespace TreeBuilder

def collateral (units : List NodeId) (mode : ModeId) : Build NodeId :=
  addNode .collateralClause (some mode) units

def serial (items : List NodeId) : Build NodeId := do
  let table ← closeScope
  let mode ← items.getLast?.mapM modeOf
  addScopeNode .serialClause mode items table

def closed (serial : NodeId) : Build NodeId := do
  let mode ← modeOf serial
  addNode .closedClause (some mode) [serial]

/- The part of a clause that a serial clause gives its mode. -/
def addPart (attr : Attribute) (serial : NodeId) : Build NodeId := do
  let mode ← modeOf serial
  addNode attr (some mode) [serial]

def conditionalParts (guard consequent : NodeId)
    (tail : Option ConditionalTail) : Build (List NodeId) := do
  let ifPart ← addNode .ifPart none [guard]
  let thenPart ← addPart .thenPart consequent
  match tail with
  | some (.otherwise serial) => do
    let elsePart ← addPart .elsePart serial
    pure [ifPart, thenPart, elsePart]
  | some (.elif part) => pure [ifPart, thenPart, part]
  | none => pure [ifPart, thenPart]

def conditionalNode (attr : Attribute) (guard consequent : NodeId)
    (tail : Option ConditionalTail) : Build NodeId := do
  let mode ← modeOf consequent
  let parts ← conditionalParts guard consequent tail
  addNode attr (some mode) parts

def elif (guard consequent : NodeId) (tail : Option ConditionalTail) : Build NodeId :=
  conditionalNode .elifPart guard consequent tail

def conditional (guard consequent : NodeId) (tail : Option ConditionalTail) : Build NodeId :=
  conditionalNode .conditionalClause guard consequent tail

def caseParts (selector : NodeId) (alternatives : List NodeId)
    (tail : Option CaseTail) : Build (List NodeId) := do
  let casePart ← addNode .casePart none [selector]
  let inPart ← addNode .inPart none alternatives
  match tail with
  | some (.out serial) => do
    let outPart ← addPart .outPart serial
    pure [casePart, inPart, outPart]
  | some (.ouse part) => pure [casePart, inPart, part]
  | none => pure [casePart, inPart]

def caseNode (attr : Attribute) (selector : NodeId) (alternatives : List NodeId)
    (tail : Option CaseTail) : Build NodeId := do
  let mode ← alternatives.head?.mapM modeOf
  let parts ← caseParts selector alternatives tail
  addNode attr mode parts

def ouse (selector : NodeId) (alternatives : List NodeId) (tail : Option CaseTail) : Build NodeId :=
  caseNode .ousePart selector alternatives tail

def caseClause (selector : NodeId) (alternatives : List NodeId)
    (tail : Option CaseTail) : Build NodeId :=
  caseNode .caseClause selector alternatives tail

def loopPart (attr : Attribute) (unit : Option NodeId) : Build (List NodeId) := do
  match unit with
  | some unit => pure [← addNode attr none [unit]]
  | none => pure []

def forPart (counter : Option TagId) : Build (List NodeId) := do
  match counter with
  | some counter => do
    let entry ← (← get).tree.tags.fetch counter
    pure [← addNode .forPart none [] entry.name (some counter)]
  | none => pure []

def loop (parts : LoopParts) : Build NodeId := do
  let void := (← modes).standard.void
  let forPart ← forPart parts.counter
  let fromPart ← loopPart .fromPart parts.start
  let byPart ← loopPart .byPart parts.step
  let toPart ← loopPart .toPart parts.upper
  let downtoPart ← loopPart .downtoPart parts.lower
  let whilePart ← loopPart .whilePart parts.guard
  let doPart ← loopPart .doPart parts.body
  let untilPart ← loopPart .untilPart parts.stop
  addNode .loopClause (some void) (forPart ++ fromPart ++ byPart ++ toPart ++ downtoPart ++
      whilePart ++ doPart ++ untilPart)

def routineText (mode : ModeId) (body : NodeId) : Build NodeId := do
  let table ← closeScope
  addScopeNode .routineText (some mode) [body] table

------ Finished Trees

def finish (root : Option NodeId) : Build SyntaxTree := do
  pure { (← get).tree with root := root }

def program (clause : NodeId) : Build SyntaxTree := do
  let mode ← modeOf clause
  let root ← addNode .particularProgram (some mode) [clause]
  finish (some root)

end TreeBuilder

end Algol68
