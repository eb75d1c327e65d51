import Algol68.Tree
import Algol68.Mode.Layout
import Algol68.Options

/-
  Which fragments the code generator may take over.

  A unit is basic at a tier when it can be written without the interpreter, and constant when its
  value is known in advance. One walk answers both questions.
-/

------ Queries

namespace Algol68

namespace Classifier

/-
  What is asked of a unit. The active tags are those whose declarations are being followed;
  meeting one of them again means that a declaration refers to itself.
-/
structure Query where
  requirement : Requirement
  tier : Nat
  active : List TagId := []

namespace Query

def basic (tier : Nat) : Query where
  requirement := .basic
  tier := tier

def constant : Query where
  requirement := .constant
  tier := Tier.highest

/- Whether basic units are asked for at a tier or above. -/
def isBasicAt (query : Query) (tier : Nat) : Bool :=
  query.requirement == .basic && decide (tier ≤ query.tier)

def admits (query : Query) (tier : Nat) : Bool :=
  query.requirement == .constant || decide (tier ≤ query.tier)

end Query

end Classifier

------ Labels

variable (tree : SyntaxTree) (id : NodeId)

namespace SyntaxTree

/- Whether a label stands in a clause `fuel` levels deep. -/
def hasLabelsWithin (tree : SyntaxTree) : Nat → NodeId → Walk Bool
  | 0, _ => throw .unbounded
  | fuel + 1, id => do
    let first ← tree.sub? id
    tree.anySibling (fun child node =>
        match node.attr with
        | .label => pure true
        | .routineText => pure false
        | _ => tree.hasLabelsWithin fuel child)
      tree.bound first

/- Whether a label stands anywhere in a node, routine texts aside. -/
def hasLabels : Walk Bool := tree.hasLabelsWithin tree.bound id

end SyntaxTree

------ Shapes without Units in Them

namespace Classifier

def isValueName : Walk Bool := do
  match ← tree.tag? id with
  | some tag => pure tag.kind.isValue
  | none => pure false

def isKnownOperator (query : Query) (operator : NodeId) : Walk Bool := do
  match ← tree.builtin? operator with
  | some builtin => pure (query.requirement == .basic || builtin.isConstant)
  | none => pure false

/- A call of a standard procedure without parameters. -/
def deproceduring (node : Node) : Walk Bool := do
  match node.sub with
  | some operand =>
    match ← tree.builtin? operand with
    | some builtin => pure (builtin.arity == 0)
    | none => pure false
  | none => pure false

def selection : Walk Bool := do
  match ← tree.firstChildren id 2 with
  | [selector, secondary] => do
    let named ← tree.node secondary
    match named.attr, named.mode with
    | .identifier, some mode => do
      let target ← tree.modes.deref? mode
      let structure' := target.getD mode
      (tree.modes.isBasicStruct structure').and do
        let symbol := (← tree.node selector).symbol
        let field ← tree.modes.field? structure' symbol
        pure field.isSome
    | _, _ => pure false
  | _ => pure false

def isReferenceName : Walk Bool := do
  let node ← tree.node id
  match node.attr, node.mode with
  | .identifier, some mode => tree.modes.isRef mode
  | _, _ => pure false

/- A comparison of two names, or of a name and nil. -/
def identityRelation : Walk Bool := do
  match ← tree.firstChildren id 3 with
  | [left, _, right] =>
    ((isReferenceName tree left).and ((isReferenceName tree right).or (tree.is right .nihil))).or
      ((tree.is left .nihil).and (isReferenceName tree right))
  | _ => pure false

/- Whether values of one mode can be widened to another. -/
def isWidening (source target : ModeId) : Walk Bool := do
  match ← tree.modes.kind source, ← tree.modes.kind target with
  | .int, .real => pure true
  | .real, _ => pure (tree.modes.isComplex target)
  | _, _ => pure false

------ Shapes Made of Units

/- An answer about a unit. -/
abbrev Judge := Query → NodeId → Walk Bool

/-
  An identifier. A constant one leads to the source of its
  identity declaration, unless that is being followed already.
-/
def identifier (unit : Judge) (query : Query) (node : Node) : Walk Bool := do
  match node.tag with
  | none => pure false
  | some tag => do
    let entry ← tree.tags.fetch tag
    match query.requirement, entry.builtin with
    | _, some builtin => pure (builtin.arity == 0 && builtin.isConstant)
    | .basic, none => pure entry.kind.isValue
    | .constant, none =>
      match entry.kind, entry.value with
      | .identifier, some source =>
        if query.active.contains tag then pure false
        else
          unit
            { Query.constant with
              active := tag :: query.active }
            source
      | _, _ => pure false

def formula (unit : Judge) (query : Query) (id : NodeId) : Walk Bool := do
  match ← tree.firstChildren id 3 with
  | [left, operator, right] =>
    (isKnownOperator tree query operator).and ((unit query left).and (unit query right))
  | _ => pure false

def monadicFormula (unit : Judge) (query : Query) (id : NodeId) : Walk Bool := do
  match ← tree.firstChildren id 2 with
  | [operator, operand] => (isKnownOperator tree query operator).and (unit query operand)
  | _ => pure false

/- A call of a standard procedure with all its arguments. -/
def call (unit : Judge) (query : Query) (id : NodeId) : Walk Bool := do
  match ← tree.firstChildren id 1 with
  | [callee] => do
    match ← tree.builtin? callee with
    | some builtin => do
      if query.requirement == .constant && !builtin.isConstant then pure false
      else
        let arguments := (← tree.children id).tail
        if arguments.length = builtin.arity then arguments.allM (unit query) else pure false
    | none => pure false
  | _ => pure false

/- An indexer of integer units, without trimmers. Indices are units of the lowest tier. -/
def indexer (unit : Judge) (query : Query) (id : NodeId) : Walk Bool := do
  let node ← tree.node id
  if node.attr = .indexer ∧ node.sub.isSome then
    let indices ← tree.children id
    let query :=
      { query with
        requirement := .basic
        tier := min query.tier Tier.units }
    indices.allM fun index => do
      let node ← tree.node index
      if node.attr ≠ .trimmer ∧ node.mode = some tree.modes.standard.int then unit query index
      else pure false
  else pure false

def hasBasicElements (mode : ModeId) : Walk Bool := do
  Walk.holdsOf (← tree.modes.rowElement? mode) fun element => (tree.modes.isBasicNonRow element).and
      (tree.modes.isRef element).not

def slice (unit : Judge) (query : Query) (id : NodeId) : Walk Bool := do
  match ← tree.firstChildren id 2 with
  | [primary, index] => do
    let named ← tree.node primary
    match named.attr, named.mode with
    | .identifier, some mode => do
      let elements ← hasBasicElements tree mode
      let whole ← Walk.holdsOf (← tree.mode? id) tree.modes.isBasicNonRow
      if elements && whole then indexer tree unit query index else pure false
    | _, _ => pure false
  | _ => pure false

/- The value that a name, a slice or a selection refers to. -/
def dereferencing (unit : Judge) (query : Query) (node : Node) : Walk Bool := do
  match node.sub with
  | none => pure false
  | some operand => do
    let inner ← tree.node operand
    match inner.mode with
    | none => pure false
    | some mode =>
      ((tree.modes.isRef mode).and (tree.modes.isBasic mode)).and do
        match inner.attr with
        | .identifier => isValueName tree operand
        | .slice => if Tier.indexing ≤ query.tier then slice tree unit query operand else pure false
        | .selection => if Tier.indexing ≤ query.tier then selection tree operand else pure false
        | _ => pure false

/- A widening from integers or to complex numbers. -/
def widening (unit : Judge) (query : Query) (node : Node) (mode : ModeId) : Walk Bool := do
  match node.sub with
  | none => pure false
  | some operand => do
    match ← tree.mode? operand with
    | none => pure false
    | some source => (isWidening tree source mode).and (unit query operand)

def destination (unit : Judge) (query : Query) (id : NodeId) (mode : ModeId) : Walk Bool := do
  match ← tree.attr id with
  | .identifier => (tree.modes.isBasic mode).and (isValueName tree id)
  | .slice => slice tree unit query id
  | .selection => selection tree id
  | _ => pure false

def assignation (unit : Judge) (query : Query) (id : NodeId) : Walk Bool := do
  match ← tree.firstChildren id 2 with
  | [target, source] => do
    match ← tree.mode? target, ← tree.mode? source with
    | some targetMode, some sourceMode => do
      let object ← tree.modes.deref? targetMode
      if object = some sourceMode then
        (tree.modes.isBasicNonRow sourceMode).and ((destination tree unit query target
            targetMode).and (unit query source))
      else pure false
    | _, _ => pure false
  | _ => pure false

/- A unit whose value is dropped. -/
def voiding (unit : Judge) (query : Query) (node : Node) : Walk Bool := do
  match node.sub with
  | none => pure false
  | some operand => do
    if (← tree.attr operand) = .assignation then assignation tree unit query operand
    else unit query operand

def singleUnit (unit : Judge) (query : Query) (serial : NodeId) : Walk Bool := do
  if (← tree.attr serial) = .serialClause then
    (tree.hasLabels serial).not.and do
      match ← tree.firstChildren serial 2 with
      | [only] => do
        if (← tree.attr only).isDeclaration then pure false else unit query only
      | _ => pure false
  else pure false

def singleUnitPart (unit : Judge) (query : Query) (serial : Option NodeId) : Walk Bool :=
  Walk.holdsOf serial (singleUnit tree unit query)

def selectorPart (unit : Judge) (query : Query) (mode : ModeId)
    (serial : Option NodeId) : Walk Bool :=
  Walk.holdsOf serial fun serial => do
    if (← tree.mode? serial) = some mode then singleUnit tree unit query serial else pure false

def collateral (unit : Judge) (query : Query) (id : NodeId) : Walk Bool := do
  match ← tree.mode? id with
  | none => pure false
  | some mode =>
    (tree.modes.isBasicStruct mode).and do
      match ← tree.modes.kind mode with
      | .struct fields => do
        let members ← tree.children id
        if members.length = fields.length then members.allM (unit query) else pure false
      | _ => pure false

/-
  A conditional clause of single units with an else part at
  its end, of at most `fuel` continuations.
-/
def conditional (tree : SyntaxTree) (unit : Judge) (query : Query) : Nat → NodeId → Walk Bool
  | 0, _ => throw .unbounded
  | fuel + 1, id => do
    match ← tree.firstChildren id 2 with
    | [ifPart, thenPart] => do
      let guard ← selectorPart tree unit query tree.modes.standard.bool (← tree.sub? ifPart)
      let consequent ← singleUnitPart tree unit query (← tree.sub? thenPart)
      let tail ←
        Walk.holdsOf (← tree.child? id 2) fun part => do
          let node ← tree.node part
          match node.attr with
          | .elsePart => singleUnitPart tree unit query node.sub
          | .elifPart => conditional tree unit query fuel part
          | _ => pure false
      pure (guard && consequent && tail)
    | _ => pure false

------ Units

def shape (unit : Judge) (query : Query) (id : NodeId) (node : Node) (mode : ModeId) : Walk Bool :=
  match node.attr with
  | .denoter => pure true
  | .identifier => identifier tree unit query node
  | .dereferencing =>
    if query.requirement = .basic then dereferencing tree unit query node else pure false
  | .formula => formula tree unit query id
  | .monadicFormula => monadicFormula tree unit query id
  | .call => call tree unit query id
  | .deproceduring => if query.requirement = .basic then deproceduring tree node else pure false
  | .slice => if query.isBasicAt Tier.indexing then slice tree unit query id else pure false
  | .selection => if query.isBasicAt Tier.indexing then selection tree id else pure false
  | .assignation =>
    if query.isBasicAt Tier.indexing then assignation tree unit query id else pure false
  | .identityRelation =>
    if query.isBasicAt Tier.indexing then identityRelation tree id else pure false
  | .cast =>
    if query.admits Tier.indexing then
      (tree.modes.isFoldable mode).and (Walk.holdsOf node.sub (unit query))
    else pure false
  | .widening =>
    if query.admits Tier.indexing then widening tree unit query node mode else pure false
  | .closedClause =>
    if query.admits Tier.clauses then singleUnitPart tree unit query node.sub else pure false
  | .serialClause => if query.admits Tier.clauses then singleUnit tree unit query id else pure false
  | .collateralClause =>
    if query.admits Tier.clauses then collateral tree unit query id else pure false
  | .conditionalClause =>
    if query.isBasicAt Tier.clauses then conditional tree unit query tree.bound id else pure false
  | _ => pure false

def judge (unit : Judge) (query : Query) (id : NodeId) : Walk Bool := do
  let node ← tree.node id
  match node.mode with
  | none => pure false
  | some mode =>
    if node.attr = .voiding then
      if query.isBasicAt Tier.indexing then voiding tree unit query node else pure false
    else (query.requirement.accepts tree.modes mode).and (shape tree unit query id node mode)

/- The answer for a unit at most `fuel` levels deep. -/
def unitWithin (tree : SyntaxTree) : Nat → Query → NodeId → Walk Bool
  | 0, _, _ => throw .unbounded
  | fuel + 1, query, id => judge tree (unitWithin tree fuel) query id

def unit : Judge := unitWithin tree tree.bound

end Classifier

------ Answers

namespace SyntaxTree

open Classifier

variable (tier : Nat)

def isBasic : Walk Bool := if Tier.units ≤ tier then unit tree (.basic tier) id else pure false

/- Whether the value of a unit is known in advance. -/
def isConstant : Walk Bool := unit tree .constant id

def isBasicIndexer : Walk Bool := indexer tree (unit tree) (.basic tier) id

def isBasicSerial : Walk Bool :=
  if Tier.clauses ≤ tier then singleUnit tree (unit tree) (.basic tier) id else pure false

def isBasicCollateral : Walk Bool :=
  if Tier.clauses ≤ tier then collateral tree (unit tree) (.basic tier) id else pure false

def isBasicConditional : Walk Bool := do
  if Tier.clauses ≤ tier then
    (Walk.holdsOf (← tree.mode? id) tree.modes.isBasic).and
      (conditional tree (unit tree) (.basic tier) tree.bound id)
  else pure false

/- A case clause of at most `fuel` continuations. -/
def isBasicCaseWithin (tree : SyntaxTree) (tier : Nat) : Nat → NodeId → Walk Bool
  | 0, _ => throw .unbounded
  | fuel + 1, id => do
    match ← tree.firstChildren id 2 with
    | [casePart, inPart] => do
      let selector ← selectorPart tree (unit tree) (.basic tier) tree.modes.standard.int
        (← tree.sub? casePart)
      let tail ←
        match ← tree.child? id 2 with
        | none => pure true
        | some part => do
          if (← tree.attr part) = .ousePart then tree.isBasicCaseWithin tier fuel part
          else (tree.hasLabels part).not
      if selector then (tree.hasLabels inPart).not.and (pure tail) else pure false
    | _ => pure false

/- Whether a case clause has a basic selector and no labels in its branches. -/
def isBasicCase : Walk Bool :=
  if Tier.clauses ≤ tier then tree.isBasicCaseWithin tier tree.bound id else pure false

end SyntaxTree

end Algol68
