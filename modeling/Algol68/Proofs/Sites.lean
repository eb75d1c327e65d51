import Algol68.Generator
import Algol68.Proofs.Functions

/-
  The nodes that plans and their paths lead to.

  Generated code reaches the nodes of a clause by paths from the node of its function. A plan is
  of a clause if its items are the children of the clause in order, its paths lead to the nodes
  they stand for, and each item is written in a way that suits its node.
-/

------ Following Paths

namespace Algol68

variable {id : NodeId} {tree : SyntaxTree}

namespace SyntaxTree

/- The next sibling of a node. -/
def next? (tree : SyntaxTree) (id : NodeId) : Walk (Option NodeId) := do
  pure (← tree.node id).next

/- The node that a path leads to, if there is one. -/
def follow (tree : SyntaxTree) (start : NodeId) : Path → Walk (Option NodeId)
  | .start => pure (some start)
  | .sub path => do
    match ← tree.follow start path with
    | some id => tree.sub? id
    | none => pure none
  | .next path => do
    match ← tree.follow start path with
    | some id => tree.next? id
    | none => pure none

theorem follow_sub (hPath : tree.follow start path = .ok (some id)) :
    tree.follow start path.sub = tree.sub? id := by
  simp [follow, hPath]

theorem follow_next {node : Node} (hPath : tree.follow start path = .ok (some id))
    (hNode : tree.node id = .ok node) : tree.follow start path.next = .ok node.next := by
  simp [follow, next?, hPath, hNode]

end SyntaxTree

theorem Path.sibling_next (path : Path) (n : Nat) :
    path.next.sibling n = (path.sibling n).next := by
  induction n with
  | zero => rfl
  | succ n ih => rw [sibling, ih, sibling]

/- A path goes on along siblings. -/
theorem SyntaxTree.follow_sibling (hPath : tree.follow start path = .ok first)
    (hIds : tree.firstSiblings count first = .ok ids) (hKid : ids[n]? = some kid) :
    tree.follow start (path.sibling n) = .ok (some kid) := by
  induction count generalizing path first ids n with
  | zero =>
    cases hIds
    simp at hKid
  | succ count ih =>
    cases first with
    | none =>
      cases hIds
      simp at hKid
    | some head =>
      rcases Walk.bind_eq_ok.mp hIds with ⟨node, hNode, hIds⟩
      rcases Walk.bind_eq_ok.mp hIds with ⟨rest, hRest, hIds⟩
      cases hIds
      cases n with
      | zero =>
        simp only [List.getElem?_cons_zero, Option.some.injEq] at hKid
        subst hKid
        exact hPath
      | succ n =>
        have hNext := follow_next hPath hNode
        rw [Path.sibling, ← Path.sibling_next]
        exact ih hNext hRest hKid

theorem SyntaxTree.follow_child (hPath : tree.follow start path = .ok (some id))
    (hKid : tree.child? id pos = .ok (some kid)) :
    tree.follow start (path.child pos) = .ok (some kid) := by
  rcases Walk.bind_eq_ok.mp hKid with ⟨kids, hKids, hFound⟩
  rcases Walk.bind_eq_ok.mp hKids with ⟨first, hFirst, hKids⟩
  apply follow_sibling _ hKids (Except.ok.inj hFound)
  rw [follow_sub hPath, hFirst]

/- A site whose path leads to its node. -/
def Site.IsReached (tree : SyntaxTree) (start : NodeId) (site : Site) : Prop :=
  tree.follow start site.path = .ok (some site.node)

theorem Site.isReached_of_sitesBelow {path : Path} (hPath : tree.follow start path = .ok (some id))
    (hKids : tree.children id = .ok kids) (hSite : site ∈ Planner.sitesBelow path kids) :
    site.IsReached tree start := by
  rcases List.mem_map.mp hSite with ⟨⟨kid, n⟩, hEntry, rfl⟩
  have hFound : kids[n]? = some kid := List.mem_zipIdx_iff_getElem?.mp hEntry
  apply SyntaxTree.follow_child hPath
  rw [SyntaxTree.child?_eq hKids, hFound]

------ Plans of Clauses

variable {plan : SerialPlan} {calls more : NodeId → String → Prop}
  (hMore : ∀ id name, calls id name → more id name)

include hMore

/- A way to write a node suits it. -/
def ItemKind.Suits (tree : SyntaxTree) (calls : NodeId → String → Prop)
    (id : NodeId) : ItemKind → Prop
  | .inline => True
  | .call function => calls id function
  | .declaration => ∃ attr, tree.attr id = .ok attr ∧ attr.isDeclaration = true
  | .allocation => tree.attr id = .ok .variableDeclaration

/- An item of the function of a node, whose path leads to its node. -/
structure Item.IsOf (tree : SyntaxTree) (calls : NodeId → String → Prop) (start : NodeId)
    (item : Item) : Prop where
  reached : item.site.IsReached tree start
  suits : item.kind.Suits tree calls item.site.node

theorem Item.IsOf.mono {item : Item} (hItem : item.IsOf tree calls start) :
    item.IsOf tree more start := by
  rcases item with ⟨site, kind⟩
  refine ⟨hItem.reached, ?_⟩
  have hSuits := hItem.suits
  cases kind with
  | inline => trivial
  | call func => exact hMore _ _ hSuits
  | declaration | allocation => exact hSuits

/- The children of a clause, one after the other. -/
structure SerialPlan.Lists (tree : SyntaxTree) (calls : NodeId → String → Prop) (start : NodeId)
    (plan : SerialPlan) : Prop where
  reached : plan.site.IsReached tree start
  children : tree.children plan.site.node = .ok (plan.items.map fun item => item.site.node)
  items : ∀ item ∈ plan.items, item.IsOf tree calls start
  nonempty : plan.items ≠ []

theorem SerialPlan.Lists.mono (hPlan : plan.Lists tree calls start) :
    plan.Lists tree more start where
  reached := hPlan.reached
  children := hPlan.children
  items := fun item hItem => (hPlan.items item hItem).mono hMore
  nonempty := hPlan.nonempty

/- A serial clause. -/
structure SerialPlan.IsOf (tree : SyntaxTree) (calls : NodeId → String → Prop) (start : NodeId)
    (plan : SerialPlan) : Prop
    extends plan.Lists tree calls start where
  attr : tree.attr plan.site.node = .ok .serialClause

theorem SerialPlan.IsOf.mono (hPlan : plan.IsOf tree calls start) : plan.IsOf tree more start :=
  ⟨hPlan.toLists.mono hMore, hPlan.attr⟩

/- The part of an attribute at a position of a clause. -/
structure SyntaxTree.HasPart (tree : SyntaxTree) (id : NodeId) (position : Nat) (attr : Attribute)
    (part : NodeId) : Prop where
  child : tree.child? id position = .ok (some part)
  attr : tree.attr part = .ok attr

/- A serial clause in a part of a clause. -/
def SerialPlan.IsPart (tree : SyntaxTree) (calls : NodeId → String → Prop) (start id : NodeId)
    (position : Nat) (attr : Attribute) (plan : SerialPlan) : Prop :=
  plan.IsOf tree calls start ∧ ∃ part, tree.HasPart id position attr part ∧
      tree.sub? part = .ok (some plan.site.node)

theorem SerialPlan.IsPart.mono (hPlan : plan.IsPart tree calls start id pos attr) :
    plan.IsPart tree more start id pos attr :=
  ⟨hPlan.1.mono hMore, hPlan.2⟩

/- The alternatives of a case clause, none of which declares. -/
structure SyntaxTree.HasArms (tree : SyntaxTree) (calls : NodeId → String → Prop)
    (start id : NodeId) (arms : List Item) : Prop where
  children : ∃ part, tree.child? id 1 = .ok (some part) ∧ tree.children part =
      .ok (arms.map fun item => item.site.node)
  items : ∀ item ∈ arms, item.IsOf tree calls start
  plain : ∀ item ∈ arms, item.kind.declares = false

theorem SyntaxTree.HasArms.mono (hArms : tree.HasArms calls start id arms) :
    tree.HasArms more start id arms where
  children := hArms.children
  items := fun item hItem => (hArms.items item hItem).mono hMore
  plain := hArms.plain

/- The parts of a clause that branches are made of. -/
def Branches.AreParts (tree : SyntaxTree) (calls : NodeId → String → Prop) (start id : NodeId) :
    Branches → Prop
  | .guarded yes => yes.IsPart tree calls start id 1 .thenPart
  | .numbered alternatives => tree.HasArms calls start id alternatives

/- The branches of a clause, which is of their kind. -/
structure Branches.AreOf (tree : SyntaxTree) (calls : NodeId → String → Prop) (start id : NodeId)
    (branches : Branches) : Prop where
  attr : tree.attr id = .ok branches.kind.clause ∨ tree.attr id = .ok branches.kind.more
  parts : branches.AreParts tree calls start id

theorem Branches.AreOf.mono {branches : Branches} (hBranches : branches.AreOf tree calls start id) :
    branches.AreOf tree more start id := by
  refine ⟨hBranches.attr, ?_⟩
  have hParts := hBranches.parts
  cases branches with
  | guarded yes => exact SerialPlan.IsPart.mono hMore hParts
  | numbered alternatives => exact SyntaxTree.HasArms.mono hMore hParts

/- A conditional or case clause. One without a last part gives no value. -/
inductive ChoicePlan.IsOf (tree : SyntaxTree) (calls : NodeId → String → Prop) (start : NodeId) :
    NodeId → ChoicePlan → Prop
  | only {id selector : NodeId} {branches : Branches}
      (hBranches : branches.AreOf tree calls start id)
      (hNothing : Planner.givesNothing tree id = .ok true) :
      IsOf tree calls start id (.select selector branches .nothing)
  | last {id selector : NodeId} {branches : Branches} {last : SerialPlan}
      (hBranches : branches.AreOf tree calls start id)
      (hLast : last.IsPart tree calls start id 2 branches.kind.last) :
      IsOf tree calls start id (.select selector branches (.otherwise last))
  | more {id selector part : NodeId} {branches : Branches} {rest : ChoicePlan}
      (hBranches : branches.AreOf tree calls start id)
      (hPart : tree.HasPart id 2 branches.kind.more part)
      (hRest : rest.IsOf tree calls start part) :
      IsOf tree calls start id (.select selector branches rest)

theorem ChoicePlan.IsOf.mono {plan : ChoicePlan} (hPlan : plan.IsOf tree calls start id) :
    plan.IsOf tree more start id := by
  induction hPlan with
  | only hBranches hNothing => exact .only (hBranches.mono hMore) hNothing
  | last hBranches hLast => exact .last (hBranches.mono hMore) (hLast.mono hMore)
  | more hBranches hPart _ ih => exact .more (hBranches.mono hMore) hPart ih

/- A loop clause. -/
def LoopPlan.IsOf (tree : SyntaxTree) (calls : NodeId → String → Prop) (start : NodeId)
    (plan : LoopPlan) : Prop :=
  plan.body.IsOf tree calls start

------ Code of Nodes

/- A unit that is compiled as the constant it stands for. -/
structure Generator.IsConstantUnit (tree : SyntaxTree) (id : NodeId) (entry : Node)
    (mode : ModeId) : Prop where
  node : tree.node id = .ok entry
  attr : entry.attr = .denoter ∨ entry.attr = .identifier
  moded : entry.mode = some mode
  foldable : tree.modes.isFoldable mode = .ok true
  constant : tree.isConstant id = .ok true

namespace Emission

open Inline Planner Generator

/- How the code of a node is drawn up, where some nodes have functions that are called. -/
inductive Drawn (tree : SyntaxTree) (calls : NodeId → String → Prop) (id : NodeId) : Writer → Prop
  | serial {plan : SerialPlan} (hPlan : plan.IsOf tree calls id) (hNode : plan.site.node = id)
      (hUnits : plan.Has tree (Inlined tree)) :
      Drawn tree calls id (Emission.serial tree plan)
  | closed {plan : SerialPlan} (hAttr : tree.attr id = .ok .closedClause)
      (hPlan : plan.IsOf tree calls id) (hSub : tree.sub? id = .ok (some plan.site.node))
      (hUnits : plan.Has tree (Inlined tree)) :
      Drawn tree calls id (Emission.serial tree plan)
  | display {mode : ModeId} {members : List NodeId} (hAttr : tree.attr id = .ok .collateralClause)
      (hMode : tree.mode? id = .ok (some mode)) (hStruct : tree.modes.isBasicStruct mode = .ok true)
      (hMembers : tree.children id = .ok members)
      (hUnits : ∀ member ∈ members, Inlined tree member) :
      Drawn tree calls id (values tree members)
  | collateral {mode : ModeId} {plan : SerialPlan} (hAttr : tree.attr id = .ok .collateralClause)
      (hMode : tree.mode? id = .ok (some mode)) (hVoid : tree.modes.isVoid mode = .ok true)
      (hPlan : plan.Lists tree calls id) (hNode : plan.site.node = id)
      (hFrame : plan.opensFrame = false) (hUnits : plan.Has tree (Inlined tree)) :
      Drawn tree calls id (Emission.serial tree plan)
  | choice (kind : ChoiceKind) {plan : ChoicePlan} (hAttr : tree.attr id = .ok kind.clause)
      (hPlan : plan.IsOf tree calls id id) (hUnits : plan.Has tree (Inlined tree)) :
      Drawn tree calls id (Emission.choice tree plan)
  | loop {plan : LoopPlan} (hAttr : tree.attr id = .ok .loopClause)
      (hPlan : plan.IsOf tree calls id) (hUnits : plan.Has tree (Inlined tree)) :
      Drawn tree calls id (Emission.loop tree id plan)
  | routineCall {callee : NodeId} {tag : Tag} {params : List ModeId} {call : RoutineCall}
      (hAttr : tree.attr id = .ok .call) (hCallee : tree.sub? id = .ok (some callee))
      (hTag : tree.tag? callee = .ok (some tag)) (hProcedure : tag.kind = .procedure)
      (hKind : tree.modes.kind tag.mode = .ok (.proc params call.result))
      (hArguments : ∀ argument ∈ call.arguments, Inlined tree argument.1 ∧
          tree.mode? argument.1 = .ok (some argument.2)) :
      Drawn tree calls id (Emission.routineCall tree id call)
  | injection {union : ModeId} {alternatives : List ModeId} {whole part : Nat}
      {injection : Injection} (hAttr : tree.attr id = .ok .uniting)
      (hMode : tree.mode? id = .ok (some union))
      (hKind : tree.modes.kind union = .ok (.union alternatives))
      (hMember : injection.mode ∈ alternatives) (hWhole : tree.modes.byteSize union = .ok whole)
      (hPart : tree.modes.byteSize injection.mode = .ok part)
      (hPadding : injection.padding = whole - (8 + part)) (hUnit : Inlined tree injection.operand)
      (hOperand : tree.mode? injection.operand = .ok (some injection.mode)) :
      Drawn tree calls id (Emission.injection tree injection)
  | constant {node : Node} {mode : ModeId} {value : Value} {push : Stmt}
      (hUnit : IsConstantUnit tree id node mode)
      (hPush : pushOf tree mode (.constant value) = .ok push) :
      Drawn tree calls id (.ofStatements [push])
  | value (hUnit : Inlined tree id) : Drawn tree calls id (Emission.value tree id)

/- What is drawn up can be written. -/
omit hMore in
theorem Drawn.planned (hDrawn : Drawn tree calls id writer) : Planned tree writer := by
  cases hDrawn with
  | @serial plan _ _ hUnits | @closed plan _ _ _ hUnits | @collateral _ plan _ _ _ _ _ _ hUnits =>
    exact .clause (.serial plan) hUnits
  | display _ _ _ _ hUnits => exact .values hUnits
  | @choice _ plan _ _ hUnits => exact .clause (.choice plan) hUnits
  | @loop plan _ _ hUnits => exact .clause (.loop id plan) hUnits
  | routineCall _ _ _ _ _ hArgs => exact .routineCall hArgs
  | injection _ _ _ _ _ _ _ hUnit hOp => exact .injection hUnit hOp
  | constant _ _ => exact .statements
  | value hUnit => exact .value hUnit

theorem Drawn.mono (hDrawn : Drawn tree calls id writer) : Drawn tree more id writer := by
  cases hDrawn with
  | serial hPlan hNode hUnits => exact .serial (hPlan.mono hMore) hNode hUnits
  | closed hAttr hPlan hSub hUnits => exact .closed hAttr (hPlan.mono hMore) hSub hUnits
  | display hAttr hMode hStruct hMembers hUnits =>
    exact .display hAttr hMode hStruct hMembers hUnits
  | collateral hAttr hMode hVoid hPlan hNode hFrame hUnits =>
    exact .collateral hAttr hMode hVoid (hPlan.mono hMore) hNode hFrame hUnits
  | choice kind hAttr hPlan hUnits => exact .choice kind hAttr (hPlan.mono hMore) hUnits
  | loop hAttr hPlan hUnits => exact .loop hAttr (hPlan.mono hMore) hUnits
  | routineCall hAttr hCallee hTag hProc hKind hArgs =>
    exact .routineCall hAttr hCallee hTag hProc hKind hArgs
  | injection hAttr hMode hKind hMem hWhole hPart hPadding hUnit hOp =>
    exact .injection hAttr hMode hKind hMem hWhole hPart hPadding hUnit hOp
  | constant hUnit hPush => exact .constant hUnit hPush
  | value hUnit => exact .value hUnit

end Emission

end Algol68
