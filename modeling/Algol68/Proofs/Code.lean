import Algol68.Proofs.Stages

/-
  The code of units.

  What the second pass writes for a unit is told by a relation between the unit, the bookings
  before and after it, the statements, and the expression for the value. A temporary is computed
  where its address is not booked yet, and bookings that a branch makes are dropped behind it.
-/

------ Nodes below a Node

namespace Algol68

variable {id : NodeId}

namespace SyntaxTree

variable {tree : SyntaxTree}

/- A child of a node. -/
def IsChild (tree : SyntaxTree) (id kid : NodeId) : Prop :=
  ∃ kids, tree.children id = .ok kids ∧ kid ∈ kids

/- A node holds itself and what its children hold. -/
def Holds (tree : SyntaxTree) (id inner : NodeId) : Prop :=
  Relation.ReflTransGen tree.IsChild id inner

theorem isChild_of_childOf (hTree : tree.IsRegular)
    (hChild : Inline.childOf tree id pos = .ok kid) : tree.IsChild id kid := by
  rcases Walk.bind_eq_ok.mp hChild with ⟨found, hFound, hKid⟩
  have hNode : ∃ node, tree.node id = .ok node := by
    rcases Walk.bind_eq_ok.mp hFound with ⟨first, hFirst, -⟩
    rcases Walk.bind_eq_ok.mp hFirst with ⟨sub, hSub, -⟩
    rcases Walk.bind_eq_ok.mp hSub with ⟨node, hNode, -⟩
    exact ⟨node, hNode⟩
  rcases hNode with ⟨node, hNode⟩
  rcases hTree.children_ends hNode with ⟨kids, hKids⟩
  rw [child?_eq hKids, Except.ok.injEq] at hFound
  cases found with
  | none => simp at hKid
  | some other =>
    cases hKid
    exact ⟨kids, hKids, List.mem_of_getElem? hFound⟩

namespace Holds

theorem refl (tree : SyntaxTree) (id : NodeId) : tree.Holds id id := Relation.ReflTransGen.refl

theorem trans (hFirst : tree.Holds id kid) (hSecond : tree.Holds kid lower) : tree.Holds id lower :=
  Relation.ReflTransGen.trans hFirst hSecond

theorem of_child (hKids : tree.children id = .ok kids) (hKid : kid ∈ kids) : tree.Holds id kid :=
  Relation.ReflTransGen.single ⟨kids, hKids, hKid⟩

theorem of_childOf (hTree : tree.IsRegular) (hChild : Inline.childOf tree id pos = .ok kid) :
    tree.Holds id kid :=
  Relation.ReflTransGen.single (isChild_of_childOf hTree hChild)

end Holds

end SyntaxTree

namespace Inline

variable {tree : SyntaxTree}

open SyntaxTree

/- The operands of an operation are children of its node, and the others name the operation. -/
theorem exists_children_of_operandsOf (hOps : operandsOf tree id = .ok (builtin, ops)) :
    ∃ kids, tree.children id = .ok kids ∧ ops.Sublist kids ∧ ∀ kid ∈ kids, kid ∈ ops ∨
        tree.builtin? kid = .ok (some builtin) := by
  rcases Walk.bind_eq_ok.mp hOps with ⟨kids, hKids, hFound⟩
  rcases Walk.bind_eq_ok.mp hFound with ⟨attr, -, hFound⟩
  refine ⟨kids, hKids, ?_⟩
  split at hFound
  case h_4 => simp at hFound
  all_goals
    rcases Walk.bind_eq_ok.mp hFound with ⟨_ | found, hName, hFound⟩
    · simp at hFound
    · cases hFound
      refine ⟨by simp, fun kid hKid => ?_⟩
      refine or_iff_not_imp_right.mpr fun hOther => ?_
      have hNot : ∀ name, tree.builtin? name = .ok (some builtin) → kid ≠ name :=
        fun name hName hSame => hOther (hSame ▸ hName)
      simpa [hNot _ hName] using hKid

/- The operands of an operation are those of its node. -/
theorem operands_of_operationOf (hOperation : operationOf tree checked id = .ok operation) :
    operandsOf tree id = .ok (operation.builtin, operation.operands) := by
  rcases Walk.bind_eq_ok.mp hOperation with ⟨⟨builtin, ops⟩, hOps, hFound⟩
  rw [hOps]
  dsimp only at hFound
  split at hFound
  · cases hFound
    rfl
  · split at hFound
    · rcases Walk.bind_eq_ok.mp hFound with ⟨plain, -, hFound⟩
      cases hFound
      rfl
    · cases hFound
      rfl

theorem holds_of_operandsOf (hOps : operandsOf tree id = .ok (builtin, ops))
    (hKid : kid ∈ ops) : tree.Holds id kid := by
  rcases exists_children_of_operandsOf hOps with ⟨kids, hKids, hSublist, -⟩
  exact .of_child hKids (hSublist.subset hKid)

theorem holds_of_elementOf (hTree : tree.IsRegular) (hElem : elementOf tree id = .ok elem)
    (hKid : kid ∈ elem.indices) : tree.Holds id kid := by
  rcases elementOf_eq_ok hElem with ⟨_, _, _, _, _, _, _, _, -, hIndexer, -, -, -, -, hIndices, rfl⟩
  exact (Holds.of_childOf hTree hIndexer).trans (.of_child hIndices hKid)

theorem holds_of_assignationOf (hTree : tree.IsRegular)
    (hAssign : assignationOf tree id = .ok (destination, source)) :
    tree.Holds id destination ∧ tree.Holds id source := by
  rcases Walk.bind_eq_ok.mp hAssign with ⟨first, hFirst, hFound⟩
  rcases Walk.bind_eq_ok.mp hFound with ⟨second, hSecond, hFound⟩
  cases hFound
  exact ⟨.of_childOf hTree hFirst, .of_childOf hTree hSecond⟩

/- The guard and the branches of a conditional are below it. -/
theorem holds_of_choiceOf (hTree : tree.IsRegular) (hChoice : choiceOf tree id = .ok choice) :
    tree.Holds id choice.guard ∧ tree.Holds id choice.yes ∧ tree.Holds id choice.no := by
  simp only [choiceOf, Walk.bind_eq_ok] at hChoice
  rcases hChoice with ⟨ifPart, hIf, guard, hGuard, thenPart, hThen, yes, hYes, tail,
      hTail, attr, -, hChoice⟩
  have hGuardHeld : tree.Holds id guard :=
    (Holds.of_childOf hTree hIf).trans (.of_childOf hTree hGuard)
  have hYesHeld : tree.Holds id yes := (Holds.of_childOf hTree hThen).trans (.of_childOf hTree hYes)
  have hTailHeld := Holds.of_childOf hTree hTail
  split at hChoice
  · rcases Walk.bind_eq_ok.mp hChoice with ⟨no, hNo, hChoice⟩
    cases hChoice
    exact ⟨hGuardHeld, hYesHeld, hTailHeld.trans (.of_childOf hTree hNo)⟩
  · cases hChoice
    exact ⟨hGuardHeld, hYesHeld, hTailHeld⟩
  · rcases Walk.bind_eq_ok.mp hChoice with ⟨no, hNo, -⟩
    simp at hNo

end Inline

------ Code of Pointers

namespace Inline

variable (tree : SyntaxTree) (ctx : Context)

/-
  The temporary of a pointer is taken where the address is
  booked, and computed and booked where it is not.
-/
inductive PointerCode (pointer : Pointer) (inner : Temp → Bookings → List Stmt → Bookings → Prop) :
    Bookings → List Stmt → Bookings → Temp → Prop
  | booked {bookings : Bookings} {owner : NodeId}
      (hOwner : Owner tree ctx pointer.address owner)
      (hHas : bookings.Has tree pointer.address .execute) :
      PointerCode pointer inner bookings [] bookings (pointer.temp owner)
  | computed {before after : Bookings} {body : List Stmt} {owner : NodeId}
      (hOwner : Owner tree ctx pointer.address owner)
      (hNew : ¬ before.Has tree pointer.address .execute)
      (hInner : inner (pointer.temp owner) before body after) :
      PointerCode pointer inner before body (after.signIn pointer.address .execute owner)
        (pointer.temp owner)

/- An object may be checked before it is used. -/
def Checks (temp : Temp) (check : List Stmt) : Prop :=
  check = [] ∨ ∃ mode, check = [.checkInitialised temp mode]

/- What is written to check an object. -/
theorem checkInitialised_eq_ok {tree : SyntaxTree}
    (hCheck : checkInitialised tree checked temp mode = .ok check) :
    check = [] ∧ (checked = true → tree.modes.isPrimitive mode = .ok false) ∨
      checked = true ∧ tree.modes.isPrimitive mode = .ok true ∧
          ∃ name, check = [.checkInitialised temp name] := by
  unfold checkInitialised at hCheck
  split at hCheck
  · rename_i hChecked
    rcases Walk.bind_eq_ok.mp hCheck with ⟨isPrimitive, hPrim, hCheck⟩
    cases isPrimitive with
    | true =>
      rcases Walk.bind_eq_ok.mp hCheck with ⟨name, -, hCheck⟩
      cases hCheck
      exact .inr ⟨hChecked, hPrim, name, rfl⟩
    | false =>
      cases hCheck
      exact .inl ⟨rfl, fun _ => hPrim⟩
  · rename_i hChecked
    cases hCheck
    exact .inl ⟨rfl, fun hYes => absurd hYes hChecked⟩

theorem checks_of_checkInitialised {tree : SyntaxTree}
    (hCheck : checkInitialised tree checked temp mode = .ok check) : Checks temp check := by
  rcases checkInitialised_eq_ok hCheck with ⟨rfl, -⟩ | ⟨-, -, name, rfl⟩
  · exact .inl rfl
  · exact .inr ⟨name, rfl⟩

/- The temporary of a name is pointed to its slot or object. -/
inductive NamedBody (named : Named) (temp : Temp) : Bookings → List Stmt → Bookings → Prop
  | fetch {bookings : Bookings} (hSlot : named.object = none) : NamedBody named temp bookings
        [.fetch temp named.pointer.storage named.slot] bookings
  | deref {bookings : Bookings} {object : ModeId} {check : List Stmt}
      (hObject : named.object = some object)
      (hCheck : checkInitialised tree ctx.options.checked temp object = .ok check) :
      NamedBody named temp bookings (.deref temp named.pointer.storage named.slot :: check) bookings

/- The code of a pointer found through an identifier. -/
def NamedCode (named : Named) : Bookings → List Stmt → Bookings → Temp → Prop :=
  PointerCode tree ctx named.pointer (NamedBody tree ctx named)

/- What is written for a unit, and the value it then has. -/
abbrev Coding := NodeId → Bookings → List Stmt → Bookings → Expr → Prop

/- The code of units one after the other. -/
inductive InTurn (part : Coding) : List NodeId → Bookings → List Stmt → Bookings → List Expr → Prop
  | nil {bookings : Bookings} : InTurn part [] bookings [] bookings []
  | cons {id : NodeId} {ids : List NodeId} {before middle after : Bookings}
      {first others : List Stmt} {value : Expr} {values : List Expr}
      (hFirst : part id before first middle value)
      (hRest : InTurn part ids middle others after values) :
      InTurn part (id :: ids) before (first ++ others) after (value :: values)

/- The row and the indices of an element come before it. -/
inductive ElementBody (part : Coding) (element : Element) (base : Named) (temp : Temp) :
    Bookings → List Stmt → Bookings → Prop
  | mk {before middle after : Bookings} {first others : List Stmt} {row : Temp}
      {indices : List Expr} (hBase : NamedCode tree ctx base before first middle row)
      (hIndices : InTurn part element.indices middle others after indices) :
      ElementBody part element base temp before (first ++ others ++
          [.element temp element.pointer.storage row indices])
        after

/- The structure comes before its field. -/
inductive ComponentBody (base : Named) (temp : Temp) : Bookings → List Stmt → Bookings → Prop
  | part {before after : Bookings} {first : List Stmt} {object : Temp} {index : Nat}
      (hBase : NamedCode tree ctx base before first after object) :
      ComponentBody base temp before (first ++ [.component temp object index]) after
  | field {before after : Bookings} {first : List Stmt} {object : Temp} {storage : String}
      {offset : Nat} (hBase : NamedCode tree ctx base before first after object) :
      ComponentBody base temp before (first ++ [.field temp storage object offset]) after

/- The code that points a temporary to what a unit designates. -/
inductive AddressCode (part : Coding) (id : NodeId) : Bookings → List Stmt → Bookings → Temp → Prop
  | name {named : Named} {before after : Bookings} {body : List Stmt} {temp : Temp}
      (hAttr : tree.attr id = .ok .identifier) (hNamed : derefOf tree id = .ok named)
      (hCode : NamedCode tree ctx named before body after temp) :
      AddressCode part id before body after temp
  | element {element : Element} {base : Named} {before after : Bookings} {body : List Stmt}
      {temp : Temp} (hAttr : tree.attr id = .ok .slice) (hElement : elementOf tree id = .ok element)
      (hPrimary : tree.attr element.primary = .ok .identifier)
      (hBase : baseOf tree element.primary = .ok base)
      (hCode : PointerCode tree ctx element.pointer
        (ElementBody tree ctx part element base) before body after temp) :
      AddressCode part id before body after temp
  | component {component : Component} {base : Named} {before after : Bookings} {body : List Stmt}
      {temp : Temp} (hAttr : tree.attr id = .ok .selection)
      (hComponent : componentOf tree id = .ok component)
      (hSecondary : tree.attr component.secondary = .ok .identifier)
      (hBase : baseOf tree component.secondary = .ok base)
      (hCode : PointerCode tree ctx component.pointer
        (ComponentBody tree ctx base) before body after temp) :
      AddressCode part id before body after temp

------ Code of Units

/- A node that has the value of its only part, or none. -/
def IsEnclosing (tree : SyntaxTree) (id : NodeId) : Prop :=
  ∃ attr, tree.attr id = .ok attr ∧ attr ∈ [.cast, .closedClause, .serialClause, .voiding]

/- A node that neither encloses its value nor stores. -/
def IsPlain (tree : SyntaxTree) (id : NodeId) : Prop :=
  ∃ attr, tree.attr id = .ok attr ∧ attr ∉ [.assignation, .cast, .closedClause, .serialClause,
      .voiding]

theorem IsPlain.not_enclosing (hPlain : IsPlain tree id) : ¬ IsEnclosing tree id := by
  rcases hPlain with ⟨attr, hAttr, hOther⟩
  rintro ⟨found, hFound, hEncloses⟩
  cases hAttr.symm.trans hFound
  exact hOther (List.mem_cons_of_mem _ hEncloses)

theorem IsPlain.not_assignation (hPlain : IsPlain tree id) : tree.attr id ≠ .ok .assignation := by
  rcases hPlain with ⟨attr, hAttr, hOther⟩
  rintro hFound
  cases hAttr.symm.trans hFound
  exact hOther List.mem_cons_self

theorem attr_of_operandsOf {tree : SyntaxTree} (hOps : operandsOf tree id = .ok (builtin, ops)) :
    ∃ attr, tree.attr id = .ok attr ∧ (attr = .formula ∨ attr = .monadicFormula ∨
        attr = .call) := by
  rcases Walk.bind_eq_ok.mp hOps with ⟨kids, -, hFound⟩
  rcases Walk.bind_eq_ok.mp hFound with ⟨attr, hAttr, hFound⟩
  refine ⟨attr, hAttr, ?_⟩
  split at hFound
  · simp
  · simp
  · simp
  · simp at hFound

theorem plain_of_operandsOf {tree : SyntaxTree}
    (hOps : operandsOf tree id = .ok (builtin, ops)) : IsPlain tree id := by
  rcases attr_of_operandsOf hOps with ⟨attr, hAttr, hShape⟩
  rcases hShape with rfl | rfl | rfl
  all_goals exact ⟨_, hAttr, by simp⟩

theorem plain_of_choice {tree : SyntaxTree} (hAttr : tree.attr id = .ok attr)
    (hClause : attr ∈ [.conditionalClause, .elifPart]) : IsPlain tree id := by
  rcases List.mem_pair.mp hClause with rfl | rfl
  all_goals exact ⟨_, hAttr, by simp⟩

/- A value that is read through a temporary. -/
inductive IsThrough (temp : Temp) : Expr → Prop
  | value : IsThrough temp (.value temp)
  | content : IsThrough temp (.content temp)
  | whole : IsThrough temp (.temp temp)
  | reference : IsThrough temp (.reference temp)

/-
  What a node finds through the temporary of an object: the value behind a reference, which is
  checked unless its name is, or the object itself.
-/
inductive Reads (id : NodeId) (temp : Temp) : NodeId → List Stmt → Expr → Prop
  | behind {operand : NodeId} {mode : ModeId} {check : List Stmt} {value : Expr}
      (hAttr : tree.attr id = .ok .dereferencing) (hOperand : childOf tree id 0 = .ok operand)
      (hMode : modeOf tree id = .ok mode)
      (hCheck : tree.attr operand = .ok .identifier ∧ check = [] ∨
        checkInitialised tree ctx.options.checked temp mode = .ok check)
      (hValue : valueOf tree mode temp = .ok value) :
      Reads id temp operand check value
  | itself {attr : Attribute} {mode : ModeId} {value : Expr} (hAttr : tree.attr id = .ok attr)
      (hPart : attr ∈ [.slice, .selection]) (hMode : modeOf tree id = .ok mode)
      (hValue : value = .reference temp ∨ tree.modes.deref? mode = .ok none ∧
          valueOf tree mode temp = .ok value) :
      Reads id temp id [] value

/- A value that a node puts together in place from those of its parts. -/
inductive Builds (id : NodeId) : List NodeId → List Expr → Expr → Prop
  | apply {builtin : Builtin} {operands : List NodeId}
      (hOperands : operandsOf tree id = .ok (builtin, operands)) (values : List Expr) :
      Builds id operands values (.apply builtin.signature.rendering values)
  | toReal {operand : NodeId} (hAttr : tree.attr id = .ok .widening)
      (hOperand : childOf tree id 0 = .ok operand) (value : Expr) :
      Builds id [operand] [value] (.toReal value)
  | sameName {relation : Relation} (hAttr : tree.attr id = .ok .identityRelation)
      (hRelation : relationOf tree id = .ok relation) (left right : Expr) :
      Builds id [relation.left, relation.right] [left, right] (.sameName relation.same left right)
  | nil (hAttr : tree.attr id = .ok .nihil) : Builds id [] [] .nil

/- A field of a display is set, or made to be. -/
inductive SetsField (temp : Temp) (values : List Expr) : Stmt → Prop
  | initialise (storage : String) (offset : Nat) :
      SetsField temp values (.initialiseField storage temp offset)
  | set (storage : String) (offset : Nat) {value : Expr} (hValue : value ∈ values) :
      SetsField temp values (.setField storage temp offset value)

/- The temporary of a node is filled from the values of its parts. -/
inductive Fills (id : NodeId) (temp : Temp) : List NodeId → List Expr → List Stmt → Prop
  | into {builtin : Builtin} {operands : List NodeId}
      (hOperands : operandsOf tree id = .ok (builtin, operands)) (function : String)
      (values : List Expr) :
      Fills id temp operands values [.computeInto function temp values]
  | checked {builtin : Builtin} {operands : List NodeId}
      (hOperands : operandsOf tree id = .ok (builtin, operands)) (name : String)
      (values : List Expr) :
      Fills id temp operands values [.compute temp (.apply builtin.signature.rendering values),
          .checkMath temp name]
  | call {builtin : Builtin} (hAttr : tree.attr id = .ok .deproceduring)
      (hProcedure : procedureOf tree id = .ok builtin) :
      Fills id temp [] [] [.compute temp (.apply builtin.signature.rendering [])]
  | widened {operand : NodeId} (hAttr : tree.attr id = .ok .widening)
      (hOperand : childOf tree id 0 = .ok operand) (re : Expr) :
      Fills id temp [operand] [re] [.setPair temp re none]
  | pair {members : List NodeId} (hAttr : tree.attr id = .ok .collateralClause)
      (hMembers : tree.children id = .ok members) (re im : Expr) :
      Fills id temp members [re, im] [.setPair temp re (some im)]
  | fields {members : List NodeId} {values : List Expr} {body : List Stmt}
      (hAttr : tree.attr id = .ok .collateralClause) (hMembers : tree.children id = .ok members)
      (hBody : ∀ stmt ∈ body, SetsField temp values stmt) (hSome : body ≠ []) :
      Fills id temp members values body

section Parts

open SyntaxTree

variable {tree : SyntaxTree} {ctx : Context}

/- The value behind a pointer is read through it. -/
theorem isThrough_of_valueOf (hVal : valueOf tree mode temp = .ok value) :
    IsThrough temp value := by
  rcases Walk.bind_eq_ok.mp hVal with ⟨kind, -, hVal⟩
  split at hVal
  · cases hVal
    exact .content
  · split at hVal
    · cases hVal
      exact .value
    · cases hVal
      exact .whole

namespace Reads

theorem through (hReads : Reads tree ctx id temp op check value) : IsThrough temp value := by
  cases hReads with
  | behind _ _ _ _ hVal => exact isThrough_of_valueOf hVal
  | itself _ _ _ hVal =>
    rcases hVal with rfl | ⟨-, hVal⟩
    · exact .reference
    · exact isThrough_of_valueOf hVal

theorem checks (hReads : Reads tree ctx id temp op check val) : Checks temp check := by
  cases hReads with
  | behind _ _ _ hCheck _ =>
    rcases hCheck with ⟨-, rfl⟩ | hCheck
    · exact .inl rfl
    · exact checks_of_checkInitialised hCheck
  | itself => exact .inl rfl

theorem holds (hTree : tree.IsRegular) (hReads : Reads tree ctx id temp operand check val) :
    tree.Holds id operand := by
  cases hReads with
  | behind _ hOp _ _ _ => exact .of_childOf hTree hOp
  | itself => exact .refl tree id

theorem plain (hReads : Reads tree ctx id temp op check val) : IsPlain tree id := by
  cases hReads with
  | behind hAttr => exact ⟨_, hAttr, by simp⟩
  | itself hAttr hPart =>
    rcases List.mem_pair.mp hPart with rfl | rfl
    all_goals exact ⟨_, hAttr, by simp⟩

end Reads

theorem Builds.holds (hTree : tree.IsRegular) (hVal : Builds tree id parts vals val) :
    ∀ kid ∈ parts, tree.Holds id kid := by
  cases hVal with
  | apply hOps => exact fun kid hKid => holds_of_operandsOf hOps hKid
  | toReal _ hOp => simpa using Holds.of_childOf hTree hOp
  | sameName _ hRel =>
    simp only [relationOf, Walk.bind_eq_ok] at hRel
    rcases hRel with ⟨_, hFirst, _, -, _, -, _, hLast, hRel⟩
    cases hRel
    simpa using ⟨Holds.of_childOf hTree hFirst, Holds.of_childOf hTree hLast⟩
  | nil => simp

theorem Builds.plain (hVal : Builds tree id parts vals val) : IsPlain tree id := by
  cases hVal with
  | apply hOps => exact plain_of_operandsOf hOps
  | toReal hAttr | sameName hAttr | nil hAttr => exact ⟨_, hAttr, by simp⟩

theorem Fills.holds (hTree : tree.IsRegular) (hFills : Fills tree id temp parts vals body) :
    ∀ kid ∈ parts, tree.Holds id kid := by
  cases hFills with
  | into hOps | checked hOps => exact fun kid hKid => holds_of_operandsOf hOps hKid
  | call => simp
  | widened _ hOp => simpa using Holds.of_childOf hTree hOp
  | pair _ hMembers | fields _ hMembers => exact fun kid hKid => .of_child hMembers hKid

theorem Fills.plain (hFills : Fills tree id temp parts vals body) : IsPlain tree id := by
  cases hFills with
  | into hOps | checked hOps => exact plain_of_operandsOf hOps
  | call hAttr | widened hAttr | pair hAttr | fields hAttr => exact ⟨_, hAttr, by simp⟩

end Parts

/- What is written for a unit from the code of its parts. -/
inductive ShapeCode (part : Coding) (id : NodeId) : Bookings → List Stmt → Bookings → Expr → Prop
  | name {named : Named} {before after : Bookings} {body : List Stmt} {temp : Temp} {value : Expr}
      (hAttr : tree.attr id = .ok .identifier) (hNamed : fetchOf tree id = .ok named)
      (hCode : NamedCode tree ctx named before body after temp)
      (hValue : IsThrough temp value) :
      ShapeCode part id before body after value
  | object {operand : NodeId} {before after : Bookings} {body check : List Stmt} {temp : Temp}
      {value : Expr} (hCode : AddressCode tree ctx part operand before body after temp)
      (hReads : Reads tree ctx id temp operand check value) :
      ShapeCode part id before (body ++ check) after value
  | inPlace {parts : List NodeId} {before after : Bookings} {body : List Stmt} {values : List Expr}
      {value : Expr} (hCode : InTurn part parts before body after values)
      (hValue : Builds tree id parts values value) :
      ShapeCode part id before body after value
  | enclosed {only : NodeId} {before after : Bookings} {body : List Stmt} {inner value : Expr}
      (hEncloses : IsEnclosing tree id) (hOnly : tree.children id = .ok [only])
      (hCode : part only before body after inner) (hValue : value = inner ∨ value = .blank) :
      ShapeCode part id before body after value
  | kept {parts : List NodeId} {before after : Bookings} {first last : List Stmt}
      {values : List Expr} {result : Result} (hCode : InTurn part parts before first after values)
      (hResult : HasResult tree ctx.options.checked id result)
      (hName : ctx.declarations.Has result.storage result.declarator)
      (hLast : Fills tree id result.temp parts values last) :
      ShapeCode part id before (first ++ last) after (.temp result.temp)
  | choice {choice : Choice} {before after ofYes ofNo : Bookings} {body yes no : List Stmt}
      {guard ifYes ifNo : Expr} {attr : Attribute} (hAttr : tree.attr id = .ok attr)
      (hClause : attr ∈ [.conditionalClause, .elifPart]) (hChoice : choiceOf tree id = .ok choice)
      (hGuard : part choice.guard before body after guard)
      (hYes : part choice.yes after yes ofYes ifYes) (hNo : part choice.no after no ofNo ifNo) :
      ShapeCode part id before (body ++ [.branch id guard yes no]) after
        (.choose id guard ifYes ifNo)
  | assignation {destination source : NodeId} {before middle after : Bookings}
      {first second : List Stmt} {temp : Temp} {form : StoreForm} {value : Expr}
      (hAttr : tree.attr id = .ok .assignation)
      (hAssignation : assignationOf tree id = .ok (destination, source))
      (hSource : part source before first middle value)
      (hCode : AddressCode tree ctx part destination middle second after temp) :
      ShapeCode part id before (first ++ second ++ [.store (.object temp) form value])
        after (.reference temp)

/- What is written for a unit at most `fuel` levels deep. -/
def CodeWithin : Nat → Coding
  | 0 => fun _ _ _ _ _ => False
  | fuel + 1 => fun id before body after value => (body = [] ∧ after = before ∧
        (∃ node, tree.node id = .ok node ∧ isFolded tree id node = .ok true) ∧
        ∃ constant, value = .constant constant) ∨
      ShapeCode tree ctx (CodeWithin fuel) id before body after value

/- What is written for a unit. -/
def Code : Coding := CodeWithin tree ctx tree.bound

end Inline

end Algol68
