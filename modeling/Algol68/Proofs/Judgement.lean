import Algol68.Classifier
import Algol68.Proofs.Conformity

/-
  What the classifier has seen when it answers yes.

  A shape says what was found at a node and of which units the answer was asked in turn. The
  judgement of those units is a parameter, so that a statement about accepted units is proved by
  induction on the depth with one case for each shape.
-/

------ Parts

namespace Algol68

open Walk (bind_eq_ok and_eq_true holdsOf_eq_true allM_eq_true pure_eq_ok)

namespace Classifier

/- A judgement of units under a query. -/
abbrev Accepts := Query → NodeId → Prop

/- The query for the indices of a slice. -/
def Query.ofIndices (query : Query) : Query :=
  { query with
    requirement := .basic
    tier := min query.tier Tier.units }

/- The query for the source of a constant. -/
def Query.following (query : Query) (tag : TagId) : Query :=
  { Query.constant with active := tag :: query.active }

variable (tree : SyntaxTree) (accepts : Accepts) (query : Query)

/- A serial clause of one accepted unit. -/
inductive Single (serial : NodeId) : Prop
  | intro {unit : NodeId} {node : Node} (hAttr : tree.attr serial = .ok .serialClause)
      (hLabels : tree.hasLabels serial = .ok false)
      (hUnit : tree.firstChildren serial 2 = .ok [unit]) (hNode : tree.node unit = .ok node)
      (hDeclaration : node.attr.isDeclaration = false) (hAccepted : accepts query unit)

/- An element of a named row at accepted indices. -/
inductive Indexed (id : NodeId) : Prop
  | intro {primary index : NodeId} {named indexer : Node} {mode element whole : ModeId}
      {indices : List NodeId} (hParts : tree.firstChildren id 2 = .ok [primary, index])
      (hNamed : tree.node primary = .ok named) (hName : named.attr = .identifier)
      (hMode : named.mode = some mode) (hElement : tree.modes.rowElement? mode = .ok (some element))
      (hBasic : tree.modes.isBasicNonRow element = .ok true)
      (hRef : tree.modes.isRef element = .ok false) (hWhole : tree.mode? id = .ok (some whole))
      (hIndexer : tree.node index = .ok indexer) (hIndexerAttr : indexer.attr = .indexer)
      (hIndices : tree.children index = .ok indices) (hSome : indices ≠ [])
      (hAccepted : ∀ entry ∈ indices, ∃ node, tree.node entry = .ok node ∧ node.attr ≠ .trimmer ∧
          node.mode = some tree.modes.standard.int ∧ accepts query.ofIndices entry)

/- A field of a named structure of primitives. -/
inductive Selected (id : NodeId) : Prop
  | intro {selector secondary : NodeId} {named node : Node} {mode : ModeId} {target : Option ModeId}
      {field : Nat × ModeId} (hParts : tree.firstChildren id 2 = .ok [selector, secondary])
      (hNamed : tree.node secondary = .ok named) (hName : named.attr = .identifier)
      (hMode : named.mode = some mode) (hTarget : tree.modes.deref? mode = .ok target)
      (hSelector : tree.node selector = .ok node)
      (hField : tree.modes.field? (target.getD mode) node.symbol = .ok (some field))

/- A name, a slice or a selection that can be assigned to. -/
inductive Designated (id : NodeId) (mode : ModeId) : Prop
  | name {node : Node} (hNode : tree.node id = .ok node) (hAttr : node.attr = .identifier)
      (hBasic : tree.modes.isBasic mode = .ok true) (hValue : isValueName tree id = .ok true)
  | slice (hAttr : tree.attr id = .ok .slice) (hSlice : Indexed tree accepts query id)
  | selection (hAttr : tree.attr id = .ok .selection) (hSelection : Selected tree id)

/- A basic unit assigned to an object of its mode. -/
inductive Assigned (id : NodeId) : Prop
  | intro {target source : NodeId} {targetMode sourceMode : ModeId}
      (hParts : tree.firstChildren id 2 = .ok [target, source])
      (hTarget : tree.mode? target = .ok (some targetMode))
      (hSource : tree.mode? source = .ok (some sourceMode))
      (hObject : tree.modes.deref? targetMode = .ok (some sourceMode))
      (hDesignated : Designated tree accepts query target targetMode)
      (hAccepted : accepts query source)

/- A conditional clause of single units whose last part is an else part. -/
inductive Chained : NodeId → Prop
  | last {id ifPart thenPart elsePart guard yes no : NodeId} (hParts : tree.firstChildren id 2 =
        .ok [ifPart, thenPart])
      (hIf : tree.sub? ifPart = .ok (some guard))
      (hGuardMode : tree.mode? guard = .ok (some tree.modes.standard.bool))
      (hGuard : Single tree accepts query guard) (hThen : tree.sub? thenPart = .ok (some yes))
      (hYes : Single tree accepts query yes) (hTail : tree.child? id 2 = .ok (some elsePart))
      (hElse : tree.attr elsePart = .ok .elsePart) (hElseSub : tree.sub? elsePart = .ok (some no))
      (hNo : Single tree accepts query no) :
      Chained id
  | more {id ifPart thenPart elifPart guard yes : NodeId} (hParts : tree.firstChildren id 2 =
        .ok [ifPart, thenPart])
      (hIf : tree.sub? ifPart = .ok (some guard))
      (hGuardMode : tree.mode? guard = .ok (some tree.modes.standard.bool))
      (hGuard : Single tree accepts query guard) (hThen : tree.sub? thenPart = .ok (some yes))
      (hYes : Single tree accepts query yes) (hTail : tree.child? id 2 = .ok (some elifPart))
      (hElif : tree.attr elifPart = .ok .elifPart) (hRest : Chained elifPart) :
      Chained id

------ Shapes

/- What a dereferenced unit may be. -/
inductive Dereferenced (operand : NodeId) (inner : Node) : Prop
  | name (hAttr : inner.attr = .identifier) (hValue : isValueName tree operand = .ok true)
  | slice (hAttr : inner.attr = .slice) (hSlice : Indexed tree accepts query operand)
  | selection (hAttr : inner.attr = .selection) (hSelection : Selected tree operand)

/- The ways in which a unit of an accepted mode is accepted. -/
inductive Shape (id : NodeId) (node : Node) (mode : ModeId) : Prop
  | denoter (hAttr : node.attr = .denoter)
  | builtinName {tag : TagId} {entry : Tag} {builtin : Builtin} (hAttr : node.attr = .identifier)
      (hTag : node.tag = some tag) (hEntry : tree.tags.fetch tag = .ok entry)
      (hBuiltin : entry.builtin = some builtin) (hArity : builtin.arity = 0)
      (hConstant : builtin.isConstant = true)
  | frameName {tag : TagId} {entry : Tag} (hAttr : node.attr = .identifier)
      (hBasic : query.requirement = .basic) (hTag : node.tag = some tag)
      (hEntry : tree.tags.fetch tag = .ok entry) (hBuiltin : entry.builtin = none)
      (hValue : entry.kind.isValue = true)
  | constantName {tag : TagId} {entry : Tag} {source : NodeId} (hAttr : node.attr = .identifier)
      (hConstant : query.requirement = .constant) (hTag : node.tag = some tag)
      (hEntry : tree.tags.fetch tag = .ok entry) (hBuiltin : entry.builtin = none)
      (hKind : entry.kind = .identifier) (hSource : entry.value = some source)
      (hFresh : tag ∉ query.active) (hAccepted : accepts (query.following tag) source)
  | formula {left operator right : NodeId} {builtin : Builtin} (hAttr : node.attr = .formula)
      (hParts : tree.firstChildren id 3 = .ok [left, operator, right])
      (hBuiltin : tree.builtin? operator = .ok (some builtin))
      (hKnown : query.requirement = .basic ∨ builtin.isConstant = true) (hLeft : accepts query left)
      (hRight : accepts query right)
  | monadicFormula {operator operand : NodeId} {builtin : Builtin}
      (hAttr : node.attr = .monadicFormula)
      (hParts : tree.firstChildren id 2 = .ok [operator, operand])
      (hBuiltin : tree.builtin? operator = .ok (some builtin))
      (hKnown : query.requirement = .basic ∨ builtin.isConstant = true)
      (hOperand : accepts query operand)
  | call {callee : NodeId} {arguments : List NodeId} {builtin : Builtin} (hAttr : node.attr = .call)
      (hParts : tree.children id = .ok (callee :: arguments))
      (hBuiltin : tree.builtin? callee = .ok (some builtin))
      (hKnown : query.requirement = .basic ∨ builtin.isConstant = true)
      (hArity : arguments.length = builtin.arity)
      (hArguments : ∀ argument ∈ arguments, accepts query argument)
  | dereferencing {operand : NodeId} {inner : Node} {reference : ModeId}
      (hAttr : node.attr = .dereferencing) (hBasic : query.requirement = .basic)
      (hSub : node.sub = some operand) (hInner : tree.node operand = .ok inner)
      (hMode : inner.mode = some reference) (hRef : tree.modes.isRef reference = .ok true)
      (hOperand : Dereferenced tree accepts query operand inner)
  | deproceduring {operand : NodeId} {builtin : Builtin} (hAttr : node.attr = .deproceduring)
      (hBasic : query.requirement = .basic) (hSub : node.sub = some operand)
      (hBuiltin : tree.builtin? operand = .ok (some builtin)) (hArity : builtin.arity = 0)
  | slice (hAttr : node.attr = .slice) (hBasic : query.requirement = .basic)
      (hSlice : Indexed tree accepts query id)
  | selection (hAttr : node.attr = .selection) (hBasic : query.requirement = .basic)
      (hSelection : Selected tree id)
  | assignation (hAttr : node.attr = .assignation) (hBasic : query.requirement = .basic)
      (hAssigned : Assigned tree accepts query id)
  | identityRelation {left operator right : NodeId} (hAttr : node.attr = .identityRelation)
      (hBasic : query.requirement = .basic)
      (hParts : tree.firstChildren id 3 = .ok [left, operator, right])
      (hLeft : isReferenceName tree left = .ok true ∨ tree.is left .nihil = .ok true)
      (hRight : isReferenceName tree right = .ok true ∨ tree.is right .nihil = .ok true)
  | cast {operand : NodeId} (hAttr : node.attr = .cast) (hSub : node.sub = some operand)
      (hOperand : accepts query operand)
  | widening {operand : NodeId} {source : ModeId} (hAttr : node.attr = .widening)
      (hSub : node.sub = some operand) (hSource : tree.mode? operand = .ok (some source))
      (hWidening : isWidening tree source mode = .ok true) (hOperand : accepts query operand)
  | closedClause {serial : NodeId} (hAttr : node.attr = .closedClause)
      (hSub : node.sub = some serial) (hSerial : Single tree accepts query serial)
  | serialClause (hAttr : node.attr = .serialClause) (hSerial : Single tree accepts query id)
  | collateralClause {fields : List Field} {members : List NodeId}
      (hAttr : node.attr = .collateralClause) (hStruct : tree.modes.isBasicStruct mode = .ok true)
      (hFields : tree.modes.kind mode = .ok (.struct fields))
      (hMembers : tree.children id = .ok members) (hLength : members.length = fields.length)
      (hAccepted : ∀ member ∈ members, accepts query member)
  | conditionalClause (hAttr : node.attr = .conditionalClause) (hBasic : query.requirement = .basic)
      (hChained : Chained tree accepts query id)

/- The ways in which a unit is accepted. -/
inductive Judgement (id : NodeId) : Prop
  | unit {node : Node} {mode : ModeId} (hNode : tree.node id = .ok node)
      (hMode : node.mode = some mode)
      (hAccepts : query.requirement.accepts tree.modes mode = .ok true)
      (hShape : Shape tree accepts query id node mode)
  | voidedAssignation {node : Node} {operand : NodeId} (hNode : tree.node id = .ok node)
      (hAttr : node.attr = .voiding) (hBasic : query.requirement = .basic)
      (hSub : node.sub = some operand) (hOperand : tree.attr operand = .ok .assignation)
      (hAssigned : Assigned tree accepts query operand)
  | voidedUnit {node : Node} {operand : NodeId} (hNode : tree.node id = .ok node)
      (hAttr : node.attr = .voiding) (hBasic : query.requirement = .basic)
      (hSub : node.sub = some operand) (hOperand : accepts query operand)

end Classifier

------ Parts behind an Answer

namespace Classifier

variable {tree : SyntaxTree} {unit : Judge} {query : Query} {id : NodeId}

/- The units to which a judge answers yes. -/
def accepted (unit : Judge) : Accepts := fun query id => unit query id = .ok true

theorem attr_eq_ok :
    tree.attr id = .ok attr ↔ ∃ node, tree.node id = .ok node ∧ node.attr = attr := by
  simp [SyntaxTree.attr, bind_eq_ok]

theorem Single.exists_children (hSingle : Single tree accepts query serial)
    (hShaped : tree.IsShaped) :
    ∃ node only, tree.node serial = .ok node ∧ node.attr = .serialClause ∧
        tree.children serial = .ok [only] ∧ accepts query only := by
  rcases hSingle with ⟨hAttr, -, hFirst, -, -, hAccepted⟩
  rename_i only _
  rcases attr_eq_ok.mp hAttr with ⟨node, hNode, hAttr⟩
  rcases hShaped.children_ends hNode with ⟨kids, hKids⟩
  rw [SyntaxTree.firstChildren_eq hKids, Except.ok.injEq] at hFirst
  refine ⟨node, only, hNode, hAttr, ?_, hAccepted⟩
  rcases kids with _ | ⟨first, _ | ⟨second, rest⟩⟩
  · simp at hFirst
  · rw [hKids, ← hFirst]
    rfl
  · simp at hFirst

theorem single_of_singleUnit (hSingle : singleUnit tree unit query id = .ok true) :
    Single tree (accepted unit) query id := by
  simp only [singleUnit, bind_eq_ok] at hSingle
  rcases hSingle with ⟨attr, hAttr, hSingle⟩
  split at hSingle
  · rename_i hSerial
    subst hSerial
    simp only [and_eq_true, Walk.not_eq_true, bind_eq_ok] at hSingle
    rcases hSingle with ⟨hLabels, kids, hKids, hOnly⟩
    split at hOnly
    · rename_i only
      simp only [bind_eq_ok] at hOnly
      rcases hOnly with ⟨onlyAttr, hOnlyAttr, hOnly⟩
      rcases attr_eq_ok.mp hOnlyAttr with ⟨node, hNode, rfl⟩
      split at hOnly
      · simp at hOnly
      · rename_i hDecl
        exact .intro hAttr hLabels hKids hNode (by simpa using hDecl) hOnly
    · simp at hOnly
  · simp at hSingle

theorem indexed_of_slice (hSlice : slice tree unit query id = .ok true) :
    Indexed tree (accepted unit) query id := by
  simp only [slice, bind_eq_ok] at hSlice
  rcases hSlice with ⟨kids, hKids, hSlice⟩
  split at hSlice
  · rename_i primary index
    simp only [bind_eq_ok] at hSlice
    rcases hSlice with ⟨named, hNamed, hSlice⟩
    split at hSlice
    · rename_i mode hName hMode
      simp only [bind_eq_ok] at hSlice
      rcases hSlice with ⟨elems, hElems, wholeMode, hWholeMode, whole, hWhole, hSlice⟩
      split at hSlice
      · rename_i hBoth
        simp only [Bool.and_eq_true] at hBoth
        rcases hBoth with ⟨rfl, rfl⟩
        simp only [hasBasicElements, bind_eq_ok, holdsOf_eq_true, and_eq_true,
          Walk.not_eq_true] at hElems
        rcases hElems with ⟨_, hElem, elem, rfl, hBasic, hRef⟩
        rw [holdsOf_eq_true] at hWhole
        rcases hWhole with ⟨found, rfl, -⟩
        simp only [indexer, bind_eq_ok] at hSlice
        rcases hSlice with ⟨node, hNode, hSlice⟩
        split at hSlice
        · rename_i hIndexer
          simp only [bind_eq_ok, allM_eq_true] at hSlice
          rcases hSlice with ⟨indices, hIndices, hAll⟩
          refine .intro hKids hNamed hName hMode hElem hBasic
            hRef hWholeMode hNode hIndexer.1 hIndices ?_ ?_
          · have hHead := SyntaxTree.sub_eq_head? hNode hIndices
            rintro rfl
            simp [hHead] at hIndexer
          · intro entry hEntry
            rcases hAll entry hEntry with ⟨found, hFound, hUnit⟩
            split at hUnit
            · rename_i hIdx
              exact ⟨found, hFound, hIdx.1, hIdx.2, hUnit⟩
            · simp at hUnit
        · simp at hSlice
      · simp at hSlice
    · simp at hSlice
  · simp at hSlice

theorem selected_of_selection (hSelection : selection tree id = .ok true) : Selected tree id := by
  simp only [selection, bind_eq_ok] at hSelection
  rcases hSelection with ⟨kids, hKids, hSelection⟩
  split at hSelection
  · simp only [bind_eq_ok] at hSelection
    rcases hSelection with ⟨named, hNamed, hSelection⟩
    split at hSelection
    · rename_i mode hName hMode
      simp only [bind_eq_ok, and_eq_true, pure_eq_ok, Except.ok.injEq,
        Option.isSome_iff_exists] at hSelection
      rcases hSelection with ⟨target, hTarget, -, node, hNode, _, hField, field, rfl⟩
      exact .intro hKids hNamed hName hMode hTarget hNode hField
    · simp at hSelection
  · simp at hSelection

theorem designated_of_destination (hDest : destination tree unit query id mode = .ok true) :
    Designated tree (accepted unit) query id mode := by
  simp only [destination, bind_eq_ok] at hDest
  rcases hDest with ⟨attr, hAttr, hDest⟩
  split at hDest
  · rcases attr_eq_ok.mp hAttr with ⟨node, hNode, hName⟩
    rw [and_eq_true] at hDest
    exact .name hNode hName hDest.1 hDest.2
  · exact .slice hAttr (indexed_of_slice hDest)
  · exact .selection hAttr (selected_of_selection hDest)
  · simp at hDest

theorem assigned_of_assignation (hAssign : assignation tree unit query id = .ok true) :
    Assigned tree (accepted unit) query id := by
  simp only [assignation, bind_eq_ok] at hAssign
  rcases hAssign with ⟨kids, hKids, hAssign⟩
  split at hAssign
  · simp only [bind_eq_ok] at hAssign
    rcases hAssign with ⟨targetMode, hTarget, sourceMode, hSrc, hAssign⟩
    split at hAssign
    · simp only [bind_eq_ok] at hAssign
      rcases hAssign with ⟨object, hObj, hAssign⟩
      split at hAssign
      · rename_i hSame
        subst hSame
        simp only [and_eq_true] at hAssign
        rcases hAssign with ⟨-, hDest, hUnit⟩
        exact .intro hKids hTarget hSrc hObj (designated_of_destination hDest) hUnit
      · simp at hAssign
    · simp at hAssign
  · simp at hAssign

theorem chained_of_conditional (hCond : conditional tree unit query fuel id = .ok true) :
    Chained tree (accepted unit) query id := by
  induction fuel generalizing id with
  | zero => simp [conditional] at hCond
  | succ fuel ih =>
    simp only [conditional, bind_eq_ok] at hCond
    rcases hCond with ⟨kids, hKids, hCond⟩
    split at hCond
    · simp only [bind_eq_ok, pure_eq_ok, Except.ok.injEq, Bool.and_eq_true] at hCond
      rcases hCond with ⟨guardSub, hIf, _, hGuard, thenSub, hThen, _, hYes,
          tail, hTail, _, hRest, ⟨rfl, rfl⟩, rfl⟩
      simp only [selectorPart, holdsOf_eq_true, bind_eq_ok] at hGuard
      rcases hGuard with ⟨guard, rfl, guardMode, hGuardMode, hGuard⟩
      split at hGuard
      · rename_i hBool
        subst hBool
        simp only [singleUnitPart, holdsOf_eq_true] at hYes
        rcases hYes with ⟨yes, rfl, hYes⟩
        simp only [holdsOf_eq_true, bind_eq_ok] at hRest
        rcases hRest with ⟨part, rfl, node, hNode, hRest⟩
        split at hRest
        · rename_i hElse
          simp only [singleUnitPart, holdsOf_eq_true] at hRest
          rcases hRest with ⟨no, hNo, hRest⟩
          refine .last hKids hIf hGuardMode (single_of_singleUnit hGuard) hThen
            (single_of_singleUnit hYes) hTail (attr_eq_ok.mpr ⟨node, hNode, hElse⟩) ?_
            (single_of_singleUnit hRest)
          simp [SyntaxTree.sub?, hNode, hNo]
        · rename_i hElif
          exact .more hKids hIf hGuardMode (single_of_singleUnit hGuard) hThen
            (single_of_singleUnit hYes) hTail (attr_eq_ok.mpr ⟨node, hNode, hElif⟩) (ih hRest)
        · simp at hRest
      · simp at hGuard
    · simp at hCond

------ Shapes behind an Answer

private theorem known_of_isKnownOperator (hKnown : isKnownOperator tree query operator = .ok true) :
    ∃ builtin, tree.builtin? operator = .ok (some builtin) ∧ (query.requirement = .basic ∨
        builtin.isConstant = true) := by
  simp only [isKnownOperator, bind_eq_ok] at hKnown
  rcases hKnown with ⟨found, hFound, hKnown⟩
  split at hKnown
  · rename_i builtin
    exact ⟨builtin, hFound, by simpa using hKnown⟩
  · simp at hKnown

private theorem shape_of_identifier (hAttr : node.attr = .identifier)
    (hUnit : identifier tree unit query node = .ok true) :
    Shape tree (accepted unit) query id node mode := by
  simp only [identifier] at hUnit
  split at hUnit
  · simp at hUnit
  · rename_i tag hTag
    simp only [bind_eq_ok] at hUnit
    rcases hUnit with ⟨entry, hEntry, hUnit⟩
    split at hUnit
    · rename_i builtin hBuiltin
      simp only [pure_eq_ok, Except.ok.injEq, Bool.and_eq_true, beq_iff_eq] at hUnit
      exact .builtinName hAttr hTag hEntry hBuiltin hUnit.1 hUnit.2
    · rename_i hBasic hBuiltin
      exact .frameName hAttr hBasic hTag hEntry hBuiltin (by simpa using hUnit)
    · rename_i hConst hBuiltin
      split at hUnit
      · rename_i source hKind hSrc
        split at hUnit
        · simp at hUnit
        · rename_i hFresh
          exact .constantName hAttr hConst hTag hEntry
            hBuiltin hKind hSrc (by simpa using hFresh) hUnit
      · simp at hUnit

private theorem shape_of_formula (hAttr : node.attr = .formula)
    (hUnit : formula tree unit query id = .ok true) :
    Shape tree (accepted unit) query id node mode := by
  simp only [formula, bind_eq_ok] at hUnit
  rcases hUnit with ⟨kids, hKids, hUnit⟩
  split at hUnit
  · simp only [and_eq_true] at hUnit
    rcases hUnit with ⟨hKnown, hLeft, hRight⟩
    rcases known_of_isKnownOperator hKnown with ⟨builtin, hBuiltin, hKnown⟩
    exact .formula hAttr hKids hBuiltin hKnown hLeft hRight
  · simp at hUnit

private theorem shape_of_monadicFormula (hAttr : node.attr = .monadicFormula)
    (hUnit : monadicFormula tree unit query id = .ok true) :
    Shape tree (accepted unit) query id node mode := by
  simp only [monadicFormula, bind_eq_ok] at hUnit
  rcases hUnit with ⟨kids, hKids, hUnit⟩
  split at hUnit
  · simp only [and_eq_true] at hUnit
    rcases known_of_isKnownOperator hUnit.1 with ⟨builtin, hBuiltin, hKnown⟩
    exact .monadicFormula hAttr hKids hBuiltin hKnown hUnit.2
  · simp at hUnit

private theorem shape_of_call (hAttr : node.attr = .call)
    (hUnit : call tree unit query id = .ok true) :
    Shape tree (accepted unit) query id node mode := by
  simp only [call, bind_eq_ok] at hUnit
  rcases hUnit with ⟨first, hFirst, hUnit⟩
  split at hUnit
  · rename_i callee
    simp only [bind_eq_ok] at hUnit
    rcases hUnit with ⟨found, hFound, hUnit⟩
    split at hUnit
    · rename_i builtin
      split at hUnit
      · simp at hUnit
      · rename_i hKnown
        simp only [bind_eq_ok] at hUnit
        rcases hUnit with ⟨kids, hKids, hUnit⟩
        rw [SyntaxTree.firstChildren_eq hKids] at hFirst
        rcases kids with _ | ⟨head, args⟩
        · simp at hFirst
        · obtain rfl : head = callee := by simpa using hFirst
          split at hUnit
          · rename_i hArity
            rw [allM_eq_true] at hUnit
            refine .call hAttr hKids hFound ?_ hArity hUnit
            cases hRequirement : query.requirement with
            | basic => exact .inl rfl
            | constant =>
              simpa [hRequirement] using hKnown
          · simp at hUnit
    · simp at hUnit
  · simp at hUnit

private theorem shape_of_dereferencing (hAttr : node.attr = .dereferencing)
    (hBasic : query.requirement = .basic) (hUnit : dereferencing tree unit query node = .ok true) :
    Shape tree (accepted unit) query id node mode := by
  simp only [dereferencing] at hUnit
  split at hUnit
  · simp at hUnit
  · rename_i op hSub
    simp only [bind_eq_ok] at hUnit
    rcases hUnit with ⟨inner, hInner, hUnit⟩
    split at hUnit
    · simp at hUnit
    · rename_i reference hMode
      simp only [and_eq_true] at hUnit
      rcases hUnit with ⟨⟨hRef, -⟩, hUnit⟩
      refine .dereferencing hAttr hBasic hSub hInner hMode hRef ?_
      split at hUnit
      · exact .name ‹_› hUnit
      · split at hUnit
        · exact .slice ‹_› (indexed_of_slice hUnit)
        · simp at hUnit
      · split at hUnit
        · exact .selection ‹_› (selected_of_selection hUnit)
        · simp at hUnit
      · simp at hUnit

private theorem shape_of_deproceduring (hAttr : node.attr = .deproceduring)
    (hBasic : query.requirement = .basic) (hUnit : deproceduring tree node = .ok true) :
    Shape tree (accepted unit) query id node mode := by
  simp only [deproceduring] at hUnit
  split at hUnit
  · rename_i op hSub
    simp only [bind_eq_ok] at hUnit
    rcases hUnit with ⟨found, hFound, hUnit⟩
    split at hUnit
    · exact .deproceduring hAttr hBasic hSub hFound (by simpa using hUnit)
    · simp at hUnit
  · simp at hUnit

private theorem shape_of_identityRelation (hAttr : node.attr = .identityRelation)
    (hBasic : query.requirement = .basic) (hUnit : identityRelation tree id = .ok true) :
    Shape tree (accepted unit) query id node mode := by
  simp only [identityRelation, bind_eq_ok] at hUnit
  rcases hUnit with ⟨kids, hKids, hUnit⟩
  split at hUnit
  · simp only [Walk.or_eq_true, and_eq_true] at hUnit
    rcases hUnit with ⟨hLeft, hRight | ⟨-, hRight⟩⟩ | ⟨-, hLeft, hRight⟩
    · exact .identityRelation hAttr hBasic hKids (.inl hLeft) (.inl hRight)
    · exact .identityRelation hAttr hBasic hKids (.inl hLeft) (.inr hRight)
    · exact .identityRelation hAttr hBasic hKids (.inr hLeft) (.inl hRight)
  · simp at hUnit

private theorem shape_of_widening (hAttr : node.attr = .widening)
    (hUnit : widening tree unit query node mode = .ok true) :
    Shape tree (accepted unit) query id node mode := by
  simp only [widening] at hUnit
  split at hUnit
  · simp at hUnit
  · rename_i op hSub
    simp only [bind_eq_ok] at hUnit
    rcases hUnit with ⟨found, hFound, hUnit⟩
    split at hUnit
    · simp at hUnit
    · rw [and_eq_true] at hUnit
      exact .widening hAttr hSub hFound hUnit.1 hUnit.2

private theorem shape_of_collateral (hNode : tree.node id = .ok node)
    (hMode : node.mode = some mode) (hAttr : node.attr = .collateralClause)
    (hUnit : collateral tree unit query id = .ok true) :
    Shape tree (accepted unit) query id node mode := by
  simp only [collateral, SyntaxTree.mode?_eq hNode, hMode,
    Walk.ok_bind, and_eq_true, bind_eq_ok] at hUnit
  rcases hUnit with ⟨hStruct, kind, hKind, hUnit⟩
  split at hUnit
  · rename_i fields
    simp only [bind_eq_ok] at hUnit
    rcases hUnit with ⟨members, hMembers, hUnit⟩
    split at hUnit
    · rename_i hLen
      rw [allM_eq_true] at hUnit
      exact .collateralClause hAttr hStruct hKind hMembers hLen hUnit
    · simp at hUnit
  · simp at hUnit

------ Judgements

theorem Query.requirement_of_isBasicAt {tier : Nat} (hBasic : query.isBasicAt tier = true) :
    query.requirement = .basic := by
  simp only [Query.isBasicAt, Bool.and_eq_true, beq_iff_eq] at hBasic
  exact hBasic.1

/- A guarded answer of yes comes from behind the guard. -/
private theorem guarded_eq_true {guard : Prop} [Decidable guard] {answer : Walk Bool}
    (hAnswer : (if guard then answer else pure false) = .ok true) : guard ∧ answer = .ok true := by
  split at hAnswer
  · exact ⟨‹_›, hAnswer⟩
  · simp at hAnswer

theorem shape_of_shape (hNode : tree.node id = .ok node) (hMode : node.mode = some mode)
    (hUnit : shape tree unit query id node mode = .ok true) :
    Shape tree (accepted unit) query id node mode := by
  unfold shape at hUnit
  split at hUnit
  · exact .denoter ‹_›
  · exact shape_of_identifier ‹_› hUnit
  · rcases guarded_eq_true hUnit with ⟨hBasic, hUnit⟩
    exact shape_of_dereferencing ‹_› hBasic hUnit
  · exact shape_of_formula ‹_› hUnit
  · exact shape_of_monadicFormula ‹_› hUnit
  · exact shape_of_call ‹_› hUnit
  · rcases guarded_eq_true hUnit with ⟨hBasic, hUnit⟩
    exact shape_of_deproceduring ‹_› hBasic hUnit
  · rcases guarded_eq_true hUnit with ⟨hBasic, hUnit⟩
    exact .slice ‹_› (Query.requirement_of_isBasicAt hBasic) (indexed_of_slice hUnit)
  · rcases guarded_eq_true hUnit with ⟨hBasic, hUnit⟩
    exact .selection ‹_› (Query.requirement_of_isBasicAt hBasic) (selected_of_selection hUnit)
  · rcases guarded_eq_true hUnit with ⟨hBasic, hUnit⟩
    exact .assignation ‹_› (Query.requirement_of_isBasicAt hBasic) (assigned_of_assignation hUnit)
  · rcases guarded_eq_true hUnit with ⟨hBasic, hUnit⟩
    exact shape_of_identityRelation ‹_› (Query.requirement_of_isBasicAt hBasic) hUnit
  · rcases guarded_eq_true hUnit with ⟨-, hUnit⟩
    simp only [and_eq_true, holdsOf_eq_true] at hUnit
    rcases hUnit with ⟨-, op, hSub, hUnit⟩
    exact .cast ‹_› hSub hUnit
  · rcases guarded_eq_true hUnit with ⟨-, hUnit⟩
    exact shape_of_widening ‹_› hUnit
  · rcases guarded_eq_true hUnit with ⟨-, hUnit⟩
    simp only [singleUnitPart, holdsOf_eq_true] at hUnit
    rcases hUnit with ⟨serial, hSub, hUnit⟩
    exact .closedClause ‹_› hSub (single_of_singleUnit hUnit)
  · rcases guarded_eq_true hUnit with ⟨-, hUnit⟩
    exact .serialClause ‹_› (single_of_singleUnit hUnit)
  · rcases guarded_eq_true hUnit with ⟨-, hUnit⟩
    exact shape_of_collateral hNode hMode ‹_› hUnit
  · rcases guarded_eq_true hUnit with ⟨hBasic, hUnit⟩
    exact .conditionalClause ‹_› (Query.requirement_of_isBasicAt hBasic)
      (chained_of_conditional hUnit)
  · simp at hUnit

/- What a judge has seen when it answers yes. -/
theorem judgement_of_judge (hUnit : judge tree unit query id = .ok true) :
    Judgement tree (accepted unit) query id := by
  simp only [judge, bind_eq_ok] at hUnit
  rcases hUnit with ⟨node, hNode, hUnit⟩
  split at hUnit
  · simp at hUnit
  · rename_i mode hMode
    split at hUnit
    · rename_i hAttr
      rcases guarded_eq_true hUnit with ⟨hBasic, hUnit⟩
      have hRequirement := Query.requirement_of_isBasicAt hBasic
      simp only [voiding] at hUnit
      split at hUnit
      · simp at hUnit
      · rename_i op hSub
        simp only [bind_eq_ok] at hUnit
        rcases hUnit with ⟨attr, hOp, hUnit⟩
        split at hUnit
        · rename_i hAssign
          subst hAssign
          exact .voidedAssignation hNode hAttr hRequirement hSub hOp (assigned_of_assignation hUnit)
        · exact .voidedUnit hNode hAttr hRequirement hSub hUnit
    · rw [and_eq_true] at hUnit
      exact .unit hNode hMode hUnit.1 (shape_of_shape hNode hMode hUnit.2)

/- A constant is accepted for its shape. -/
theorem exists_shape_of_constant (hConst : query.requirement = .constant)
    (hUnit : unitWithin tree fuel query id = .ok true) :
    ∃ less node mode, fuel = less + 1 ∧ tree.node id = .ok node ∧ node.mode = some mode ∧
      tree.modes.isFoldable mode = .ok true ∧
      Shape tree (accepted (unitWithin tree less)) query id node mode := by
  cases fuel with
  | zero => cases hUnit
  | succ fuel =>
    cases judgement_of_judge hUnit with
    | unit hNode hMode hAccepts hShape =>
      rw [hConst] at hAccepts
      exact ⟨fuel, _, _, rfl, hNode, hMode, hAccepts, hShape⟩
    | voidedAssignation _ _ hBasic | voidedUnit _ _ hBasic => cases hConst.symm.trans hBasic

end Classifier

end Algol68
