import Algol68.Inline.Declare
import Algol68.Proofs.Structure

/-
  Units that can be written.

  A form says what the passes over a unit find at a node, and which units they go on to. Every
  basic unit of a conforming tree has forms down to its constants and names.
-/

------ Names and Their Objects

namespace Algol68

@[simp] theorem SyntaxTree.violation_ne_ok (tree : SyntaxTree) (id : NodeId)
    (invariant : Invariant) (value : α) : tree.violation id invariant ≠ .ok value := by
  intro hViolation
  rcases Walk.bind_eq_ok.mp hViolation with ⟨node, -, hThrow⟩
  cases hThrow

variable {tree : SyntaxTree}

namespace Inline

variable {id : NodeId}

theorem modeOf_eq (hNode : tree.node id = .ok node) (hMode : node.mode = some mode) :
    modeOf tree id = .ok mode := by
  simp [modeOf, SyntaxTree.mode?_eq hNode, hMode]

theorem exists_node_of_modeOf (hMode : modeOf tree id = .ok mode) :
    ∃ node, tree.node id = .ok node ∧ node.mode = some mode := by
  rcases Walk.bind_eq_ok.mp hMode with ⟨found, hFound, hMode⟩
  rcases Walk.bind_eq_ok.mp hFound with ⟨node, hNode, hFound⟩
  cases hFound
  refine ⟨node, hNode, ?_⟩
  cases hCase : node.mode with
  | none => simp [hCase] at hMode
  | some other =>
    simp only [hCase, Walk.pure_eq_ok, Except.ok.injEq] at hMode
    rw [hMode]

theorem modeOf_lt (hTree : tree.IsRegular) (hMode : modeOf tree id = .ok mode) :
    mode.number < tree.modes.size := by
  rcases exists_node_of_modeOf hMode with ⟨node, hNode, hMode⟩
  exact hTree.inRange.mode_lt hNode hMode

theorem childOf_eq (hKids : tree.children id = .ok kids) (hKid : kids[pos]? = some kid) :
    childOf tree id pos = .ok kid := by
  simp [childOf, SyntaxTree.child?_eq hKids, hKid]

variable (hTree : tree.IsRegular) (hNode : tree.node id = .ok node)
variable (hAttr : node.attr = .identifier)

include hTree hNode hAttr

theorem exists_tagOf :
    ∃ tag entry, tagOf tree id = .ok (tag, entry) ∧ tree.tags.fetch tag = .ok entry ∧
        node.mode = some entry.mode := by
  rcases hTree.named id node hNode hAttr with ⟨tag, entry, hTag, hEntry, hMode⟩
  refine ⟨tag, entry, ?_, hEntry, hMode⟩
  simp [tagOf, hNode, hTag, hEntry]

theorem fetchOf_ends : (fetchOf tree id).Ends := by
  rcases exists_tagOf hTree hNode hAttr with ⟨tag, entry, hTag, hEntry, -⟩
  refine .bind ⟨_, hTag⟩ ?_
  rintro ⟨found, other⟩ hFound
  rw [hTag, Except.ok.injEq, Prod.mk.injEq] at hFound
  rcases hFound with ⟨rfl, rfl⟩
  refine .bind (ModeTable.objectClass_ends (hTree.inRange.tagMode_lt hEntry)) ?_
  intro _ _
  exact .of_pure

/- An identifier of a reference refers to an object. -/
theorem derefOf_ends (hMode : node.mode = some mode)
    (hObj : tree.modes.deref? mode = .ok (some object)) : (derefOf tree id).Ends := by
  rcases exists_tagOf hTree hNode hAttr with ⟨tag, entry, hTag, hEntry, hSame⟩
  cases hMode.symm.trans hSame
  have hRange : object.number < tree.modes.size := hTree.inRange.modes.deref_lt hObj
  refine .bind ⟨_, hTag⟩ ?_
  rintro ⟨found, other⟩ hFound
  rw [hTag, Except.ok.injEq, Prod.mk.injEq] at hFound
  rcases hFound with ⟨rfl, rfl⟩
  simp only [hObj, Walk.ok_bind]
  refine .bind (ModeTable.objectClass_ends hRange) ?_
  intro _ _
  exact .of_pure

omit hTree hNode hAttr

theorem exists_deref_of_isRef (hRef : tree.modes.isRef mode = .ok true) :
    ∃ object, tree.modes.deref? mode = .ok (some object) := by
  rcases Walk.bind_eq_ok.mp hRef with ⟨kind, hKind, hRef⟩
  cases kind <;>
    simp [ModeKind.isRef, ModeTable.deref?, hKind] at hRef ⊢

/- The row or structure that an identifier stands for. -/
theorem baseOf_ends (hTree : tree.IsRegular) (hNode : tree.node id = .ok node)
    (hAttr : node.attr = .identifier) : (baseOf tree id).Ends := by
  rcases exists_tagOf hTree hNode hAttr with ⟨tag, entry, -, -, hMode⟩
  refine .bind ⟨_, modeOf_eq hNode hMode⟩ ?_
  intro mode hFound
  have hRange := modeOf_lt hTree hFound
  rw [modeOf_eq hNode hMode, Except.ok.injEq] at hFound
  refine .bind (ModeTable.isRef_ends hRange) ?_
  rintro (_ | _) hRef
  · exact fetchOf_ends hTree hNode hAttr
  · rcases exists_deref_of_isRef hRef with ⟨object, hObj⟩
    exact derefOf_ends hTree hNode hAttr (hFound ▸ hMode) hObj

------ Elements and Fields

open Classifier

include hTree hNode

theorem children_eq_of_count (hCount : node.attr.childCount? = some count)
    (hKids : tree.firstChildren id count = .ok kids) : tree.children id = .ok kids := by
  rcases hTree.shaped.exists_children_length hNode hCount with ⟨found, hFound, hLen⟩
  rw [SyntaxTree.firstChildren_eq hFound, List.take_of_length_le hLen.le, Except.ok.injEq] at hKids
  rw [← hKids]
  exact hFound

theorem exists_elementOf (hAttr : node.attr = .slice) (hIndexed : Indexed tree accepts query id) :
    ∃ elem base, elementOf tree id = .ok elem ∧ tree.attr elem.primary = .ok .identifier ∧
      baseOf tree elem.primary = .ok base ∧ ∀ index ∈ elem.indices, tree.IsPart id index ∧
          accepts query.ofIndices index := by
  rcases hIndexed with ⟨hParts, hNamed, hName, hMode, hElem, -, -, -, hIndexer, -,
      hIndices, -, hAccepted⟩
  rename_i primary index named indexer mode elem _ indices
  have hKids : tree.children id = .ok [primary, index] :=
    children_eq_of_count hTree hNode (by rw [hAttr]; rfl) hParts
  rcases exists_tagOf hTree hNamed hName with ⟨tag, entry, hTag, -, hSame⟩
  cases hMode.symm.trans hSame
  rcases ModeTable.objectClass_ends (hTree.inRange.modes.rowElement_lt hElem) with
    ⟨storage, hStorage⟩
  rcases hTree.isLinked.pieces_ends hIndexer with ⟨print, hPrint⟩
  rcases baseOf_ends hTree hNamed hName with ⟨base, hBase⟩
  refine ⟨⟨⟨⟨.slice, bookingName tag entry, some ⟨index, print⟩⟩,
    Text.identifier entry.name ++ "_elem", storage, id⟩, primary, indices⟩, base, ?_, ?_, hBase, ?_⟩
  · simp [elementOf, childOf_eq hKids, hTag, hElem, hStorage, Payload.ofNode, hPrint, hIndices]
  · rw [SyntaxTree.attr_eq hNamed, hName]
  · intro entry hEntry
    rcases hAccepted entry hEntry with ⟨_, -, -, -, hEntryAccepted⟩
    have hInner : tree.IsPart id index := hTree.isLinked.isPart_of_child hKids (by simp)
    exact ⟨hInner.trans (hTree.isLinked.isPart_of_child hIndices hEntry), hEntryAccepted⟩

theorem exists_componentOf (hAttr : node.attr = .selection) (hSelected : Selected tree id) :
    ∃ component base, componentOf tree id = .ok component ∧
      tree.attr component.secondary = .ok .identifier ∧
      baseOf tree component.secondary = .ok base := by
  rcases hSelected with ⟨hParts, hNamed, hName, hMode, hTarget, hSel, hField⟩
  rename_i sel secondary named inner mode target field
  have hKids : tree.children id = .ok [sel, secondary] :=
    children_eq_of_count hTree hNode (by rw [hAttr]; rfl) hParts
  rcases exists_tagOf hTree hNamed hName with ⟨tag, entry, hTag, -, hSame⟩
  cases hMode.symm.trans hSame
  rcases ModeTable.objectClass_ends (hTree.inRange.modes.field_lt hField) with ⟨storage, hStorage⟩
  rcases hTree.isLinked.pieces_ends hSel with ⟨print, hPrint⟩
  rcases baseOf_ends hTree hNamed hName with ⟨base, hBase⟩
  refine ⟨⟨⟨⟨.selection, bookingName tag entry, some ⟨sel, print⟩⟩,
    Text.identifier entry.name ++ "_" ++ Text.identifier inner.symbol, storage, id⟩, secondary,
      target.getD entry.mode, field.1⟩, base, ?_, ?_, hBase⟩
  · simp [componentOf, childOf_eq hKids, hTag, hSel, hTarget,
      hField, hStorage, Payload.ofNode, hPrint]
  · rw [SyntaxTree.attr_eq hNamed, hName]

omit hTree hNode

------ Forms

/- The array of bytes that a display is built in. -/
def bytesResult (display : Display) (id : NodeId) (size : Nat) : Result where
  temp := display.temp id
  storage := "BYTE_T"
  declarator := (display.temp id).text ++ "[" ++ toString size ++ "]"

/- The temporary that keeps the result of a node. -/
inductive HasResult (tree : SyntaxTree) (checked : Bool) (id : NodeId) : Result → Prop
  | operation {operation : Operation} {result : Result} (hAttr : tree.attr id = .ok .formula ∨
        tree.attr id = .ok .monadicFormula ∨ tree.attr id = .ok .call)
      (hOperation : operationOf tree checked id = .ok operation)
      (hResult : operation.result = some result) :
      HasResult tree checked id result
  | procedure {result : Result} (hAttr : tree.attr id = .ok .deproceduring)
      (hResult : plainResult tree id = .ok result) :
      HasResult tree checked id result
  | widening {operand : NodeId} (hAttr : tree.attr id = .ok .widening)
      (hWidening : wideningOf tree id = .ok (operand, true)) :
      HasResult tree checked id (pairResult id)
  | pair {display : Display} (hAttr : tree.attr id = .ok .collateralClause)
      (hDisplay : displayOf tree id = .ok display) (hComplex : display.isComplex = true) :
      HasResult tree checked id (pairResult id)
  | bytes {display : Display} {size : Nat} (hAttr : tree.attr id = .ok .collateralClause)
      (hDisplay : displayOf tree id = .ok display) (hComplex : display.isComplex = false)
      (hSize : tree.modes.byteSize display.mode = .ok size) :
      HasResult tree checked id (bytesResult display id size)

namespace HasResult

variable (hResult : HasResult tree checked id result)

include hResult

theorem of_operation (hAttr : tree.attr id = .ok attr)
    (hShape : attr = .formula ∨ attr = .monadicFormula ∨ attr = .call) {operation : Operation}
    (hOperation : operationOf tree checked id = .ok operation) :
    operation.result = some result := by
  cases hResult with
  | operation _ hFound hSome =>
    rw [hOperation, Except.ok.injEq] at hFound
    exact hFound ▸ hSome
  | procedure hOther | widening hOther | pair hOther
  | bytes hOther =>
    cases hAttr.symm.trans hOther
    simp at hShape

theorem of_procedure (hAttr : tree.attr id = .ok .deproceduring) :
    plainResult tree id = .ok result := by
  cases hResult with
  | operation hOther | widening hOther | pair hOther | bytes hOther => simp [hAttr] at hOther
  | procedure _ hPlain => exact hPlain

/- A widening keeps its result only if it is complex. -/
theorem of_widening (hAttr : tree.attr id = .ok .widening)
    (hWidening : wideningOf tree id = .ok (op, isComplex)) :
    isComplex = true ∧ result = pairResult id := by
  cases hResult with
  | operation hOther | procedure hOther | pair hOther | bytes hOther => simp [hAttr] at hOther
  | widening _ hFound =>
    rw [hWidening, Except.ok.injEq, Prod.mk.injEq] at hFound
    exact ⟨hFound.2, rfl⟩

/- A display is built in an array of one of two kinds. -/
theorem of_display (hAttr : tree.attr id = .ok .collateralClause)
    (hDisplay : displayOf tree id = .ok display) :
    (display.isComplex = true ∧ result = pairResult id) ∨ (display.isComplex = false ∧ ∃ size,
        tree.modes.byteSize display.mode = .ok size ∧ result = bytesResult display id size) := by
  cases hResult with
  | operation hOther | procedure hOther | widening hOther => simp [hAttr] at hOther
  | pair _ hFound hComplex =>
    rw [hDisplay, Except.ok.injEq] at hFound
    exact .inl ⟨hFound ▸ hComplex, rfl⟩
  | bytes _ hFound hComplex hSize =>
    cases hDisplay.symm.trans hFound
    exact .inr ⟨hComplex, _, hSize, rfl⟩

end HasResult

/-
  The constants that have values, the addresses that have temporaries, the modes whose size is
  known, and the names that are declared.
-/
structure Ready where
  constant : NodeId → Prop
  address : Address → Prop
  size : ModeId → Prop
  checked : Bool
  name : String → String → Prop

namespace Ready

/- Everything is ready. -/
def all : Ready where
  constant := fun _ => True
  address := fun _ => True
  size := fun _ => True
  checked := false
  name := fun _ _ => True

/- The result of a node has a temporary. -/
def Keeps (ready : Ready) (tree : SyntaxTree) (id : NodeId) : Prop :=
  ∀ result, HasResult tree ready.checked id result → ready.name result.storage result.declarator

theorem keeps_all (tree : SyntaxTree) (id : NodeId) : Ready.all.Keeps tree id := fun _ _ => trivial

end Ready

variable (tree : SyntaxTree) (ready : Ready) (part : NodeId → Prop)

/- The object that a name, a slice or a selection designates. -/
inductive Addressed (id : NodeId) : Prop
  | name {named : Named} (hAttr : tree.attr id = .ok .identifier)
      (hNamed : derefOf tree id = .ok named) (hReady : ready.address named.pointer.address)
  | element {element : Element} {base : Named} (hAttr : tree.attr id = .ok .slice)
      (hElement : elementOf tree id = .ok element)
      (hPrimary : tree.attr element.primary = .ok .identifier)
      (hBase : baseOf tree element.primary = .ok base)
      (hBaseReady : ready.address base.pointer.address)
      (hIndices : ∀ index ∈ element.indices, part index)
      (hReady : ready.address element.pointer.address)
  | component {component : Component} {base : Named} (hAttr : tree.attr id = .ok .selection)
      (hComponent : componentOf tree id = .ok component)
      (hSecondary : tree.attr component.secondary = .ok .identifier)
      (hBase : baseOf tree component.secondary = .ok base)
      (hBaseReady : ready.address base.pointer.address)
      (hReady : ready.address component.pointer.address)

/- What the passes find at a unit that is no constant. -/
inductive Form (id : NodeId) (node : Node) : Prop
  | name {named : Named} {mode : ModeId} (hAttr : node.attr = .identifier)
      (hMode : modeOf tree id = .ok mode) (hNamed : fetchOf tree id = .ok named)
      (hReady : ready.address named.pointer.address)
  | dereferencing {operand : NodeId} {mode : ModeId} (hAttr : node.attr = .dereferencing)
      (hMode : modeOf tree id = .ok mode) (hOperand : childOf tree id 0 = .ok operand)
      (hAddressed : Addressed tree ready part operand)
  | object {mode : ModeId} (hAttr : node.attr = .slice ∨ node.attr = .selection)
      (hMode : modeOf tree id = .ok mode) (hAddressed : Addressed tree ready part id)
  | operation {builtin : Builtin} {operands : List NodeId} {mode : ModeId}
      (hAttr : node.attr = .formula ∨ node.attr = .monadicFormula ∨ node.attr = .call)
      (hMode : modeOf tree id = .ok mode) (hKeeps : ready.Keeps tree id)
      (hOperands : operandsOf tree id = .ok (builtin, operands))
      (hParts : ∀ operand ∈ operands, part operand)
  | procedure {builtin : Builtin} {mode : ModeId} (hAttr : node.attr = .deproceduring)
      (hMode : modeOf tree id = .ok mode) (hKeeps : ready.Keeps tree id)
      (hProcedure : procedureOf tree id = .ok builtin)
  | enclosed {only : NodeId} (hAttr : node.attr = .cast ∨ node.attr = .closedClause ∨
        node.attr = .serialClause ∨ node.attr = .voiding)
      (hOnly : tree.children id = .ok [only]) (hPart : part only)
  | widening {operand : NodeId} {isComplex : Bool} (hAttr : node.attr = .widening)
      (hKeeps : ready.Keeps tree id) (hWidening : wideningOf tree id = .ok (operand, isComplex))
      (hPart : part operand)
  | relation {relation : Relation} (hAttr : node.attr = .identityRelation)
      (hRelation : relationOf tree id = .ok relation) (hLeft : part relation.left)
      (hRight : part relation.right)
  | nihil (hAttr : node.attr = .nihil)
  | choice {choice : Choice} (hAttr : node.attr = .conditionalClause ∨ node.attr = .elifPart)
      (hChoice : choiceOf tree id = .ok choice) (hGuard : part choice.guard)
      (hYes : part choice.yes) (hNo : part choice.no)
  | display {display : Display} {fields : List Field} (hAttr : node.attr = .collateralClause)
      (hMode : modeOf tree id = .ok display.mode) (hKeeps : ready.Keeps tree id)
      (hSize : display.isComplex = false → ready.size display.mode)
      (hDisplay : displayOf tree id = .ok display)
      (hFields : tree.modes.kind display.mode = .ok (.struct fields))
      (hCount : display.members.length = fields.length) (hSome : fields ≠ [])
      (hMembers : ∀ member ∈ display.members, part member)
  | assignation {destination source : NodeId} {mode : ModeId} (hAttr : node.attr = .assignation)
      (hAssignation : assignationOf tree id = .ok (destination, source))
      (hMode : modeOf tree source = .ok mode) (hSource : part source)
      (hAddressed : Addressed tree ready part destination)

/-
  A unit that can be written down to `fuel` levels: a constant
  that is ready, or a form whose parts can be written.
-/
def WritableWithin : Nat → NodeId → Prop
  | 0, _ => False
  | fuel + 1, id => ∃ node, tree.node id = .ok node ∧
      (isFolded tree id node = .ok true ∧ ready.constant id ∨ isFolded tree id node = .ok false ∧
          Form tree ready (WritableWithin fuel) id node)

/- A unit that can be written. -/
def Writable (id : NodeId) : Prop := WritableWithin tree ready tree.bound id

end Inline

------ Accepted Units

namespace Inline

open Classifier

variable {id : NodeId}
variable (hTree : tree.IsRegular) (hNode : tree.node id = .ok node)

include hTree hNode

theorem isFolded_ends : (isFolded tree id node).Ends := by
  unfold isFolded
  split
  · exact .of_pure
  · exact .of_pure
  · exact .of_pure
  · exact .of_pure
  · exact hTree.isFinite.isConstant_ends hNode

theorem writableWithin_succ (hForm : isFolded tree id node = .ok false →
      Form tree .all (WritableWithin tree .all depth) id node) :
    WritableWithin tree .all (depth + 1) id := by
  refine ⟨node, hNode, ?_⟩
  rcases isFolded_ends hTree hNode with ⟨_ | _, hFolded⟩
  · exact .inr ⟨hFolded, hForm hFolded⟩
  · exact .inl ⟨hFolded, trivial⟩

theorem childOf_of_sub (hSub : node.sub = some only) : childOf tree id 0 = .ok only := by
  rcases hTree.children_ends hNode with ⟨kids, hKids⟩
  refine childOf_eq hKids ?_
  rw [← List.head?_eq_getElem?, ← SyntaxTree.sub_eq_head? hNode hKids]
  exact hSub

omit hTree hNode

/- All accepted units can be written as deep as they go. -/
def AcceptedWritable (tree : SyntaxTree) (accepts : Accepts) : Prop :=
  ∀ asked part depth, asked.requirement = .basic → accepts asked part → tree.rank part < depth →
      WritableWithin tree .all depth part

theorem writableWithin_of_single (hTree : tree.IsRegular) (hUnits : AcceptedWritable tree accepts)
    (hBasic : query.requirement = .basic) (hSingle : Single tree accepts query serial)
    (hDepth : tree.rank serial < depth) : WritableWithin tree .all depth serial := by
  rcases hSingle.exists_children hTree.shaped with ⟨node, only, hNode, hAttr, hKids, hOnly⟩
  rcases depth with _ | less
  · omega
  refine writableWithin_succ hTree hNode ?_
  intro _
  refine .enclosed (by simp [hAttr]) hKids (hUnits query only less hBasic hOnly ?_)
  have hPart := hTree.isLinked.isPart_of_child hKids List.mem_cons_self
  have := hPart.rank_lt
  omega

/- The serial clause in a part of a clause, and its place. -/
private theorem serialOf_part (hTree : tree.IsRegular) (hKids : tree.children id = .ok kids)
    (hPart : kids[pos]? = some part) (hSerial : tree.sub? part = .ok (some serial)) :
    childOf tree id pos = .ok part ∧ childOf tree part 0 = .ok serial ∧ tree.IsPart id serial := by
  have hInner : tree.IsPart id part :=
    hTree.isLinked.isPart_of_child hKids (List.mem_of_getElem? hPart)
  rcases hInner.exists_node with ⟨node, hNode⟩
  have hSub : node.sub = some serial := by simpa [SyntaxTree.sub?, hNode] using hSerial
  exact ⟨childOf_eq hKids hPart, childOf_of_sub hTree hNode hSub,
    hInner.trans (hTree.isLinked.isPart_of_sub hNode hSub)⟩

/- The guard and the first branch of a conditional clause. -/
private theorem guardAndBranch_of_parts (hTree : tree.IsRegular) (hNode : tree.node id = .ok node)
    {guard : NodeId} (hParts : tree.firstChildren id 2 = .ok [ifPart, thenPart])
    (hIf : tree.sub? ifPart = .ok (some guard)) (hThen : tree.sub? thenPart = .ok (some yes)) :
    (childOf tree id 0 = .ok ifPart ∧ childOf tree ifPart 0 = .ok guard ∧ tree.IsPart id guard) ∧
      childOf tree id 1 = .ok thenPart ∧ childOf tree thenPart 0 = .ok yes ∧
          tree.IsPart id yes := by
  rcases hTree.children_ends hNode with ⟨kids, hKids⟩
  rw [SyntaxTree.firstChildren_eq hKids, Except.ok.injEq] at hParts
  have hFirst : kids[0]? = some ifPart := by
    rw [← List.getElem?_take_of_lt (Nat.zero_lt_two), hParts]
    rfl
  have hSecond : kids[1]? = some thenPart := by
    rw [← List.getElem?_take_of_lt (Nat.one_lt_two), hParts]
    rfl
  exact ⟨serialOf_part hTree hKids hFirst hIf, serialOf_part hTree hKids hSecond hThen⟩

/- What a chain of conditions chooses from. -/
theorem exists_choiceOf (hTree : tree.IsRegular) (hChained : Chained tree accepts query id)
    (hNode : tree.node id = .ok node) :
    ∃ choice, choiceOf tree id = .ok choice ∧
      (tree.IsPart id choice.guard ∧ Single tree accepts query choice.guard ∧
        tree.mode? choice.guard = .ok (some tree.modes.standard.bool)) ∧
      (tree.IsPart id choice.yes ∧ Single tree accepts query choice.yes) ∧
      tree.IsPart id choice.no ∧ (Single tree accepts query choice.no ∨
        tree.attr choice.no = .ok .elifPart ∧ Chained tree accepts query choice.no) := by
  rcases hTree.children_ends hNode with ⟨kids, hKids⟩
  cases hChained with
  | @last _ _ _ _ guard yes no hParts hIf hMode hGuard hThen hYes hTail hElse hElseSub hNo =>
    rw [SyntaxTree.child?_eq hKids, Except.ok.injEq] at hTail
    rcases guardAndBranch_of_parts hTree hNode hParts hIf hThen
      with ⟨⟨hIfChild, hGuardChild, hGuardPart⟩, hThenChild, hYesChild, hYesPart⟩
    rcases serialOf_part hTree hKids hTail hElseSub with ⟨hElseChild, hNoChild, hNoPart⟩
    refine ⟨⟨guard, yes, no⟩, ?_, ⟨hGuardPart, hGuard, hMode⟩, ⟨hYesPart, hYes⟩, hNoPart, .inl hNo⟩
    simp [choiceOf, hIfChild, hGuardChild, hThenChild, hYesChild, hElseChild, hElse, hNoChild]
  | @more _ _ _ elifPart guard yes hParts hIf hMode hGuard hThen hYes hTail hElif hRest =>
    rw [SyntaxTree.child?_eq hKids, Except.ok.injEq] at hTail
    rcases guardAndBranch_of_parts hTree hNode hParts hIf hThen
      with ⟨⟨hIfChild, hGuardChild, hGuardPart⟩, hThenChild, hYesChild, hYesPart⟩
    refine ⟨⟨guard, yes, elifPart⟩, ?_, ⟨hGuardPart, hGuard, hMode⟩, ⟨hYesPart, hYes⟩,
      hTree.isLinked.isPart_of_child hKids (List.mem_of_getElem? hTail), .inr ⟨hElif, hRest⟩⟩
    simp [choiceOf, hIfChild, hGuardChild, hThenChild, hYesChild, childOf_eq hKids hTail, hElif]

/- A chain of conditions, from any of its links on. -/
theorem writableWithin_of_chained (hTree : tree.IsRegular) (hUnits : AcceptedWritable tree accepts)
    (hBasic : query.requirement = .basic) (hChained : Chained tree accepts query id)
    (hNode : tree.node id = .ok node)
    (hAttr : node.attr = .conditionalClause ∨ node.attr = .elifPart)
    (hDepth : tree.rank id < depth + 1) : WritableWithin tree .all (depth + 1) id := by
  induction depth generalizing id node with
  | zero =>
    rcases exists_choiceOf hTree hChained hNode with ⟨choice, -, ⟨hPart, -⟩, -⟩
    have := hPart.rank_lt
    omega
  | succ depth ih =>
    rcases exists_choiceOf hTree hChained hNode with
      ⟨choice, hChoice, ⟨hGuardPart, hGuard, -⟩, ⟨hYesPart, hYes⟩, hNoPart, hNo⟩
    have hSerial (serial : NodeId) (hPart : tree.IsPart id serial)
        (hSingle : Single tree accepts query serial) :
        WritableWithin tree .all (depth + 1) serial := by
      have := hPart.rank_lt
      exact writableWithin_of_single hTree hUnits hBasic hSingle (by omega)
    refine writableWithin_succ hTree hNode ?_
    intro _
    refine .choice hAttr hChoice (hSerial _ hGuardPart hGuard) (hSerial _ hYesPart hYes) ?_
    rcases hNo with hNo | ⟨hElif, hRest⟩
    · exact hSerial _ hNoPart hNo
    · rcases attr_eq_ok.mp hElif with ⟨inner, hInner, hInnerAttr⟩
      have := hNoPart.rank_lt
      exact ih hRest hInner (.inr hInnerAttr) (by omega)

section Parts

include hTree hNode

theorem addressed_of_indexed (hAttr : node.attr = .slice) (hIndexed : Indexed tree accepts query id)
    (hParts : ∀ index, tree.IsPart id index → accepts query.ofIndices index → part index) :
    Addressed tree .all part id := by
  rcases exists_elementOf hTree hNode hAttr hIndexed with
    ⟨elem, base, hElem, hPrimary, hBase, hIndices⟩
  refine .element (by rw [SyntaxTree.attr_eq hNode, hAttr]) hElem hPrimary hBase trivial ?_ trivial
  intro index hIdx
  rcases hIndices index hIdx with ⟨hPart, hAccepted⟩
  exact hParts index hPart hAccepted

theorem addressed_of_selected (hAttr : node.attr = .selection) (hSelected : Selected tree id) :
    Addressed tree .all part id := by
  rcases exists_componentOf hTree hNode hAttr hSelected with
    ⟨component, base, hComp, hSecondary, hBase⟩
  exact .component (by rw [SyntaxTree.attr_eq hNode, hAttr]) hComp hSecondary hBase trivial trivial

theorem addressed_of_name (hAttr : node.attr = .identifier) (hMode : node.mode = some mode)
    (hObj : tree.modes.deref? mode = .ok (some object)) : Addressed tree .all part id := by
  rcases derefOf_ends hTree hNode hAttr hMode hObj with ⟨named, hNamed⟩
  exact .name (by rw [SyntaxTree.attr_eq hNode, hAttr]) hNamed trivial

theorem form_of_assigned (hAttr : node.attr = .assignation)
    (hAssigned : Assigned tree accepts query id) (hBasic : query.requirement = .basic)
    (hParts : ∀ asked inner, asked.requirement = .basic →
      tree.IsPart id inner → accepts asked inner → part inner) :
    Form tree .all part id node := by
  rcases hAssigned with ⟨hFirst, hTarget, hSrc, hObj, hDesignated, hAccepted⟩
  rename_i target source targetMode sourceMode
  have hKids : tree.children id = .ok [target, source] :=
    children_eq_of_count hTree hNode (by rw [hAttr]; rfl) hFirst
  have hTargetPart : tree.IsPart id target := hTree.isLinked.isPart_of_child hKids (by simp)
  have hSourcePart : tree.IsPart id source := hTree.isLinked.isPart_of_child hKids (by simp)
  have hAddressed : Addressed tree .all part target := by
    cases hDesignated with
    | @name inner hInner hInnerAttr _ _ =>
      have hMode : inner.mode = some targetMode := by
        simpa [SyntaxTree.mode?_eq hInner] using hTarget
      exact addressed_of_name hTree hInner hInnerAttr hMode hObj
    | slice hSliceAttr hSlice =>
      rcases attr_eq_ok.mp hSliceAttr with ⟨inner, hInner, hInnerAttr⟩
      refine addressed_of_indexed hTree hInner hInnerAttr hSlice ?_
      intro index hIdx
      exact hParts query.ofIndices index rfl (hTargetPart.trans hIdx)
    | selection hSelectionAttr hSelection =>
      rcases attr_eq_ok.mp hSelectionAttr with ⟨inner, hInner, hInnerAttr⟩
      exact addressed_of_selected hTree hInner hInnerAttr hSelection
  have hAssign : assignationOf tree id = .ok (target, source) := by
    simp [assignationOf, childOf_eq hKids]
  have hMode : modeOf tree source = .ok sourceMode := by simp [modeOf, hSrc]
  exact .assignation hAttr hAssign hMode
    (hParts query source hBasic hSourcePart hAccepted) hAddressed

/- The operands of an accepted operation. -/
theorem exists_operandsOf (hShape : Shape tree accepts query id node mode)
    (hOperation : node.attr ∈ [.formula, .monadicFormula, .call]) :
    ∃ builtin operands, operandsOf tree id = .ok (builtin, operands) ∧
      ∀ operand ∈ operands, tree.IsPart id operand ∧ accepts query operand := by
  have hRead := SyntaxTree.attr_eq hNode
  have hPart {kids : List NodeId} (hKids : tree.children id = .ok kids) :
      ∀ kid ∈ kids, tree.IsPart id kid :=
    fun _ => hTree.isLinked.isPart_of_child hKids
  cases hShape with
  | @formula left operator right builtin hAttr hFirst hBuiltin _ hLeft hRight =>
    have hKids := children_eq_of_count hTree hNode (by rw [hAttr]; rfl) hFirst
    exact ⟨builtin, [left, right], by simp [operandsOf, hKids, hRead, hAttr, hBuiltin], by simp_all⟩
  | @monadicFormula operator operand builtin hAttr hFirst hBuiltin _ hOp =>
    have hKids := children_eq_of_count hTree hNode (by rw [hAttr]; rfl) hFirst
    exact ⟨builtin, [operand], by simp [operandsOf, hKids, hRead, hAttr, hBuiltin], by simp_all⟩
  | @call callee args builtin hAttr hKids hBuiltin _ _ hArgs =>
    exact ⟨builtin, args, by simp [operandsOf, hKids, hRead, hAttr, hBuiltin],
      fun arg hArg => ⟨hPart hKids _ (List.mem_cons_of_mem _ hArg), hArgs arg hArg⟩⟩
  | _ => simp_all

omit hTree hNode

/- What the units below a node are assumed to be. -/
structure HasParts (tree : SyntaxTree) (accepts : Accepts) (query : Query) (part : NodeId → Prop)
    (id : NodeId) : Prop where
  units : ∀ asked inner, asked.requirement = .basic →
    tree.IsPart id inner → accepts asked inner → part inner
  serials : ∀ serial, tree.IsPart id serial → Single tree accepts query serial → part serial
  names : ∀ name, tree.IsPart id name → (isReferenceName tree name = .ok true ∨
      tree.is name .nihil = .ok true) → part name

/- The form of an accepted unit, conditional clauses apart. -/
theorem form_of_shape (hTree : tree.IsRegular) (hNode : tree.node id = .ok node)
    (hMode : node.mode = some mode) (hFolded : isFolded tree id node = .ok false)
    (hBasic : query.requirement = .basic) (hShape : Shape tree accepts query id node mode)
    (hChoice : node.attr ≠ .conditionalClause) (hParts : HasParts tree accepts query part id) :
    Form tree .all part id node := by
  have hUnitMode : modeOf tree id = .ok mode := modeOf_eq hNode hMode
  have hSubPart : ∀ only, node.sub = some only →
      childOf tree id 0 = .ok only ∧ tree.IsPart id only :=
    fun only hSub => ⟨childOf_of_sub hTree hNode hSub, hTree.isLinked.isPart_of_sub hNode hSub⟩
  by_cases hOther : node.attr ∈ [.formula, .monadicFormula, .call]
  · rcases exists_operandsOf hTree hNode hShape hOther with ⟨builtin, operands, hOps, hAll⟩
    refine .operation (by simpa using hOther) hUnitMode (Ready.keeps_all tree id) hOps ?_
    intro operand hOp
    rcases hAll operand hOp with ⟨hPart, hAccepted⟩
    exact hParts.units query operand hBasic hPart hAccepted
  cases hShape with
  | denoter hAttr => simp [isFolded, hAttr] at hFolded
  | builtinName hAttr | frameName hAttr =>
    rcases fetchOf_ends hTree hNode hAttr with ⟨named, hNamed⟩
    exact .name hAttr hUnitMode hNamed trivial
  | constantName _ hConst => simp [hBasic] at hConst
  | formula hAttr | monadicFormula hAttr | call hAttr => exact absurd (by simp [hAttr]) hOther
  | @dereferencing operand inner reference hAttr _ hSub hInner hInnerMode hRef hOp =>
    rcases hSubPart operand hSub with ⟨hChild, hPart⟩
    have hAddressed : Addressed tree .all part operand := by
      cases hOp with
      | name hInnerAttr =>
        rcases exists_deref_of_isRef hRef with ⟨object, hObj⟩
        exact addressed_of_name hTree hInner hInnerAttr hInnerMode hObj
      | slice hInnerAttr hSlice =>
        refine addressed_of_indexed hTree hInner hInnerAttr hSlice ?_
        intro index hIdx
        exact hParts.units query.ofIndices index rfl (hPart.trans hIdx)
      | selection hInnerAttr hSelection =>
        exact addressed_of_selected hTree hInner hInnerAttr hSelection
    exact .dereferencing hAttr hUnitMode hChild hAddressed
  | @deproceduring operand builtin hAttr _ hSub hBuiltin _ =>
    have hProc : procedureOf tree id = .ok builtin := by
      simp [procedureOf, (hSubPart operand hSub).1, hBuiltin]
    exact .procedure hAttr hUnitMode (Ready.keeps_all tree id) hProc
  | slice hAttr _ hSlice =>
    refine .object (.inl hAttr) hUnitMode (addressed_of_indexed hTree hNode hAttr hSlice ?_)
    intro index hIdx
    exact hParts.units query.ofIndices index rfl hIdx
  | selection hAttr _ hSelection =>
    exact .object (.inr hAttr) hUnitMode (addressed_of_selected hTree hNode hAttr hSelection)
  | assignation hAttr _ hAssigned =>
    exact form_of_assigned hTree hNode hAttr hAssigned hBasic hParts.units
  | @identityRelation left operator right hAttr _ hFirst hLeft hRight =>
    have hKids : tree.children id = .ok [left, operator, right] :=
      children_eq_of_count hTree hNode (by rw [hAttr]; rfl) hFirst
    rcases SyntaxTree.exists_node_of_child hKids (by simp : operator ∈ _) with ⟨sign, hSign⟩
    have hRel : relationOf tree id = .ok ⟨left, sign.attr == .is, right⟩ := by
      simp [relationOf, childOf_eq hKids, SyntaxTree.is_eq hSign]
    exact .relation hAttr hRel (hParts.names left
        (hTree.isLinked.isPart_of_child hKids (by simp)) hLeft)
      (hParts.names right (hTree.isLinked.isPart_of_child hKids (by simp)) hRight)
  | @cast operand hAttr hSub hOp =>
    exact .enclosed (.inl hAttr) (hTree.shaped.children_eq_of_sub hNode (by rw [hAttr]; rfl)
        hSub) (hParts.units query operand hBasic (hSubPart operand hSub).2 hOp)
  | @widening operand source hAttr hSub _ _ hOp =>
    rcases hSubPart operand hSub with ⟨hChild, hPart⟩
    have hWidening : wideningOf tree id = .ok (operand, tree.modes.isComplex mode) := by
      simp [wideningOf, hChild, hUnitMode]
    exact .widening hAttr (Ready.keeps_all tree id) hWidening
      (hParts.units query operand hBasic hPart hOp)
  | @closedClause serial hAttr hSub hSerial =>
    exact .enclosed (.inr (.inl hAttr)) (hTree.shaped.children_eq_of_sub hNode (by rw [hAttr]; rfl)
        hSub) (hParts.serials serial (hSubPart serial hSub).2 hSerial)
  | serialClause hAttr hSerial =>
    rcases hSerial.exists_children hTree.shaped with ⟨_, only, _, _, hKids, hOnly⟩
    exact .enclosed (.inr (.inr (.inl hAttr))) hKids (hParts.units query only hBasic
        (hTree.isLinked.isPart_of_child hKids (by simp)) hOnly)
  | @collateralClause fields members hAttr hStruct hFields hMembers hLen hAccepted =>
    have hDisplay : displayOf tree id = .ok ⟨mode, members, tree.modes.isComplex mode⟩ := by
      simp [displayOf, hUnitMode, hMembers]
    have hSome : fields ≠ [] := by
      rintro rfl
      simp [ModeTable.isBasicStruct, hFields] at hStruct
    refine .display hAttr hUnitMode (Ready.keeps_all tree id)
      (fun _ => trivial) hDisplay hFields hLen hSome ?_
    intro member hMem
    exact hParts.units query member hBasic (hTree.isLinked.isPart_of_child hMembers hMem)
      (hAccepted member hMem)
  | conditionalClause hAttr => exact absurd hAttr hChoice

end Parts

include hTree

/- A name, or nil, in an identity relation. -/
theorem writableWithin_of_name
    (hName : isReferenceName tree id = .ok true ∨ tree.is id .nihil = .ok true) (depth : Nat) :
    WritableWithin tree .all (depth + 1) id := by
  rcases hName with hName | hNil
  · rcases Walk.bind_eq_ok.mp hName with ⟨node, hNode, hName⟩
    split at hName
    · rename_i mode hAttr hMode
      rcases fetchOf_ends hTree hNode hAttr with ⟨named, hNamed⟩
      refine writableWithin_succ hTree hNode ?_
      intro _
      exact .name hAttr (modeOf_eq hNode hMode) hNamed trivial
    · cases hName
  · rcases Walk.bind_eq_ok.mp hNil with ⟨node, hNode, hNil⟩
    refine writableWithin_succ hTree hNode ?_
    intro _
    exact .nihil (by simpa using hNil)

/-
  A basic unit can be written as deep as its rank: the passes
  enter the parts that the classifier saw, and no others.
-/
theorem writableWithin_of_accepted (hBasic : query.requirement = .basic)
    (hUnit : unitWithin tree fuel query id = .ok true) (hDepth : tree.rank id < depth) :
    WritableWithin tree .all depth id := by
  induction fuel generalizing query id depth with
  | zero => simp [unitWithin] at hUnit
  | succ fuel ih =>
    have hUnits : AcceptedWritable tree (accepted (unitWithin tree fuel)) :=
      fun _ _ _ hAsked hPart hRank => ih hAsked hPart hRank
    rcases depth with _ | less
    · omega
    have hParts : ∀ {top}, tree.rank top < less + 1 →
        HasParts tree (accepted (unitWithin tree fuel)) query
          (WritableWithin tree .all less) top := by
      intro top hTop
      refine ⟨?_, ?_, ?_⟩
      · intro asked inner hAsked hPart hAccepted
        have := hPart.rank_lt
        exact hUnits asked inner less hAsked hAccepted (by omega)
      · intro serial hPart hSingle
        have := hPart.rank_lt
        exact writableWithin_of_single hTree hUnits hBasic hSingle (by omega)
      · intro name hPart hName
        have := hPart.rank_lt
        rcases less with _ | deeper
        · omega
        exact writableWithin_of_name hTree hName deeper
    cases judgement_of_judge hUnit with
    | @unit node mode hNode hMode _ hShape =>
      by_cases hChoice : node.attr = .conditionalClause
      · have hChained : Chained tree (accepted (unitWithin tree fuel)) query id := by
          cases hShape <;> simp_all
        exact writableWithin_of_chained hTree hUnits hBasic hChained hNode (.inl hChoice) hDepth
      · refine writableWithin_succ hTree hNode ?_
        intro hFolded
        exact form_of_shape hTree hNode hMode hFolded hBasic hShape hChoice (hParts hDepth)
    | @voidedAssignation node op hNode hAttr _ hSub hOp hAssigned =>
      have hPart := hTree.isLinked.isPart_of_sub hNode hSub
      have hRank := hPart.rank_lt
      rcases attr_eq_ok.mp hOp with ⟨inner, hInner, hInnerAttr⟩
      rcases less with _ | deeper
      · omega
      refine writableWithin_succ hTree hNode ?_
      intro _
      refine .enclosed (by simp [hAttr]) (hTree.shaped.children_eq_of_sub hNode
          (by rw [hAttr]; rfl) hSub)
        (writableWithin_succ hTree hInner ?_)
      intro _
      refine form_of_assigned hTree hInner hInnerAttr hAssigned hBasic ?_
      intro asked deepest hAsked hDeepest hAccepted
      have := hDeepest.rank_lt
      exact hUnits asked deepest deeper hAsked hAccepted (by omega)
    | @voidedUnit node op hNode hAttr _ hSub hOp =>
      have hPart := hTree.isLinked.isPart_of_sub hNode hSub
      refine writableWithin_succ hTree hNode ?_
      intro _
      exact .enclosed (by simp [hAttr]) (hTree.shaped.children_eq_of_sub hNode
          (by rw [hAttr]; rfl) hSub)
        ((hParts hDepth).units query op hBasic hPart hOp)

theorem writable_of_isBasic (hBasic : tree.isBasic id tier = .ok true) : Writable tree .all id := by
  unfold SyntaxTree.isBasic at hBasic
  split at hBasic
  · exact writableWithin_of_accepted hTree rfl hBasic (SyntaxTree.rank_lt_bound id)
  · cases hBasic

/- The only unit of a basic serial clause can be written. -/
theorem writable_of_isBasicSerial (hBasic : tree.isBasicSerial id tier = .ok true) {unit : NodeId}
    (hUnit : tree.sub? id = .ok (some unit)) : Writable tree .all unit := by
  unfold SyntaxTree.isBasicSerial at hBasic
  split at hBasic
  · rcases (single_of_singleUnit hBasic).exists_children
      hTree.shaped with ⟨_, only, -, -, hKids, hOnly⟩
    rw [SyntaxTree.sub?_eq hKids, List.head?_cons, Except.ok.injEq, Option.some.injEq] at hUnit
    rw [← hUnit]
    exact writableWithin_of_accepted hTree rfl hOnly (SyntaxTree.rank_lt_bound only)
  · cases hBasic

theorem writable_of_isBasicConditional (hBasic : tree.isBasicConditional id tier = .ok true)
    (hNode : tree.node id = .ok node) (hAttr : node.attr = .conditionalClause) :
    Writable tree .all id := by
  unfold SyntaxTree.isBasicConditional at hBasic
  split at hBasic
  · simp only [Walk.bind_eq_ok, Walk.and_eq_true] at hBasic
    rcases hBasic with ⟨_, -, -, hCond⟩
    have hUnits : AcceptedWritable tree (accepted (unit tree)) := fun _ _ _ hAsked hPart hRank =>
        writableWithin_of_accepted hTree hAsked hPart hRank
    have hRank := tree.rank_lt_bound id
    unfold Writable
    cases hBound : tree.bound with
    | zero => omega
    | succ less =>
      exact writableWithin_of_chained hTree hUnits rfl
        (chained_of_conditional hCond) hNode (.inl hAttr) (hBound ▸ hRank)
  · cases hBasic

end Inline

end Algol68
