import Algol68.Proofs.Depths
import Algol68.Proofs.Guards
import Algol68.Proofs.Labels

/-
  Units that have values store nothing.

  An assignation has the mode of a name, and where it is voided it has none. Units are let into
  others by their modes, and only names into identity relations. So no assignation is come to
  from a unit whose mode is neither void nor that of a name.

  Main declarations:
    * `SyntaxTree.Conforms.values_store_nothing`
-/

------ Modes of Values

namespace Algol68

namespace SyntaxTree

open Inline Classifier

/- A unit whose mode is neither void nor that of a name. -/
def HasValue (tree : SyntaxTree) (id : NodeId) : Prop :=
  ∃ mode kind, tree.mode? id = .ok (some mode) ∧ tree.modes.kind mode = .ok kind ∧
      kind ≠ .void ∧ kind.isRef = false

/-
  A tree over the standard modes whose units, those that are no constants too, have the modes
  that their parts give them.
-/
structure IsTyped (tree : SyntaxTree) : Prop extends tree.WellModed where
  modes : tree.modes.IsExtension
  chosen : ∀ id attr choice, tree.attr id = .ok attr → attr ∈ [.conditionalClause, .elifPart] →
      choiceOf tree id = .ok choice → tree.mode? choice.yes = tree.mode? id ∧
          tree.mode? choice.no = tree.mode? id
  members : ∀ id mode fields kids, tree.attr id = .ok .collateralClause →
      tree.mode? id = .ok (some mode) → tree.modes.kind mode = .ok (.struct fields) →
          tree.children id = .ok kids →
            List.Forall₂ (fun kid field => tree.mode? kid = .ok (some field.mode)) kids fields
  assigned : ∀ id destination source, tree.attr id = .ok .assignation →
      tree.children id = .ok [destination, source] → tree.mode? id = tree.mode? destination
  voided : ∀ id, tree.attr id = .ok .voiding → tree.mode? id = .ok (some tree.modes.standard.void)

variable {tree : SyntaxTree} {id : NodeId} {attr : Attribute}

theorem HasValue.of_mode?_eq (hVal : tree.HasValue id)
    (hMode : tree.mode? other = tree.mode? id) : tree.HasValue other := by
  rcases hVal with ⟨mode, kind, hFound, hKind⟩
  exact ⟨mode, kind, hMode.trans hFound, hKind⟩

namespace IsTyped

variable (hTyped : tree.IsTyped)

include hTyped

theorem kind_standard (hMode : mode.number < ModeTable.standardTable.size) :
    tree.modes.kind mode = ModeTable.standardTable.kind mode := by
  simp only [ModeTable.kind, Store.fetch, hTyped.modes.get?_eq hMode]

theorem hasValue_of_prim (hPrim : tree.HasPrim id prim) : tree.HasValue id := by
  rcases hPrim with ⟨mode, hMode, hPrim⟩
  rcases Walk.bind_eq_ok.mp hPrim with ⟨kind, hKind, hPrim⟩
  refine ⟨mode, kind, hMode, hKind, ?_⟩
  split at hPrim
  case h_6 =>
    split at hPrim
    · rename_i hComplex
      rw [hComplex, hTyped.modes.standard_eq, hTyped.kind_standard (by decide)] at hKind
      cases hKind
      exact ⟨nofun, rfl⟩
    · cases hPrim
  all_goals exact ⟨nofun, rfl⟩

theorem hasValue_of_standard (hMode : tree.mode? id = .ok (some mode))
    (hStandard : mode = tree.modes.standard.int ∨ mode = tree.modes.standard.bool) :
    tree.HasValue id := by
  rw [hTyped.modes.standard_eq] at hStandard
  rcases hStandard with rfl | rfl
  · exact ⟨_, _, hMode, hTyped.kind_standard (by decide), nofun, rfl⟩
  · exact ⟨_, _, hMode, hTyped.kind_standard (by decide), nofun, rfl⟩

theorem not_hasValue_of_assigned (hTree : tree.IsRegular) (hAttr : tree.attr id = .ok .assignation)
    (hAssigned : Assigned tree accepts query id) : ¬ tree.HasValue id := by
  rintro ⟨mode, kind, hMode, hKind, -, hRef⟩
  rcases attr_eq_ok.mp hAttr with ⟨node, hNode, hSame⟩
  rcases hAssigned with ⟨hParts, hTarget, -, hObj, -, -⟩
  have hKids := children_eq_of_count hTree hNode (by rw [hSame]; rfl) hParts
  rw [hTyped.assigned id _ _ hAttr hKids, hTarget] at hMode
  cases hMode
  simp only [ModeTable.deref?, hKind, Walk.ok_bind] at hObj
  cases kind <;> simp_all [ModeKind.isRef]

end IsTyped

------ Accepted Units

/- No assignation is come to from a unit. -/
def IsCalmUnit (tree : SyntaxTree) (id : NodeId) : Prop :=
  ∀ kid, tree.Inlines id kid → tree.attr kid ≠ .ok .assignation

theorem IsCalmUnit.of_parts (hAttr : tree.attr id = .ok attr) (hOther : attr ≠ .assignation)
    (hParts : ∀ kid, tree.PartOf id attr kid → tree.IsCalmUnit kid) : tree.IsCalmUnit id := by
  intro kid hKid
  rcases Relation.ReflTransGen.cases_head hKid with rfl | ⟨next, ⟨found, hFound, hPart⟩, hRest⟩
  · rw [hAttr, ne_eq, Except.ok.injEq]
    exact hOther
  · cases hAttr.symm.trans hFound
    exact hParts next hPart kid hRest

theorem isCalmUnit_of_name
    (hName : isReferenceName tree id = .ok true ∨ tree.is id .nihil = .ok true) :
    tree.IsCalmUnit id := by
  rcases hName with hName | hNil
  · rcases Walk.bind_eq_ok.mp hName with ⟨node, hNode, hName⟩
    split at hName
    · rename_i hAttr _
      exact .of_parts (attr_eq hNode) (by simp [hAttr]) (by simp [hAttr, PartOf])
    · cases hName
  · rcases Walk.bind_eq_ok.mp hNil with ⟨node, hNode, hNil⟩
    have hAttr : node.attr = .nihil := by simpa using hNil
    exact .of_parts (attr_eq hNode) (by simp [hAttr]) (by simp [hAttr, PartOf])

theorem hasValue_of_field (hStruct : tree.modes.isBasicStruct mode = .ok true)
    (hFields : tree.modes.kind mode = .ok (.struct fields)) (hField : field ∈ fields)
    (hMode : tree.mode? id = .ok (some field.mode)) : tree.HasValue id := by
  have hAll : fields.allM (fun field => tree.modes.isPrimitive field.mode) = .ok true := by
    rcases fields with _ | _
    · cases hField
    · simpa [ModeTable.isBasicStruct, hFields] using hStruct
  rcases Walk.bind_eq_ok.mp (Walk.allM_eq_true.mp hAll field hField) with ⟨kind, hKind, hPrim⟩
  refine ⟨field.mode, kind, hMode, hKind, ?_⟩
  cases kind <;> simp_all [ModeKind.isPrimitive, ModeKind.isRef]

section Parts

/- Accepted units that have values are calm. -/
variable (hTyped : tree.IsTyped) {accepts : Accepts}
  (hUnits : ∀ asked part, asked.requirement = .basic → accepts asked part → tree.HasValue part →
    tree.IsCalmUnit part)

include hTyped hUnits

theorem isCalmUnit_of_operation (hBasic : query.requirement = .basic)
    (hAttr : tree.attr id = .ok attr) (hShape : attr ∈ [.formula, .monadicFormula, .call])
    (hOps : operandsOf tree id = .ok (builtin, operands))
    (hAccepted : ∀ operand ∈ operands, accepts query operand) : tree.IsCalmUnit id := by
  have hPart (kid : NodeId) (hKid : tree.PartOf id attr kid) : kid ∈ operands := by
    have hFound : ∃ checked operation, operationOf tree checked id = .ok operation ∧
        kid ∈ operation.operands := by
      simp only [List.mem_cons, List.not_mem_nil, or_false] at hShape
      rcases hShape with rfl | rfl | rfl
      all_goals exact hKid
    rcases hFound with ⟨checked, operation, hOperation, hKid⟩
    cases hOps.symm.trans (operands_of_operationOf hOperation)
    exact hKid
  refine .of_parts hAttr (by rintro rfl; simp at hShape) ?_
  intro kid hKid
  have hOp := hPart kid hKid
  have hPrims := (hTyped.applied id builtin operands (.operation hOps)).1
  rcases Walk.exists_of_forall₂ hPrims.flip hOp with ⟨prim, -, hPrim⟩
  exact hUnits query kid hBasic (hAccepted kid hOp) (hTyped.hasValue_of_prim hPrim)

variable (hTree : tree.IsRegular)

include hTree

theorem isCalmUnit_of_single (hBasic : query.requirement = .basic)
    (hSingle : Single tree accepts query id) (hVal : tree.HasValue id) : tree.IsCalmUnit id := by
  rcases hSingle.exists_children hTree.shaped with ⟨node, only, hNode, hAttr, hKids, hOnly⟩
  have hSerial : tree.attr id = .ok .serialClause := by rw [attr_eq hNode, hAttr]
  refine .of_parts hSerial (by decide) ?_
  intro kid hKid
  cases (childOf_eq hKids rfl).symm.trans hKid
  exact hUnits query only hBasic hOnly (hVal.of_mode?_eq
    (hTyped.enclosed id _ _ _ hSerial (.inr (.inr rfl)) hKids rfl))

theorem isCalmUnit_of_index (hIndexed : Indexed tree accepts query id)
    (hIdx : tree.IndexOf id kid) : tree.IsCalmUnit kid := by
  rcases hIdx with ⟨hAttr, elem, hElem, hKid⟩
  rcases attr_eq_ok.mp hAttr with ⟨node, hNode, hAttr⟩
  rcases hIndexed with ⟨hParts, -, -, -, -, -, -, -, -, -, hIndices, -, hAccepted⟩
  have hKids := children_eq_of_count hTree hNode (by rw [hAttr]; rfl) hParts
  rcases elementOf_eq_ok hElem with ⟨_, _, _, _, _, _, _, _, -, hIndexer, -, -, -, -, hFound, rfl⟩
  cases (childOf_eq hKids rfl).symm.trans hIndexer
  cases hIndices.symm.trans hFound
  rcases hAccepted kid hKid with ⟨entry, hEntry, -, hMode, hUnit⟩
  refine hUnits _ kid rfl hUnit (hTyped.hasValue_of_standard ?_ (.inl rfl))
  rw [mode?_eq hEntry, hMode]

/- A chain of conditions has the mode of its branches. -/
theorem isCalmUnit_of_chained (hBasic : query.requirement = .basic)
    (hChained : Chained tree accepts query id) (hAttr : tree.attr id = .ok attr)
    (hClause : attr ∈ [.conditionalClause, .elifPart]) (hVal : tree.HasValue id) :
    tree.IsCalmUnit id := by
  induction hRank : tree.rank id using Nat.strong_induction_on generalizing id attr with
  | _ rank ih =>
    rcases attr_eq_ok.mp hAttr with ⟨node, hNode, -⟩
    rcases exists_choiceOf hTree hChained hNode with
      ⟨choice, hChoice, ⟨-, hGuard, hGuardMode⟩, ⟨-, hYes⟩, hNoPart, hNo⟩
    rcases hTyped.chosen id attr choice hAttr hClause hChoice with ⟨hYesMode, hNoMode⟩
    have hNoValue := hVal.of_mode?_eq hNoMode
    refine .of_parts hAttr (by rintro rfl; simp at hClause) ?_
    intro kid hKid
    have hFound : ∃ found, choiceOf tree id = .ok found ∧
        (kid = found.guard ∨ kid = found.yes ∨ kid = found.no) := by
      rcases List.mem_pair.mp hClause with rfl | rfl
      all_goals exact hKid
    rcases hFound with ⟨found, hFound, hKid⟩
    cases hChoice.symm.trans hFound
    rcases hKid with rfl | rfl | rfl
    · exact isCalmUnit_of_single hTyped hUnits hTree hBasic hGuard
        (hTyped.hasValue_of_standard hGuardMode (.inr rfl))
    · exact isCalmUnit_of_single hTyped hUnits hTree hBasic hYes (hVal.of_mode?_eq hYesMode)
    · rcases hNo with hNo | ⟨hElif, hRest⟩
      · exact isCalmUnit_of_single hTyped hUnits hTree hBasic hNo hNoValue
      · exact ih _ (hRank ▸ hNoPart.rank_lt) hRest hElif (by simp) hNoValue rfl

theorem isCalmUnit_of_shape {node : Node} (hBasic : query.requirement = .basic)
    (hNode : tree.node id = .ok node) (hMode : node.mode = some mode)
    (hShape : Shape tree accepts query id node mode) (hVal : tree.HasValue id) :
    tree.IsCalmUnit id := by
  have hRead := attr_eq hNode
  have hOnly {only kid : NodeId} (hSub : node.sub = some only)
      (hKid : childOf tree id 0 = .ok kid) : kid = only := by
    cases (childOf_of_sub hTree hNode hSub).symm.trans hKid
    rfl
  have hIndices {object kid : NodeId} (hIndexed : Indexed tree accepts query object)
      (hIdx : tree.IndexOf object kid) : tree.IsCalmUnit kid :=
    isCalmUnit_of_index hTyped hUnits hTree hIndexed hIdx
  have hParts {attr : Attribute} (hAttr : node.attr = attr) (hOther : attr ≠ .assignation)
      (hParts : ∀ kid, tree.PartOf id attr kid → tree.IsCalmUnit kid) : tree.IsCalmUnit id :=
    .of_parts (hAttr ▸ hRead) hOther hParts
  by_cases hOther : node.attr ∈ [.formula, .monadicFormula, .call]
  · rcases exists_operandsOf hTree hNode hShape hOther with ⟨builtin, ops, hOps, hAll⟩
    exact isCalmUnit_of_operation hTyped hUnits hBasic hRead hOther hOps
      fun op hOp => (hAll op hOp).2
  cases hShape with
  | denoter hAttr | builtinName hAttr | frameName hAttr | constantName hAttr
  | deproceduring hAttr => exact hParts hAttr (by decide) fun _ => False.elim
  | formula hAttr | monadicFormula hAttr | call hAttr => exact absurd (by simp [hAttr]) hOther
  | dereferencing hAttr _ hSub hInner _ _ hOp =>
    refine hParts hAttr (by decide) ?_
    rintro kid ⟨op, hChild, hIdx⟩
    cases hOnly hSub hChild
    cases hOp with
    | slice _ hSlice => exact hIndices hSlice hIdx
    | name hOther | selection hOther => simp [IndexOf, attr_eq hInner, hOther] at hIdx
  | slice hAttr _ hSlice =>
    exact hParts hAttr (by decide) fun kid => hIndices hSlice
  | selection hAttr =>
    refine hParts hAttr (by decide) ?_
    simp [hAttr, PartOf, IndexOf, hRead]
  | assignation hAttr _ hAssigned =>
    exact absurd hVal (hTyped.not_hasValue_of_assigned hTree (hAttr ▸ hRead) hAssigned)
  | @identityRelation left operator right hAttr _ hFirst hLeft hRight =>
    have hKids : tree.children id = .ok [left, operator, right] :=
      children_eq_of_count hTree hNode (by rw [hAttr]; rfl) hFirst
    refine hParts hAttr (by decide) ?_
    rintro kid ⟨relation, hRel, hKid⟩
    simp only [relationOf, Walk.bind_eq_ok] at hRel
    rcases hRel with ⟨_, hFirst, _, -, _, -, _, hSecond, ⟨⟩⟩
    cases (childOf_eq hKids rfl).symm.trans hFirst
    cases (childOf_eq hKids rfl).symm.trans hSecond
    rcases hKid with rfl | rfl
    · exact isCalmUnit_of_name hLeft
    · exact isCalmUnit_of_name hRight
  | cast hAttr hSub hOp =>
    refine hParts hAttr (by decide) ?_
    intro kid hKid
    cases hOnly hSub hKid
    have hKids := hTree.shaped.children_eq_of_sub hNode (by rw [hAttr]; rfl) hSub
    exact hUnits query _ hBasic hOp (hVal.of_mode?_eq
      (hTyped.enclosed id _ _ _ hRead (.inl hAttr) hKids rfl))
  | widening hAttr hSub _ _ hOp =>
    refine hParts hAttr (by decide) ?_
    rintro kid ⟨isComplex, hFound⟩
    rcases Walk.bind_eq_ok.mp hFound with ⟨found, hChild, hFound⟩
    rcases Walk.bind_eq_ok.mp hFound with ⟨_, -, ⟨⟩⟩
    cases hOnly hSub hChild
    have hKids := hTree.shaped.children_eq_of_sub hNode (by rw [hAttr]; rfl) hSub
    rcases hTyped.widened id _ (hAttr ▸ hRead) hKids with ⟨hPrim, -⟩ | ⟨hPrim, -⟩
    all_goals exact hUnits query _ hBasic hOp (hTyped.hasValue_of_prim hPrim)
  | closedClause hAttr hSub hSerial =>
    refine hParts hAttr (by decide) ?_
    intro kid hKid
    cases hOnly hSub hKid
    have hKids := hTree.shaped.children_eq_of_sub hNode (by rw [hAttr]; rfl) hSub
    exact isCalmUnit_of_single hTyped hUnits hTree hBasic hSerial (hVal.of_mode?_eq
      (hTyped.enclosed id _ _ _ hRead (.inr (.inl hAttr)) hKids rfl))
  | serialClause _ hSerial =>
    exact isCalmUnit_of_single hTyped hUnits hTree hBasic hSerial hVal
  | @collateralClause fields members hAttr hStruct hFields hMembers _ hAccepted =>
    refine hParts hAttr (by decide) ?_
    rintro kid ⟨display, hDisplay, hKid⟩
    rcases Walk.bind_eq_ok.mp hDisplay with ⟨_, -, hDisplay⟩
    rcases Walk.bind_eq_ok.mp hDisplay with ⟨found, hFound, ⟨⟩⟩
    cases hMembers.symm.trans hFound
    have hModes := hTyped.members id mode fields members (hAttr ▸ hRead)
      (by rw [mode?_eq hNode, hMode]) hFields hMembers
    rcases Walk.exists_of_forall₂ hModes.flip hKid with ⟨field, hField, hKidMode⟩
    refine hUnits query kid hBasic (hAccepted kid hKid) ?_
    exact hasValue_of_field hStruct hFields hField hKidMode
  | conditionalClause hAttr _ hChained =>
    exact isCalmUnit_of_chained hTyped hUnits hTree hBasic hChained hRead (by simp [hAttr]) hVal

end Parts

/- Accepted units that have values are calm, by induction on the depth of the answer. -/
theorem isCalmUnit_of_accepted (hTree : tree.IsRegular) (hTyped : tree.IsTyped)
    (hBasic : query.requirement = .basic) (hUnit : unitWithin tree fuel query id = .ok true)
    (hVal : tree.HasValue id) : tree.IsCalmUnit id := by
  induction fuel generalizing query id with
  | zero => simp [unitWithin] at hUnit
  | succ fuel ih =>
    have hUnits (asked : Query) (part : NodeId) (hAsked : asked.requirement = .basic)
        (hPart : accepted (unitWithin tree fuel) asked part) := ih hAsked hPart
    have hVoid {node : Node} (hNode : tree.node id = .ok node) (hAttr : node.attr = .voiding) :
        tree.IsCalmUnit id := by
      rcases hVal with ⟨mode, kind, hMode, hKind, hOther, -⟩
      rw [hTyped.voided id (by rw [attr_eq hNode, hAttr]), hTyped.modes.standard_eq] at hMode
      cases hMode
      rw [hTyped.kind_standard (by decide)] at hKind
      cases hKind
      exact absurd rfl hOther
    cases judgement_of_judge hUnit with
    | unit hNode hMode _ hShape =>
      exact isCalmUnit_of_shape hTyped hUnits hTree hBasic hNode hMode hShape hVal
    | voidedAssignation hNode hAttr | voidedUnit hNode hAttr => exact hVoid hNode hAttr

end SyntaxTree

------ Running the Code

/- What is seen of the memory is changed by stores only. -/
def Runtime.OnlyStored (runtime : Runtime) {Variables : Type}
    (seen : runtime.Memory → Variables) : Prop :=
  ∀ stmt data memory, stmt.isStore = false →
    seen (runtime.perform stmt data memory).2 = seen memory

namespace Stmt

variable {runtime : Runtime} {Variables : Type} {seen : runtime.Memory → Variables}

mutual

theorem run_keeps {state : runtime.State} {stmt : Stmt} (hSeen : runtime.OnlyStored seen)
    (hStmt : AllOf (fun stmt => stmt.isStore = false) [stmt]) :
    seen (run state stmt).1.memory = seen state.memory := by
  cases stmt
  case branch node guard yes no =>
    rw [run]
    dsimp only
    split
    · exact runAll_keeps hSeen fun stmt hInside => hStmt stmt (by simp [within, hInside])
    · exact runAll_keeps hSeen fun stmt hInside => hStmt stmt (by simp [within, hInside])
  all_goals
    unfold run
    exact hSeen _ _ _ (hStmt _ List.mem_cons_self)

theorem runAll_keeps {state : runtime.State} {body : List Stmt} (hSeen : runtime.OnlyStored seen)
    (hBody : AllOf (fun stmt => stmt.isStore = false) body) :
    seen (runAll state body).1.memory = seen state.memory := by
  cases body with
  | nil => rfl
  | cons stmt rest =>
    rw [runAll]
    have hRest : seen (runAll (run state stmt).1 rest).1.memory = seen (run state stmt).1.memory :=
      runAll_keeps hSeen fun inner hInside => hBody inner (List.mem_append_right _ hInside)
    exact hRest.trans (run_keeps hSeen fun inner hInside => hBody inner (List.mem_append_left _
      (by simpa using hInside)))

end

end Stmt

namespace SyntaxTree

open Inline

/-
  No assignation is come to from a basic unit whose mode is neither void nor that of a name. So
  its statements store nothing, and the variables are the same before and after them. As
  expressions have no effects, its expression can be written more than once.
-/
theorem Conforms.values_store_nothing {tree : SyntaxTree} {id : NodeId} {tier : Nat}
    (hTree : tree.Conforms) (hTyped : tree.IsTyped) (hBasic : tree.isBasic id tier = .ok true)
    (hValue : tree.HasValue id) :
    (∀ kid, tree.Inlines id kid → tree.attr kid ≠ .ok .assignation) ∧
      ∀ (before after : Context) (body : List Stmt),
        (executeUnit tree id).run before = .ok (body, after) →
          (∀ stmt ∈ Stmt.withinOf body, stmt.isStore = false) ∧
          ∀ (runtime : Runtime) (Variables : Type) (seen : runtime.Memory → Variables),
            runtime.OnlyStored seen → ∀ state,
              seen (Stmt.runAll state body).1.memory = seen state.memory := by
  have hCalm := isCalmUnit_of_accepted hTree.toIsRegular hTyped rfl
    (isBasic_eq_true.mp hBasic).2 hValue
  refine ⟨hCalm, ?_⟩
  intro before after body hRun
  have hBody : Stmt.AllOf (fun stmt => stmt.isStore = false) body := by
    have hInner := (executeWithin_gives (yields_any tree _) hCalm).of_run hRun
    exact hInner.1.mono fun stmt hStmt => Bool.eq_false_iff.mpr hStmt.2.2
  exact ⟨hBody, fun _ _ _ hSeen _ => Stmt.runAll_keeps hSeen hBody⟩

theorem isTyped_drawnDisplay : drawnDisplay.IsTyped := by
  refine ⟨drawnDisplay_wellModed, .intern .standard _, ?_, ?_, ?_, ?_⟩
  · intro id attr choice hAttr hClause hChoice
    simp only [List.mem_cons, List.not_mem_nil, or_false] at hClause
    rcases hClause with rfl | rfl
    · obtain rfl := List.mem_singleton.mp (mem_places hAttr : id ∈ [⟨4⟩])
      cases hChoice
      exact ⟨rfl, rfl⟩
    · cases (mem_places hAttr : id ∈ [])
  · intro id mode fields kids hAttr hMode hKind hKids
    obtain rfl := List.mem_singleton.mp (mem_places hAttr : id ∈ [⟨10⟩])
    cases hMode
    cases hKind
    cases hKids
    exact .cons rfl (.cons rfl .nil)
  · intro id destination source hAttr hKids
    obtain rfl := List.mem_singleton.mp (mem_places hAttr : id ∈ [⟨2⟩])
    cases hKids
    rfl
  · intro id hAttr
    obtain rfl := List.mem_singleton.mp (mem_places hAttr : id ∈ [⟨1⟩])
    rfl

/- A context in which both constants were found. -/
def constantsFound : Context :=
  { Context.ofOptions { level := 3 } with
    folded := [(⟨13⟩, some (.real 42)), (⟨20⟩, some (.complex 1.5 0))] }

theorem values_store_nothing_drawnDisplay :
    drawnDisplay.Conforms ∧ drawnDisplay.IsTyped ∧ drawnDisplay.isBasic ⟨4⟩ 3 = .ok true ∧
      drawnDisplay.HasValue ⟨4⟩ ∧
        (∀ kid, drawnDisplay.Inlines ⟨4⟩ kid → drawnDisplay.attr kid ≠ .ok .assignation) ∧
          ∃ body next,
            (executeUnit drawnDisplay ⟨4⟩).run constantsFound = .ok (body, next) ∧
              body.length = 2 ∧ Stmt.AllOf (fun stmt => stmt.isStore = false) body := by
  have hTree : drawnDisplay.Conforms := conforms_of_isOrderly (by decide +kernel)
  have hBasic : drawnDisplay.isBasic ⟨4⟩ 3 = .ok true := by decide +kernel
  have hValue : drawnDisplay.HasValue ⟨4⟩ := ⟨⟨7⟩, _, rfl, rfl, nofun, rfl⟩
  have hLength : (fun found => found.1.length) <$>
      (executeUnit drawnDisplay ⟨4⟩).run constantsFound = .ok 2 := by
    decide +kernel
  rcases hTree.values_store_nothing isTyped_drawnDisplay hBasic hValue with ⟨hNone, hKeeps⟩
  rcases Walk.map_eq_ok.mp hLength with ⟨⟨body, next⟩, hRun, hTwo⟩
  exact ⟨hTree, isTyped_drawnDisplay, hBasic, hValue, hNone, body, next, hRun, hTwo,
    (hKeeps _ _ _ hRun).1⟩

end SyntaxTree

end Algol68
