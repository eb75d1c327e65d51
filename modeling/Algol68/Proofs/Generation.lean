import Algol68.Proofs.Planning
import Algol68.Proofs.Runs

/-
  The generators and the walk over a tree.

  Each generator declines, or gives a function to the node it was asked about and decides
  otherwise only about nodes below it. So does the walk, which asks about every node that is still
  pending.
-/

------ Logics of Generators

namespace Algol68

open Relation

variable {visit : NodeId → Generation Unit} {tree : SyntaxTree}

namespace Generator

open Emission Inline Planner SyntaxTree

variable {id : NodeId} {attr : Attribute}
variable {α : Type}

/-
  A way to reason about attempts at a node. A plan is made for
  it, and a function is written according to the plan.
-/
structure Logic (tree : SyntaxTree) (visit : NodeId → Generation Unit) (id : NodeId) extends
    Planner.Logic tree visit id where
  Attempts : Point → Planning String → Prop
  leads : Leads tree total inside id
  declined : ∀ {point : Point}, Attempts point failure
  attempt : ∀ {α : Type} {point : Point} {planning : Planning α} {rest : α → Planning String}
      {post : Point → α → Prop}, Holds point planning post →
    (∀ value later, post later value → Attempts later (rest value)) →
      Attempts point (planning >>= rest)
  attempt_walk : ∀ {α : Type} {point : Point} {walk : Walk α} {rest : α → Planning String},
    (total → walk.Ends) → (∀ value, walk = .ok value → Attempts point (rest value)) →
      Attempts point (liftM walk >>= rest)
  attempt_tier : ∀ {point : Point} {rest : Nat → Planning String},
    (∀ found, rest (min found Tier.clauses) = rest found) →
    (∀ found, (known → found = tier) → Attempts point (rest found)) →
      Attempts point (liftM currentTier >>= rest)
  /- A planned function is written for the node. -/
  attempt_emit : ∀ {point : Point} {attr : Attribute} {name : String} {writer : Writer},
    tree.attr id = .ok attr → functionName tree id attr.shortName = .ok name →
    (∀ node mode, ¬ IsConstantUnit tree id node mode) → Drawn tree (Calls point) id writer →
    (known → Draft tree (tree.Exposed tier id) writer) → Attempts point (emit tree id name writer)

namespace Logic

variable (logic : Generator.Logic tree visit id)

/- A condition that a generator asks for. -/
theorem ensure_attempt (hWalk : logic.total → walk.Ends)
    (hRest : walk = .ok true → logic.Attempts point (rest ())) :
    logic.Attempts point (ensure walk >>= rest) := by
  rw [ensure, bind_assoc]
  apply logic.attempt_walk hWalk
  rintro (_ | _) hAnswer
  · exact logic.declined
  · exact hRest hAnswer

/- Something that a generator asks for. -/
theorem needed_attempt {walk : Walk (Option α)} (hWalk : logic.total → walk.Ends)
    (hRest : ∀ val, walk = .ok (some val) → logic.Attempts point (rest val)) :
    logic.Attempts point (needed walk >>= rest) := by
  rw [needed, bind_assoc]
  apply logic.attempt_walk hWalk
  rintro (_ | val) hAnswer
  · exact logic.declined
  · exact hRest val hAnswer

theorem unless_attempt {declines : Prop} [Decidable declines] {rest : Unit → Planning String}
    (hRest : ¬ declines → logic.Attempts point (rest ())) :
    logic.Attempts point (if declines then failure >>= rest else rest ()) := by
  split
  · exact logic.declined
  · rename_i hNot
    exact hRest hNot

theorem ensure_holds (hWalk : logic.total → walk.Ends) :
    logic.Holds point (ensure walk) fun _ _ => walk = .ok true := by
  apply logic.walk_bind hWalk
  rintro (_ | _) hAnswer
  · exact logic.of_failure
  · exact logic.of_pure fun _ _ => hAnswer

theorem needed_holds (hWalk : logic.total → walk.Ends) :
    logic.Holds point (needed walk) fun _ val => walk = .ok (some val) := by
  apply logic.walk_bind hWalk
  rintro (_ | val) hAnswer
  · exact logic.of_failure
  · exact logic.of_pure fun _ _ => hAnswer

end Logic

------ Functions of Their Own

theorem functionName_ends (hTree : tree.Conforms) {node : Node} (hNode : tree.node id = .ok node)
    (shape : String) : (functionName tree id shape).Ends := by
  apply Walk.Ends.bind ⟨_, SyntaxTree.mode?_eq hNode⟩
  rintro (_ | mode) hMode
  · exact .of_pure
  · apply Walk.Ends.bind
    · exact hTree.modes.codeName_ends (hTree.inRange.mode?_lt hMode)
    · exact fun _ _ => .of_pure

theorem not_isConstantUnit (hAttr : tree.attr id = .ok attr) (hDenoter : attr ≠ .denoter)
    (hIdent : attr ≠ .identifier) (node : Node) (mode : ModeId) :
    ¬ IsConstantUnit tree id node mode := by
  intro hUnit
  rw [SyntaxTree.attr_eq hUnit.node, Except.ok.injEq] at hAttr
  rcases hUnit.attr with hSame | hSame
  · exact hDenoter (hAttr.symm.trans hSame)
  · exact hIdent (hAttr.symm.trans hSame)

theorem body_exists (hTree : tree.IsRegular) (hTag : tree.tag? id = .ok (some tag))
    (hBody : tag.body = some body) : ∃ node, tree.node body = .ok node := by
  rcases Walk.bind_eq_ok.mp hTag with ⟨node, -, hTag⟩
  split at hTag
  · rcases Walk.bind_eq_ok.mp hTag with ⟨entry, hEntry, hSame⟩
    cases hSame
    exact Store.exists_fetch ((hTree.inRange.tags _ tag hEntry).body body hBody)
  · cases hTag

theorem attr_of_is (hIs : tree.is id attr = .ok true) : tree.attr id = .ok attr := by
  rcases Walk.bind_eq_ok.mp hIs with ⟨node, hNode, hSame⟩
  rw [SyntaxTree.attr_eq hNode, eq_of_beq (Except.ok.inj hSame)]

theorem hasBasicArguments_ends (hTree : tree.IsRegular)
    (hNodes : ∀ arg ∈ args, ∃ node, tree.node arg.1 = .ok node) (tier : Nat) :
    (hasBasicArguments tree tier args).Ends := by
  apply Walk.Ends.allM
  intro arg hArg
  rcases hNodes arg hArg with ⟨node, hNode⟩
  apply Walk.Ends.bind ⟨_, SyntaxTree.mode?_eq hNode⟩
  intro mode hMode
  apply Walk.Ends.ite
  · rintro rfl
    apply Walk.Ends.and
    · exact hTree.inRange.modes.isBasicNonRow_ends (hTree.inRange.mode?_lt hMode)
    · exact fun _ => hTree.isFinite.isBasic_ends hNode tier
  · exact fun _ => .of_pure

/- The arguments of a call that is planned were accepted. -/
theorem isBasic_of_hasBasicArguments {tier : Nat}
    (hBasic : hasBasicArguments tree tier args = .ok true) (hArg : arg ∈ args) :
    tree.isBasic arg.1 tier = .ok true ∧ tree.mode? arg.1 = .ok (some arg.2) := by
  have hEach := Walk.allM_eq_true.mp hBasic arg hArg
  rcases Walk.bind_eq_ok.mp hEach with ⟨mode, hMode, hEach⟩
  split at hEach
  · rename_i hSame
    subst hSame
    exact ⟨(Walk.and_eq_true.mp hEach).2, hMode⟩
  · cases hEach

theorem mem_of_idxOf? {modes : List ModeId} (hFound : modes.idxOf? mode = some pos) :
    mode ∈ modes := by
  by_contra hNone
  cases (List.idxOf?_eq_none_iff.mpr hNone).symm.trans hFound

namespace Logic

variable (logic : Generator.Logic tree visit id)

theorem ends_here {walk : Walk α}
    (hWalk : ∀ node, tree.Conforms → tree.node id = .ok node → walk.Ends) :
    logic.total → walk.Ends :=
  logic.spans.ends logic.leads hWalk

theorem is_attempt (hRest : tree.attr id = .ok attr → logic.Attempts point (rest ())) :
    logic.Attempts point (ensure (tree.is id attr) >>= rest) := by
  apply logic.ensure_attempt (logic.ends_here fun _ _ hNode => ⟨_, is_eq hNode attr⟩)
  intro hIs
  exact hRest (attr_of_is hIs)

theorem name_attempt {shape : String}
    (hRest : ∀ name, functionName tree id shape = .ok name → logic.Attempts point (rest name)) :
    logic.Attempts point (liftM (functionName tree id shape) >>= rest) :=
  logic.attempt_walk (logic.ends_here fun _ hTree hNode => functionName_ends hTree hNode _) hRest

theorem clause_attempt (hAttr : tree.attr id = .ok attr)
    (hName : functionName tree id attr.shortName = .ok name) (hDenoter : attr ≠ .denoter)
    (hIdent : attr ≠ .identifier) (plan : ClausePlan) (hPlan : plan.Has tree logic.Places)
    (hDrawn : plan.Has tree (Inlined tree) → Drawn tree (logic.Calls point) id (plan.writer tree)) :
    logic.Attempts point (emit tree id name (plan.writer tree)) :=
  logic.attempt_emit hAttr hName (not_isConstantUnit hAttr hDenoter hIdent)
    (hDrawn (hPlan.mono fun _ hUnit => hUnit.1))
    fun hKnown => .clause plan (.inr (hPlan.mono fun _ hUnit => hUnit.2 hKnown))

theorem serialClause_attempt : logic.Attempts point (serialClause tree visit id) := by
  apply logic.attempt_walk (logic.ends_here fun node _ hNode => ⟨node, hNode⟩)
  intro node hNode
  extract_lets rest
  have hRest : ∀ site : Site, Leads tree logic.total logic.inside site.node →
      (logic.known → Reached tree logic.tier id site.node) → site.IsReached tree id →
      (∀ later plan, logic.SerialFound later plan → plan.site = site →
        plan.Has tree (Inlined tree) →
          Drawn tree (logic.Calls later) id (Emission.serial tree plan)) →
      node.attr ≠ .denoter → node.attr ≠ .identifier → logic.Attempts point (rest site) := by
    intro site hSite hWay hReached hDrawn hDenoter hIdent
    apply logic.attempt (logic.serial_holds hSite hWay hReached true)
    rintro plan later ⟨hPlan, hPlanSite⟩
    apply logic.unless_attempt
    intro _
    apply logic.name_attempt
    intro name hName
    exact logic.clause_attempt (attr_eq hNode) hName hDenoter hIdent (.serial plan)
      hPlan.has (hDrawn later plan hPlan hPlanSite)
  split
  · rename_i serial hAttr hSub
    have hSerial : logic.inside serial := logic.leads.link serial ⟨node, hNode, .inl hSub⟩
    have hClosed : tree.attr id = .ok .closedClause := by rw [attr_eq hNode, hAttr]
    have hFirst : tree.sub? id = .ok (some serial) := by simp [sub?, hNode, hSub]
    have hReached : Site.IsReached tree id ⟨serial, Path.start.sub⟩ := (follow_sub rfl).trans hFirst
    refine hRest ⟨serial, Path.start.sub⟩ (logic.spans.leads hSerial) ?_ hReached ?_
      (by simp [hAttr]) (by simp [hAttr])
    · intro hKnown
      refine reached_of_part (logic.conforms hKnown).shaped hClosed rfl hFirst .refl ?_
      intro hOther
      apply Way.start
      intro hBasic
      rcases isBasicSerial_of_closed hNode hAttr hBasic with ⟨found, hFound, hSerial⟩
      cases hSub.symm.trans hFound
      exact hOther hSerial
    · intro later plan hPlan hPlanSite hUnits
      refine .closed hClosed hPlan.isOf ?_ hUnits
      rw [hPlanSite]
      exact hFirst
  · rename_i hAttr
    have hSerial : tree.attr id = .ok .serialClause := by rw [attr_eq hNode, hAttr]
    refine hRest ⟨id, .start⟩ logic.leads ?_ rfl ?_ (by simp [hAttr]) (by simp [hAttr])
    · intro hKnown
      refine ⟨.refl, fun hOther => .start fun hBasic => ?_⟩
      exact hOther (isBasicSerial_of_isBasic hSerial hBasic)
    · intro later plan hPlan hPlanSite hUnits
      exact .serial hPlan.isOf (congrArg Site.node hPlanSite) hUnits
  · exact logic.declined

theorem collateralClause_attempt : logic.Attempts point (collateralClause tree visit id) := by
  apply logic.is_attempt
  intro hAttr
  apply logic.needed_attempt (logic.ends_here fun _ _ hNode => ⟨_, mode?_eq hNode⟩)
  intro mode hMode
  apply logic.name_attempt
  intro name hName
  apply logic.attempt_walk (logic.ends_here fun _ hTree hNode => hTree.children_ends hNode)
  intro members hMembers
  have hInside : ∀ member ∈ members, logic.inside member :=
    fun _ hMem => logic.spans.of_child logic.leads hMembers hMem
  apply logic.attempt_walk (logic.ends_here
    fun _ hTree _ => hTree.inRange.modes.isBasicStruct_ends (hTree.inRange.mode?_lt hMode))
  intro isBasicStruct hStruct
  split
  · rename_i hYes
    subst hYes
    apply logic.attempt_tier fun tier => by simp only [isBasic_min]
    intro tier hTier
    have hEnds : logic.total → (members.allM fun member => tree.isBasic member tier).Ends := by
      intro hTotal
      apply Walk.Ends.allM
      intro member hMem
      rcases logic.spans.nodes hTotal member (hInside member hMem) with ⟨node, hNode⟩
      exact (logic.spans.conforms hTotal).isFinite.isBasic_ends hNode tier
    apply logic.ensure_attempt hEnds
    intro hBasic
    have hPlaces : ∀ member ∈ members, logic.Places member := fun member hMem =>
      logic.places_of_isBasic hTier (Walk.allM_eq_true.mp hBasic member hMem) fun _ hUnit =>
        .single (keeps_of_isBasic hAttr rfl hUnit ⟨members, hMembers, hMem⟩)
    apply logic.unless_attempt
    intro _
    exact logic.attempt_emit hAttr hName (not_isConstantUnit hAttr nofun nofun)
      (.display hAttr hMode hStruct hMembers fun member hMem => (hPlaces member hMem).1)
      fun hKnown => .values fun member hMem => (hPlaces member hMem).2 hKnown
  · rename_i hOther
    apply logic.ensure_attempt (logic.ends_here fun _ hTree _ => ModeTable.isVoid_ends
        (hTree.inRange.mode?_lt hMode))
    intro hVoid
    apply logic.unless_attempt
    intro hNonempty
    have hWay : tree.Way logic.tier id id := by
      refine .start fun hBasic => ?_
      rcases Classifier.attr_eq_ok.mp hAttr with ⟨node, hNode, hClause⟩
      rw [mode?_eq hNode, Except.ok.injEq] at hMode
      rw [isBasicStruct_of_isBasic hNode hClause hBasic hMode, Except.ok.injEq] at hStruct
      exact hOther hStruct.symm
    have hListed : ∀ site ∈ sitesBelow .start members,
        ∃ list, Listed tree logic.tier id list site.node := fun site hSite =>
      ⟨id, ⟨members, hMembers, mem_sitesBelow hSite⟩, ⟨_, hAttr, rfl⟩, .refl, fun _ _ _ => hWay⟩
    apply logic.attempt (logic.statements_holds (fun site hSite => hInside _ (mem_sitesBelow hSite))
      fun _ => hListed)
    intro items later hEach
    have hFound : logic.ItemsFound id later items :=
      .of_sites rfl hMembers (hEach.imp fun _ _ hItem => hItem.1)
    refine logic.clause_attempt hAttr hName nofun nofun (.serial _) hFound.has ?_
    refine fun hUnits => .collateral hAttr hMode hVoid ?_ rfl rfl hUnits
    refine ⟨rfl, hFound.children, hFound.isOf, ?_⟩
    rintro rfl
    have hNone := hFound.children
    cases hMembers.symm.trans hNone
    exact hNonempty rfl

theorem conditionalClause_attempt : logic.Attempts point (conditionalClause tree visit id) := by
  apply logic.is_attempt
  intro hAttr
  apply logic.name_attempt
  intro name hName
  apply logic.attempt_tier fun tier => by simp only [isBasicConditional_min]
  intro tier hTier
  apply logic.attempt_walk (logic.ends_here
    fun _ hTree hNode => hTree.isFinite.isBasicConditional_ends hNode tier)
  intro isBasic hBasic
  have hUnit : logic.known → (tree.isBasicConditional id tier = .ok true ↔
      tree.isBasic id logic.tier = .ok true) := by
    intro hKnown
    rw [hTier hKnown]
    exact isBasicConditional_iff (logic.conforms hKnown).toIsRegular hAttr
  split
  · rename_i hYes
    subst hYes
    exact logic.attempt_emit hAttr hName (not_isConstantUnit hAttr nofun nofun)
      (.value (.conditional hBasic hAttr))
      fun hKnown => .value ⟨.refl, (hUnit hKnown).mp hBasic⟩
  · rename_i hNo
    have hWay : logic.known → tree.Way logic.tier id id := by
      refine fun hKnown => .start fun hStart => ?_
      rw [(hUnit hKnown).mpr hStart, Except.ok.injEq] at hBasic
      exact hNo hBasic.symm
    apply logic.attempt (logic.choice_holds logic.leads hWay rfl .guarded
      (fun _ => tree.rank_lt_bound id) (.inl hAttr))
    rintro plan later ⟨hPlan, hPlanOf⟩
    exact logic.clause_attempt hAttr hName nofun nofun (.choice plan) hPlan
      (.choice .guarded hAttr hPlanOf)

theorem caseClause_attempt : logic.Attempts point (caseClause tree visit id) := by
  apply logic.is_attempt
  intro hAttr
  apply logic.attempt_tier fun tier => by simp only [isBasicCase_min]
  intro tier _
  apply logic.ensure_attempt (logic.ends_here
    fun _ hTree hNode => hTree.isFinite.isBasicCase_ends hNode tier)
  intro _
  apply logic.attempt (logic.choice_holds logic.leads
    (fun _ => .start (not_isBasic_of_attr hAttr rfl)) rfl .numbered
    (fun _ => tree.rank_lt_bound id) (.inl hAttr))
  rintro plan later ⟨hPlan, hPlanOf⟩
  apply logic.name_attempt
  intro name hName
  exact logic.clause_attempt hAttr hName nofun nofun (.choice plan) hPlan
    (.choice .numbered hAttr hPlanOf)

theorem loopClause_attempt : logic.Attempts point (loopClause tree visit id) := by
  apply logic.is_attempt
  intro hAttr
  apply logic.attempt (logic.loop_holds logic.leads hAttr)
  rintro plan later ⟨hPlan, hPlanOf⟩
  apply logic.name_attempt
  intro name hName
  exact logic.clause_attempt hAttr hName nofun nofun (.loop id plan) hPlan (.loop hAttr hPlanOf)

theorem routineCall_attempt : logic.Attempts point (routineCall tree visit id) := by
  apply logic.is_attempt
  intro hAttr
  apply logic.needed_attempt (logic.ends_here fun _ _ hNode => sub?_ends hNode)
  intro callee hCallee
  have hCalleeLeads := logic.spans.leads (logic.leads.link callee (link_of_sub? hCallee))
  apply logic.needed_attempt (logic.spans.ends hCalleeLeads
    fun _ hTree hNode => hTree.inRange.tag?_ends ⟨_, hNode⟩)
  intro tag hTag
  apply logic.unless_attempt
  intro hProc
  apply logic.needed_attempt fun _ => .of_pure
  intro routine hRoutine
  have hRoutineNode : logic.total → ∃ node, tree.node routine = .ok node := by
    intro hTotal
    exact body_exists (logic.spans.conforms hTotal).toIsRegular hTag (Except.ok.inj hRoutine)
  apply logic.needed_attempt fun hTotal => by
    rcases hRoutineNode hTotal with ⟨node, hNode⟩
    exact sub?_ends hNode
  intro body _
  apply logic.attempt_walk fun hTotal => ModeTable.kind_ends (tagMode_lt_of_tag?
      (logic.spans.conforms hTotal).toIsRegular hTag)
  intro kind hKind
  split
  · rename_i params res
    apply logic.attempt_walk (logic.ends_here fun _ hTree hNode => hTree.children_ends hNode)
    intro children hChildren
    apply logic.unless_attempt
    intro _
    apply logic.attempt_tier fun tier => by simp only [hasBasicArguments, isBasic_min]
    intro tier hTier
    have hChild : ∀ arg ∈ children.tail.zip params, arg.1 ∈ children :=
      fun arg hArg => List.mem_of_mem_tail (List.of_mem_zip hArg).1
    apply logic.ensure_attempt fun hTotal => hasBasicArguments_ends
        (logic.spans.conforms hTotal).toIsRegular (fun arg hArg =>
          logic.spans.nodes hTotal arg.1 (logic.spans.of_child logic.leads hChildren
            (hChild arg hArg))) tier
    intro hBasic
    have hPlaces : ∀ arg ∈ children.tail.zip params, logic.Places arg.1 :=
      fun arg hArg => logic.places_of_isBasic hTier
        (isBasic_of_hasBasicArguments hBasic hArg).1 fun _ _ =>
          .single (keeps_of_attr hAttr rfl rfl ⟨children, hChildren, hChild arg hArg⟩)
    apply logic.name_attempt
    intro name hName
    refine logic.attempt_emit hAttr hName (not_isConstantUnit hAttr nofun nofun) ?_
      fun hKnown => .routineCall fun arg hArg => (hPlaces arg hArg).2 hKnown
    refine .routineCall hAttr hCallee hTag (Classical.not_not.mp hProc) hKind ?_
    exact fun arg hArg => ⟨(hPlaces arg hArg).1, (isBasic_of_hasBasicArguments hBasic hArg).2⟩
  · exact logic.declined

theorem uniting_attempt (point : logic.Point) : logic.Attempts point (uniting tree visit id) := by
  apply logic.is_attempt
  intro hAttr
  apply logic.needed_attempt (logic.ends_here fun _ _ hNode => ⟨_, mode?_eq hNode⟩)
  intro union hUnion
  apply logic.needed_attempt (logic.ends_here fun _ _ hNode => sub?_ends hNode)
  intro operand hOp
  have hOperandLeads := logic.spans.leads (logic.leads.link operand (link_of_sub? hOp))
  apply logic.needed_attempt (logic.spans.ends hOperandLeads fun _ _ hNode => ⟨_, mode?_eq hNode⟩)
  intro mode hMode
  have hSize : ∀ {found : NodeId} {mode : ModeId}, tree.mode? found = .ok (some mode) →
      logic.total → (tree.modes.byteSize mode).Ends :=
    fun hFound => logic.ends_here fun _ hTree _ =>
      hTree.modes.byteSize_ends (hTree.inRange.mode?_lt hFound)
  apply logic.attempt_walk (logic.ends_here fun _ hTree _ => ModeTable.kind_ends
      (hTree.inRange.mode?_lt hUnion))
  intro kind hKind
  split
  · apply logic.needed_attempt fun _ => .of_pure
    intro alternative hAlternative
    apply logic.attempt_tier fun tier => by simp only [isBasic_min]
    intro tier hTier
    apply logic.ensure_attempt (logic.spans.ends hOperandLeads fun _ hTree hNode =>
        hTree.isFinite.isBasic_ends hNode tier)
    intro hBasic
    have hPlaces : logic.Places operand := logic.places_of_isBasic hTier hBasic fun hKnown _ =>
      .single (keeps_of_attr hAttr rfl rfl (isChild_of_sub? (logic.conforms hKnown).shaped hOp))
    apply logic.attempt_walk (hSize hUnion)
    intro whole hWhole
    apply logic.attempt_walk (hSize hMode)
    intro part hPart
    apply logic.name_attempt
    intro name hName
    exact logic.attempt_emit hAttr hName (not_isConstantUnit hAttr nofun nofun)
      (.injection hAttr hUnion hKind (mem_of_idxOf? (Except.ok.inj hAlternative)) hWhole hPart rfl
        hPlaces.1 hMode)
      fun hKnown => .injection (hPlaces.2 hKnown)
  · exact logic.declined

/- The generators of clauses, calls and unions. -/
theorem clauses_attempt (hGen : gen ∈ table.take 7) (point : logic.Point) :
    logic.Attempts point (gen.attempt tree visit id) := by
  simp only [table, List.take_succ_cons, List.take_zero,
    List.mem_cons, List.not_mem_nil, or_false] at hGen
  rcases hGen with rfl | rfl | rfl | rfl | rfl | rfl | rfl
  · exact logic.serialClause_attempt
  · exact logic.collateralClause_attempt
  · exact logic.conditionalClause_attempt
  · exact logic.caseClause_attempt
  · exact logic.loopClause_attempt
  · exact logic.routineCall_attempt
  · exact logic.uniting_attempt point

/- Any basic unit that is not named as a constant. -/
theorem basicUnit_attempt (hOther : ∀ node mode, ¬ IsConstantUnit tree id node mode)
    (point : logic.Point) : logic.Attempts point (basicUnit tree visit id) := by
  apply logic.attempt_tier fun tier => by simp only [isBasic_min]
  intro tier hTier
  apply logic.ensure_attempt (logic.ends_here
    fun _ hTree hNode => hTree.isFinite.isBasic_ends hNode tier)
  intro hBasic
  apply logic.attempt_walk (logic.ends_here fun _ _ hNode => ⟨_, attr_eq hNode⟩)
  intro attr hAttr
  apply logic.name_attempt
  intro name hName
  have hPlaces : logic.Places id := logic.places_of_isBasic hTier hBasic fun _ _ => .refl
  exact logic.attempt_emit hAttr hName hOther (.value hPlaces.1) fun hKnown =>
    .value (hPlaces.2 hKnown)

/- Nothing but a constant gets the name of one. -/
theorem constantUnit_declines (hOther : ∀ node mode, ¬ IsConstantUnit tree id node mode)
    (point : logic.Point) : logic.Holds point (constantUnit tree visit id) fun _ _ => False := by
  apply logic.walk_bind (logic.ends_here fun node _ hNode => ⟨node, hNode⟩)
  intro node hNode
  apply logic.unless_bind
  intro hAttr
  apply logic.bind (logic.needed_holds fun _ => .of_pure)
  intro mode _ _ hMode
  apply logic.bind (logic.ensure_holds (logic.ends_here fun _ hTree _ => ModeTable.isFoldable_ends
      (hTree.inRange.mode_lt hNode (Except.ok.inj hMode))))
  intro _ _ _ hFoldable
  apply logic.bind (logic.ensure_holds (logic.ends_here
    fun _ hTree hNode => hTree.isFinite.isConstant_ends hNode))
  intro _ _ _ hConst
  refine absurd ?_ (hOther node mode)
  refine ⟨hNode, ?_, Except.ok.inj hMode, hFoldable, hConst⟩
  by_cases hDenoter : node.attr = .denoter
  · exact .inl hDenoter
  · exact .inr (Classical.not_not.mp fun hIdent => hAttr ⟨hDenoter, hIdent⟩)

end Logic

end Generator

------ Visits

namespace Planner

variable {id : NodeId}

/- A part of a tree in which every node may be visited. -/
structure Visiting (tree : SyntaxTree) (total : Prop) (inside : NodeId → Prop)
    (visit : NodeId → Generation Unit) : Prop extends Spans tree total inside where
  goes : ∀ id, inside id → (visit id).Goes tree total inside

/- Siblings that may be visited are visited in turn. -/
theorem visitSiblings_goes (hVisiting : Visiting tree total inside visit)
    (hFirst : ∀ head ∈ first, inside head)
    (hEnds : total → ∃ ids, tree.Siblings first ids ∧ ids.length ≤ fuel) :
    (visitSiblings tree visit fuel first).Goes tree total inside := by
  induction fuel generalizing first with
  | zero =>
    cases first with
    | none => exact fun run _ => .refl run
    | some head =>
      intro run _ hTotal
      rcases hEnds hTotal with ⟨_, hSibs, hLen⟩
      rcases hSibs.exists_rest with ⟨rest, node, rfl, -⟩
      cases hLen
  | succ fuel ih =>
    cases first with
    | none => exact fun run _ => .refl run
    | some head =>
      have hHead : inside head := hFirst head rfl
      have hSome : total → ∃ node, tree.node head = .ok node ∧
          ∃ rest, tree.Siblings node.next rest ∧ rest.length ≤ fuel := by
        intro hTotal
        rcases hEnds hTotal with ⟨_, hSibs, hLen⟩
        rcases hSibs.exists_rest with ⟨rest, node, rfl, hNode, hRest⟩
        exact ⟨node, hNode, rest, hRest, Nat.le_of_succ_le_succ hLen⟩
      intro run hFull
      apply Step.Meets.bind (hVisiting.goes head hHead run hFull)
      intro _ mid hDraws
      apply Step.Meets.walk_bind fun hTotal => (hSome hTotal).imp fun _ hNode => hNode.1
      intro node hFound
      have hRest : (visitSiblings tree visit fuel node.next).Goes tree total inside := by
        apply ih
        · intro next hNext
          exact hVisiting.closed head next hHead ⟨node, hFound, .inr hNext⟩
        · intro hTotal
          rcases hSome hTotal with ⟨again, hAgain, hRest⟩
          cases hFound.symm.trans hAgain
          exact hRest
      apply (hRest mid (hFull.of_draws hDraws)).mono
      intro _ next hMore
      exact hDraws.trans hMore

theorem visitChildren_goes (hVisiting : Visiting tree total inside visit)
    (hLeads : Leads tree total inside id) (hSub : tree.sub? id = .ok first) :
    (visitSiblings tree visit tree.bound first).Goes tree total inside := by
  rcases Walk.bind_eq_ok.mp hSub with ⟨node, hNode, hFound⟩
  cases hFound
  apply visitSiblings_goes hVisiting
  · intro head hHead
    exact hLeads.link head ⟨node, hNode, .inl hHead⟩
  · intro hTotal
    rcases (hVisiting.conforms hTotal).children_ends hNode with ⟨kids, hKids⟩
    rcases SyntaxTree.children_eq_ok.mp hKids with ⟨again, hAgain, hSibs, hLen⟩
    cases hNode.symm.trans hAgain
    exact ⟨kids, hSibs, hLen⟩

end Planner

------ Attempts

open Generator

variable {α : Type} {total : Prop} {inside : NodeId → Prop}
variable {id : NodeId} {run : Run}

/-
  A node has a function when an attempt gives a name, and until then only nodes of a part of the
  tree were decided about.
-/
inductive Run.Ended (tree : SyntaxTree) (inside : NodeId → Prop) (id : NodeId)
    (run : Run) : Option String → Run → Prop
  | declined {next : Run} (hDraws : run.Draws tree inside next) : Ended tree inside id run none next
  | given {middle next : Run} {name : String} (hDraws : run.Draws tree inside middle)
      (hOutcome : Outcome tree id name middle.context next.context)
      (hAddition : Addition tree id name middle next.context)
      (hMarkings : middle.markings = next.markings) :
      Ended tree inside id run (some name) next

theorem Run.Ended.of_draws (hDraws : run.Draws tree inside mid)
    (hEnded : mid.Ended tree inside id res next) : run.Ended tree inside id res next := by
  cases hEnded with
  | declined hMore => exact .declined (hDraws.trans hMore)
  | given hMore hOutcome hAddition hMarkings =>
    exact .given (hDraws.trans hMore) hOutcome hAddition hMarkings

namespace Planning

/- What a generator does with a node, from some run on. -/
def Attempts (tree : SyntaxTree) (total : Prop) (inside : NodeId → Prop) (before : Run)
    (id : NodeId) (planning : Planning String) : Prop :=
  ∀ run : Run, before.Draws tree inside run → run.IsFull tree → Step.Meets total planning.run run
      (run.Ended tree inside id)

theorem Attempts.bind {planning : Planning α}
    (hPlans : planning.Plans tree total inside before post)
    (hRest : ∀ val mid, post mid val → Attempts tree total inside mid id (rest val)) :
    Attempts tree total inside before id (planning >>= rest) := by
  intro run hBefore hFull
  rw [OptionT.run_bind]
  apply Step.Meets.bind (hPlans run hBefore hFull)
  rintro (_ | val) mid ⟨hDraws, hVal⟩
  · exact .declined hDraws
  · apply (hRest val mid (hVal val rfl) mid (.refl mid) (hFull.of_draws hDraws)).mono
    intro res next hEnded
    exact hEnded.of_draws hDraws

variable {β : Type}

theorem meets_get_bind (hRest : Step.Meets total (rest run).run run post) :
    Step.Meets total (get >>= rest : Planning β).run run post :=
  hRest

theorem meets_needed_bind {walk : Walk (Option α)} (hWalk : walk = .ok (some val))
    (hRest : Step.Meets total (rest val).run run post) :
    Step.Meets total (needed walk >>= rest : Planning β).run run post := by
  subst hWalk
  exact hRest

theorem meets_ensure_bind (hWalk : walk = .ok true)
    (hRest : Step.Meets total (rest ()).run run post) :
    Step.Meets total (ensure walk >>= rest : Planning β).run run post := by
  subst hWalk
  exact hRest

end Planning

theorem Run.inContext_meets (hTask : Step.Meets total task run.context post) :
    Step.Meets total (Run.inContext task) run fun val next => ∃ ctx, post val ctx ∧
        { run with context := ctx } = next := by
  apply Step.Meets.get_bind
  apply Step.Meets.read_bind hTask
  rintro ⟨val, ctx⟩ hPost
  exact ⟨ctx, hPost, rfl⟩

namespace Generator

open Relation Emission Inline Planning Planner

/- A function is written, or its writer gives up. -/
theorem emit_meets (hWriter : Planned tree writer)
    (hEnds : total → ∃ node, tree.Conforms ∧ tree.node id = .ok node) (name : String) (run : Run) :
    Step.Meets total (emit tree id name writer).run run fun res next =>
      ∃ ctx, (res = none ∧ Context.Fails tree writer run.context ctx ∨ res = some name ∧
        ∃ func : Function, func.name = name ∧ run.context.Completes writer func ctx) ∧
          { run with context := ctx } = next := by
  refine Run.inContext_meets ((Context.emitFunction_meets hWriter id name run.context).of_ends ?_)
  intro hTotal
  rcases hEnds hTotal with ⟨node, hTree, hNode⟩
  exact Context.emitFunction_ends hTree hWriter hNode name run.context

theorem emit_attempts (hVisiting : Visiting tree total inside visit)
    (hLeads : Leads tree total inside id) (hAttr : tree.attr id = .ok attr)
    (hName : functionName tree id attr.shortName = .ok name)
    (hOther : ∀ node mode, ¬ IsConstantUnit tree id node mode)
    (hDrawn : Drawn tree before.Calls id writer) :
    Attempts tree total inside before id (emit tree id name writer) := by
  intro run hBefore _
  have hWriter := hDrawn.planned
  apply (emit_meets hWriter (fun hTotal => (hLeads.node hTotal).imp
    fun _ hNode => ⟨hVisiting.conforms hTotal, hNode⟩) name run).mono
  rintro res _ ⟨ctx, hRes, rfl⟩
  rcases hRes with ⟨rfl, hFails⟩ | ⟨rfl, func, hFun, hCompletes⟩
  · exact .declined (.quiet hFails.1 hFails.2.1)
  · have hCalled : Drawn tree run.Calls id writer := hDrawn.mono fun _ _ => hBefore.moves.calls
    exact .given (.refl run) (.own hAttr hName hOther hWriter hCompletes.issued.emitted
        hFun (hCompletes.defines hWriter))
      (.drawn hOther hCalled hFun hCompletes) rfl

/- A unit that is not written in place has a function. -/
theorem called_plans (hVisiting : Visiting tree total inside visit) (hInside : inside kid) :
    Plans tree total inside before (do
        visit kid
        match ← (← get).marking kid with
        | .compiled function => pure (.call function)
        | _ => failure : Planning ItemKind)
      fun later kind => ∃ function, kind = .call function ∧ later.Calls kid function := by
  apply (Plans.of_step (hVisiting.goes kid hInside)).bind
  intro _ _ _ _
  apply Plans.get_bind
  intro run hFull
  apply Plans.walk_bind (hVisiting.ends (hVisiting.leads hInside)
    fun node _ hNode => hFull.marking_ends hNode)
  intro marking hMarking
  cases marking with
  | compiled function =>
    apply Plans.of_pure
    intro later hLater
    exact ⟨function, rfl, hLater.moves.calls hMarking⟩
  | pending | notGenerated => exact .of_failure

theorem conforms_of_false (hKnown : False) : tree.Conforms := hKnown.elim

/- The logic of runs. -/
def runLogic (hVisiting : Visiting tree total inside visit) (hLeads : Leads tree total inside id) :
    Generator.Logic tree visit id where
  total := total
  known := False
  tier := 0
  inside := inside
  Point := Run
  Later := Run.Draws tree inside
  Calls := Run.Calls
  Holds := fun before planning post => planning.Plans tree total inside before post
  spans := hVisiting.toSpans
  conforms := conforms_of_false
  trans := .trans
  calls := fun hDraws => hDraws.moves.calls
  of_pure := .of_pure
  of_failure := .of_failure
  mono := .mono
  bind := .bind
  walk_bind := fun hWalk hRest => .walk_bind hWalk hRest
  tier_bind := fun _ hRest => .tier_bind fun tier => hRest tier False.elim
  of_item := fun hInside _ => called_plans hVisiting hInside
  of_sources := fun hLeads hFirst _ => .of_step (visitChildren_goes hVisiting hLeads hFirst)
  Attempts := fun before planning => planning.Attempts tree total inside before id
  leads := hLeads
  declined := fun run _ _ => .declined (.refl run)
  attempt := .bind
  attempt_walk := fun hWalk hRest run hBefore hFull =>
    meets_walk_bind hWalk fun value hValue => hRest value hValue run hBefore hFull
  attempt_tier := fun _ hRest run hBefore hFull =>
    hRest run.context.tier False.elim run hBefore hFull
  attempt_emit := fun hAttr hName hOther hDrawn _ =>
    emit_attempts hVisiting hLeads hAttr hName hOther hDrawn

------ Constants

namespace IsConstantUnit

theorem isFolded (hUnit : IsConstantUnit tree id entry mode) :
    isFolded tree id entry = .ok true := by
  unfold Inline.isFolded
  rcases hUnit.attr with hAttr | hAttr
  · rw [hAttr]
    rfl
  · rw [hAttr]
    exact hUnit.constant

theorem fold_meets (hTree : total → tree.Conforms) (hUnit : IsConstantUnit tree id entry mode)
    (ctx : Context) :
    Step.Meets total (Context.fold tree id) ctx fun val next => ctx.Quiet next ∧
        ctx.Changes tree next ∧ (val = none → ctx.errorCount < next.errorCount) ∧
          ∀ found ∈ val, FoldsTo tree id found ∧ ∀ re im, found = .complex re im →
              next.hasName (Value.pairName re im) = true := by
  have hFolds := (Context.fold_meets (fun _ : total => ⟨entry, hUnit.node⟩) fun hTotal =>
    evaluate_ends (hTree hTotal).toIsRegular hUnit.node hUnit.isFolded ctx.machine).with_run
  apply hFolds.mono
  rintro val next ⟨hRun, _, machine, -, -, hFolds⟩
  refine ⟨hFolds.quiet, .single (.fold hRun), ?_, ?_⟩
  · rintro rfl
    exact Nat.lt_of_succ_le hFolds.errorCount_eq.ge
  · rintro found rfl
    refine ⟨⟨ctx, next, hRun⟩, ?_⟩
    rintro re im rfl
    exact hFolds.taken rfl

end IsConstantUnit

theorem takeName_meets (name : String) (run : Run) :
    Step.Meets total (Run.inContext (do
        let taken ← modify fun ctx : Context => ctx.takeName name
        pure (some taken) : Context.Task (Option PUnit)))
      run fun res next =>
        res = some ⟨⟩ ∧ { run with context := run.context.takeName name } = next :=
  ⟨rfl, rfl⟩

/-
  A constant gets the function of its value, which is written
  if there is none yet. It is given up only for a problem.
-/
theorem constantUnit_meets (hVisiting : Visiting tree total inside visit)
    (hUnit : IsConstantUnit tree id entry mode) (run : Run) :
    Step.Meets total (constantUnit tree visit id).run run fun res next =>
        run.Ended tree inside id res next ∧ (res = none → run.context.errorCount <
            next.context.errorCount) := by
  have hAttr : ¬ (entry.attr ≠ .denoter ∧ entry.attr ≠ .identifier) := by
    rcases hUnit.attr with hAttr | hAttr <;> simp [hAttr]
  have hRange : total → mode.number < tree.modes.size :=
    fun hTotal => (hVisiting.conforms hTotal).inRange.mode_lt hUnit.node hUnit.moded
  apply meets_walk_bind fun _ => ⟨entry, hUnit.node⟩
  intro node hNode
  cases hUnit.node.symm.trans hNode
  rw [if_neg hAttr]
  apply meets_needed_bind (congrArg Except.ok hUnit.moded)
  apply meets_ensure_bind hUnit.foldable
  apply meets_ensure_bind hUnit.constant
  rw [OptionT.run_bind]
  apply Step.Meets.bind (Run.inContext_meets (hUnit.fold_meets hVisiting.conforms run.context))
  rintro (_ | val) _ ⟨folded, ⟨hQuiet, hChanges, hErrs, hVal⟩, rfl⟩
  · exact ⟨.declined (.quiet hQuiet hChanges), fun _ => hErrs rfl⟩
  · -- From here on a name is given in every case.
    rcases hVal val rfl with ⟨hFolds, hArray⟩
    have hDraws : run.Draws tree inside { run with context := folded } := .quiet hQuiet hChanges
    apply meets_walk_bind fun hTotal => (hVisiting.conforms hTotal).modes.codeName_ends
        (hRange hTotal)
    intro modeName hModeName
    have hName : constantName tree entry mode val =
        .ok ("_" ++ entry.attr.shortName ++ "_" ++ modeName ++ "_" ++ val.key) := by
      simp [constantName, hModeName]
    generalize "_" ++ entry.attr.shortName ++ "_" ++ modeName ++ "_" ++ val.key = name at hName ⊢
    apply meets_get_bind
    by_cases hTaken : folded.hasName name = true
    · rw [if_pos hTaken]
      exact .of_pure ⟨.given hDraws (.shared hUnit hFolds hName hTaken) (.none hUnit rfl) rfl,
          fun hNone => nomatch hNone⟩
    · rw [if_neg hTaken]
      have hNew : folded.hasName name = false := Bool.eq_false_of_not_eq_true hTaken
      rw [OptionT.run_bind]
      apply (takeName_meets name _).bind
      rintro _ _ ⟨rfl, rfl⟩
      have hPush : total → (pushOf tree mode (.constant val)).Ends := by
        intro hTotal
        have hModes : True → tree.modes.IsSound := fun _ => (hVisiting.conforms hTotal).modes
        rcases (pushOf_meets hModes (hRange hTotal) (.constant val)).answer with ⟨push, hPush, -⟩
        exact ⟨push, hPush⟩
      apply meets_walk_bind hPush
      intro push hPushed
      have hEnds : total → ∃ node, tree.Conforms ∧ tree.node id = .ok node := fun hTotal =>
          ⟨entry, hVisiting.conforms hTotal, hUnit.node⟩
      apply (emit_meets .statements hEnds name _).mono
      rintro _ _ ⟨ctx, ⟨-, hFails⟩ | ⟨rfl, func, hFun, hCompletes⟩, rfl⟩
      · exact absurd hFails Context.not_fails_ofStatements
      · exact ⟨.given hDraws (.first hUnit hFolds hName hNew hCompletes.issued.emitted hFun
            (hCompletes.defines (.statements : Planned tree _)))
          (.constant hUnit hArray hPushed hFun hCompletes) rfl,
          fun hNone => nomatch hNone⟩

------ The Table of Generators

/- A node is given a function by one of several generators. -/
def Tries (tree : SyntaxTree) (total : Prop) (inside : NodeId → Prop) (id : NodeId)
    (step : Generation (Option String)) : Prop :=
  ∀ run : Run, run.IsFull tree → Step.Meets total step run (run.Ended tree inside id)

/- The rest is tried only if there was no problem. -/
theorem tryInOrder_cons (hFull : run.IsFull tree)
    (hAttempt : Step.Meets total (gen.attempt tree visit id).run run
      fun res next => run.Ended tree inside id res next ∧ (res = none → proceed ∨
          run.context.errorCount < next.context.errorCount))
    (hRest : proceed → Tries tree total inside id (tryInOrder tree visit id generators)) :
    Step.Meets total (tryInOrder tree visit id (gen :: generators)) run
      (run.Ended tree inside id) := by
  apply Step.Meets.get_bind
  apply hAttempt.bind
  rintro (_ | name) mid ⟨hEnded, hDeclined⟩
  · cases hEnded with
    | declined hDraws =>
      apply Step.Meets.get_bind
      split
      · exact .of_pure (.declined hDraws)
      · rename_i hErrs
        have hProceed : proceed := (hDeclined rfl).resolve_right hErrs
        apply (hRest hProceed mid (hFull.of_draws hDraws)).mono
        intro res next hNext
        exact hNext.of_draws hDraws
  · exact .of_pure hEnded

/- Generators that may be tried in any case come first. -/
theorem tryInOrder_append (hFirst : ∀ gen ∈ first, ∀ before, Attempts tree total inside before id
        (gen.attempt tree visit id))
    (hSecond : Tries tree total inside id (tryInOrder tree visit id second)) :
    Tries tree total inside id (tryInOrder tree visit id (first ++ second)) := by
  induction first with
  | nil => exact hSecond
  | cons gen rest ih =>
    intro run hFull
    have hRest := ih fun other hOther => hFirst other (List.mem_cons_of_mem _ hOther)
    have hAttempt := hFirst gen List.mem_cons_self run run (.refl run) hFull
    apply tryInOrder_cons hFull _ fun _ : True => hRest
    apply hAttempt.mono
    intro res next hEnded
    exact ⟨hEnded, fun _ => .inl trivial⟩

variable (hVisiting : Visiting tree total inside visit) (hLeads : Leads tree total inside id)

include hVisiting hLeads

/- Constants are tried before other units. -/
theorem units_tries :
    Tries tree total inside id (tryInOrder tree visit id [⟨Tier.units, "constant", constantUnit⟩,
          ⟨Tier.units, "unit", basicUnit⟩]) := by
  intro run hFull
  have hUnits : (∀ node mode, ¬ IsConstantUnit tree id node mode) → Tries tree total inside id
          (tryInOrder tree visit id [⟨Tier.units, "unit", basicUnit⟩]) := by
    intro hOther
    have hAttempts : ∀ generator ∈ [(⟨Tier.units, "unit", basicUnit⟩ : Generator)],
        ∀ before, Attempts tree total inside before id (generator.attempt tree visit id) := by
      intro generator hGen before
      rw [List.mem_singleton.mp hGen]
      exact (runLogic hVisiting hLeads).basicUnit_attempt hOther before
    exact tryInOrder_append hAttempts fun run _ => .of_pure (.declined (.refl run))
  apply tryInOrder_cons hFull _ hUnits
  by_cases hUnit : ∃ node mode, IsConstantUnit tree id node mode
  · rcases hUnit with ⟨node, mode, hUnit⟩
    apply (constantUnit_meets hVisiting hUnit run).mono
    rintro res next ⟨hEnded, hErrs⟩
    exact ⟨hEnded, fun hNone => .inr (hErrs hNone)⟩
  · have hOther : ∀ node mode, ¬ IsConstantUnit tree id node mode :=
      fun node mode hConst => hUnit ⟨node, mode, hConst⟩
    apply ((runLogic hVisiting hLeads).constantUnit_declines hOther run run (.refl run) hFull).mono
    rintro (_ | name) next ⟨hDraws, hNever⟩
    · exact ⟨.declined hDraws, fun _ => .inl hOther⟩
    · exact (hNever name rfl).elim

theorem generateWith_tries : Tries tree total inside id (generateWith tree visit id) := by
  intro run hFull
  let isTried : Generator → Bool := fun generator => decide (generator.tier ≤ run.context.tier)
  have hSplit : table.filter isTried = (table.take 7).filter isTried ++
        (table.drop 7).filter isTried := by
    rw [← List.filter_append, List.take_append_drop]
  have hClauses : ∀ generator ∈ (table.take 7).filter isTried,
      ∀ before, Attempts tree total inside before id (generator.attempt tree visit id) :=
    fun generator hGen => (runLogic hVisiting hLeads).clauses_attempt (List.mem_of_mem_filter hGen)
  have hUnits : Tries tree total inside id (tryInOrder tree visit id
        ((table.drop 7).filter isTried)) := by
    -- Both generators of units are tried from the same tier on.
    by_cases hTier : Tier.units ≤ run.context.tier
    · have hBoth : (table.drop 7).filter isTried = [⟨Tier.units, "constant", constantUnit⟩,
            ⟨Tier.units, "unit", basicUnit⟩] := by
        simp [table, isTried, hTier]
      rw [hBoth]
      exact units_tries hVisiting hLeads
    · have hNone : (table.drop 7).filter isTried = [] := by
        simp [table, isTried, hTier]
      rw [hNone]
      exact fun run _ => .of_pure (.declined (.refl run))
  have hAll := tryInOrder_append hClauses hUnits
  rw [← hSplit] at hAll
  exact hAll run hFull

end Generator

end Algol68

------ The Walk

namespace Algol68

namespace Generator

open Relation Planner

variable {tree : SyntaxTree} {id : NodeId}

/- A node and what is linked from it. -/
def Within (tree : SyntaxTree) (id other : NodeId) : Prop :=
  other = id ∨ TransGen tree.Link id other

theorem Within.of_link (hPath : TransGen tree.Link id kid) (hWithin : Within tree kid other) :
    TransGen tree.Link id other := by
  rcases hWithin with rfl | hMore
  · exact hPath
  · exact hPath.trans hMore

theorem siblings_exist (hTree : tree.Conforms) (hNode : ∃ node, tree.node id = .ok node) :
    ∃ ids, tree.Siblings (some id) ids ∧ ids.length ≤ tree.bound := by
  rcases hNode with ⟨node, hNode⟩
  rcases hTree.isLinked.exists_siblings (fun next hNext => ⟨node, hNode, .inr hNext⟩) with
    ⟨rest, hRest, hLen⟩
  exact ⟨id :: rest, ⟨rfl, node, hNode, hRest⟩, Nat.lt_of_le_of_lt hLen (tree.rank_lt_bound id)⟩

/- The one node that is asked about is decided about last, or before those below it. -/
theorem visitNode_settles {visit : NodeId → Generation Unit}
    (hVisiting : Visiting tree total (TransGen tree.Link id) visit)
    (hNode : total → ∃ node, tree.node id = .ok node) (hAcyclic : ¬ TransGen tree.Link id id)
    (hFull : run.IsFull tree) :
    Step.Meets total (visitNode tree visit id) run
      fun _ next => run.Draws tree (Within tree id) next ∧ next.Annotated id := by
  have hLeads : Leads tree total (TransGen tree.Link id) id :=
    ⟨hNode, fun kid hLink => .single hLink⟩
  have hWider : ∀ other, TransGen tree.Link id other → Within tree id other :=
    fun _ hPath => .inr hPath
  apply Step.Meets.get_bind
  apply Step.Meets.walk_bind (hVisiting.ends hLeads fun _ _ hNode => hFull.marking_ends hNode)
  intro marking hMarking
  split
  · rename_i hPending
    have hAsked : run.marking id = .ok .pending := by
      cases marking with
      | pending => exact hMarking
      | notGenerated | compiled => cases hPending
    apply Step.Meets.bind (generateWith_tries hVisiting hLeads run hFull)
    rintro res next hEnded
    cases hEnded with
    | given hDraws hOutcome hAddition hMarkings =>
      rename_i mid name
      have hStill : mid.marking id = .ok .pending := by
        rw [hDraws.moves.marking_eq hAcyclic]
        exact hAsked
      have hCompile : mid.Draws tree (Within tree id) (mid.compiledAs next.context id name) :=
        .compile (.inl rfl) hStill hOutcome hAddition
      have hDone : (mid.compiledAs next.context id name).Annotated id :=
        Run.annotated_mark hStill (by simp)
      have hSame : mid.compiledAs next.context id name =
          next.compiledAs next.context id name := by
        simp only [Run.compiledAs, hMarkings]
      rw [hSame] at hCompile hDone
      exact ⟨(hDraws.mono hWider).trans hCompile, hDone⟩
    | declined hDraws =>
      have hStill : next.marking id = .ok .pending := by
        rw [hDraws.moves.marking_eq hAcyclic]
        exact hAsked
      have hDecline : next.Draws tree (Within tree id) (next.mark id .notGenerated) :=
        .decline (.inl rfl) hStill
      have hDone : (next.mark id .notGenerated).Annotated id := Run.annotated_mark hStill (by simp)
      have hDeclined := (hDraws.mono hWider).trans hDecline
      apply Step.Meets.modify_bind
      apply Step.Meets.get_bind
      split
      · apply Step.Meets.walk_bind (hVisiting.ends hLeads fun _ _ hNode => sub?_ends hNode)
        intro first hFirst
        apply (visitChildren_goes hVisiting hLeads hFirst _ (hFull.of_draws hDeclined)).mono
        intro _ last hMore
        exact ⟨hDeclined.trans (hMore.mono hWider), hMore.moves.annotated hDone⟩
      · exact .of_pure ⟨hDeclined, hDone⟩
  · rename_i hDecided
    refine .of_pure ⟨.refl run, marking, hMarking, ?_⟩
    rintro rfl
    exact hDecided rfl

theorem Goes.mono {step : Generation Unit} (hGoes : step.Goes tree total inside)
    (hWider : ∀ id, inside id → wider id) : step.Goes tree total wider := by
  intro run hFull
  apply (hGoes run hFull).mono
  intro _ next hDraws
  exact hDraws.mono hWider

variable (hTree : total → tree.Conforms) (hForest : tree.IsForest)
variable (hNode : total → ∃ node, tree.node id = .ok node)

include hTree hForest hNode

/- Nodes within a depth are visited, and the first decided. -/
theorem visitWithin_settles (hFuel : total → tree.rank id < fuel) (hFull : run.IsFull tree) :
    Step.Meets total (visitWithin tree fuel id) run
      fun _ next => run.Draws tree (Within tree id) next ∧ next.Annotated id := by
  induction fuel generalizing id run with
  | zero => exact fun hTotal => Nat.not_lt_zero _ (hFuel hTotal)
  | succ fuel ih =>
    refine visitNode_settles ⟨⟨hTree, ?_, ?_⟩, ?_⟩ hNode (hForest.acyclic id) hFull
    · intro hTotal kid hPath
      exact ((hTree hTotal).isLinked.isPart_of_path hPath).exists_node
    · intro parent kid hPath hLink
      exact hPath.tail hLink
    · intro kid hPath run hFull
      have hKid : total → ∃ node, tree.node kid = .ok node := fun hTotal =>
          ((hTree hTotal).isLinked.isPart_of_path hPath).exists_node
      have hLess : total → tree.rank kid < fuel := by
        intro hTotal
        rcases hKid hTotal with ⟨node, hFound⟩
        have hRank := hForest.rank_lt hPath hFound
        have hBound := hFuel hTotal
        omega
      apply (ih hKid hLess hFull).mono
      rintro _ next ⟨hDraws, -⟩
      exact hDraws.mono fun other hWithin => hWithin.of_link hPath

theorem visitWithin_goes (hFuel : total → tree.rank id < fuel) :
    (visitWithin tree fuel id).Goes tree total (Within tree id) :=
  fun _ hFull => (visitWithin_settles hTree hForest hNode hFuel hFull).mono fun _ _ hBoth => hBoth.1

/- A node and its following siblings are visited. -/
theorem visit_goes : (visit tree id).Goes tree total (Within tree id) := by
  have hNodes : total → ∀ other, Within tree id other → ∃ node, tree.node other = .ok node := by
    intro hTotal other hWithin
    rcases hWithin with rfl | hPath
    · exact hNode hTotal
    · exact ((hTree hTotal).isLinked.isPart_of_path hPath).exists_node
  have hVisiting : Visiting tree total (Within tree id) (visitUnit tree) := by
    refine ⟨⟨hTree, hNodes, ?_⟩, ?_⟩
    · intro parent kid hWithin hLink
      rcases hWithin with rfl | hPath
      · exact .inr (.single hLink)
      · exact .inr (hPath.tail hLink)
    · intro other hWithin
      have hGoes := visitWithin_goes hTree hForest (fun hTotal => hNodes hTotal other hWithin)
        (fun _ => tree.rank_lt_bound other)
      refine Goes.mono hGoes ?_
      intro below hBelow
      rcases hWithin with rfl | hPath
      · exact hBelow
      · exact .inr (hBelow.of_link hPath)
  apply visitSiblings_goes hVisiting
  · rintro head ⟨⟩
    exact .inl rfl
  · intro hTotal
    exact siblings_exist (hTree hTotal) (hNode hTotal)

end Generator

end Algol68
