import Algol68.Proofs.Declaration
import Algol68.Proofs.Labels

/-
  Constants, and the identities behind them.

  The answer whether a unit is constant rests on the units it
  is made of and, for a name, on the source of its identity
  declaration. The tags on the way are kept in one set that
  all questions share: a tag is put in before its source is
  looked at and taken out afterwards. A constant unit has an
  evaluation that neither sees nor changes what lies on the
  stack.

  Main declarations:
    * `SyntaxTree.IsFinite.identities_leave_no_trace`
    * `SyntaxTree.HasArities.execute_settles`
    * `SyntaxTree.constants_are_basic`
-/

------ What an Answer Rests On

namespace Algol68

variable {tree : SyntaxTree} (test : NodeId → Walk Bool)

namespace Classifier

/- What must hold for a unit to be constant. -/
inductive Expansion
  | refused
  | parts (ids : List NodeId)
  | source (tag : TagId) (id : NodeId)

/- All of some units, if a test is passed. -/
def partsIf (test : Walk Bool) (ids : List NodeId) : Walk Expansion := do
  if ← test then pure (.parts ids) else pure .refused

/- A name of a builtin, or of an identity declaration. -/
def expandName (tree : SyntaxTree) (node : Node) : Walk Expansion := do
  match node.tag with
  | none => pure .refused
  | some tag => do
    let entry ← tree.tags.fetch tag
    match entry.builtin, entry.kind, entry.value with
    | some builtin, _, _ => partsIf (pure (builtin.arity == 0 && builtin.isConstant)) []
    | none, .identifier, some source => pure (.source tag source)
    | none, _, _ => pure .refused

/- A call of a standard procedure that is no `random`. -/
def expandCall (tree : SyntaxTree) (id : NodeId) : Walk Expansion := do
  match ← tree.firstChildren id 1 with
  | [callee] => do
    match ← tree.builtin? callee with
    | some builtin => do
      if builtin.isConstant then
        let arguments := (← tree.children id).tail
        partsIf (pure (arguments.length = builtin.arity)) arguments
      else pure .refused
    | none => pure .refused
  | _ => pure .refused

/- The only unit of a serial clause. -/
def expandSerial (tree : SyntaxTree) (serial : NodeId) : Walk Expansion := do
  if (← tree.attr serial) = .serialClause then
    if ← tree.hasLabels serial then pure .refused
    else
      match ← tree.firstChildren serial 2 with
      | [only] => do
        partsIf (pure !(← tree.attr only).isDeclaration) [only]
      | _ => pure .refused
  else pure .refused

/- The members of a display. -/
def expandDisplay (tree : SyntaxTree) (id : NodeId) (mode : ModeId) : Walk Expansion := do
  if ← tree.modes.isBasicStruct mode then
    match ← tree.modes.kind mode with
    | .struct fields => do
      let members ← tree.children id
      partsIf (pure (members.length = fields.length)) members
    | _ => pure .refused
  else pure .refused

/- What a unit of a foldable mode rests on. -/
def expandShape (tree : SyntaxTree) (id : NodeId) (node : Node) (mode : ModeId) :
    Walk Expansion := do
  match node.attr, node.sub with
  | .denoter, _ => pure (.parts [])
  | .identifier, _ => expandName tree node
  | .formula, _ => do
    match ← tree.firstChildren id 3 with
    | [left, operator, right] => partsIf (isKnownOperator tree .constant operator) [left, right]
    | _ => pure .refused
  | .monadicFormula, _ => do
    match ← tree.firstChildren id 2 with
    | [operator, operand] => partsIf (isKnownOperator tree .constant operator) [operand]
    | _ => pure .refused
  | .call, _ => expandCall tree id
  | .cast, some operand => pure (.parts [operand])
  | .widening, some operand => do
    match ← tree.mode? operand with
    | some source => partsIf (isWidening tree source mode) [operand]
    | none => pure .refused
  | .closedClause, some serial => expandSerial tree serial
  | .serialClause, _ => expandSerial tree id
  | .collateralClause, _ => expandDisplay tree id mode
  | _, _ => pure .refused

/- What the answer for a unit rests on. -/
def expand (tree : SyntaxTree) (id : NodeId) : Walk Expansion := do
  let node ← tree.node id
  match node.mode with
  | none => pure .refused
  | some mode => do
    if node.attr = .voiding then pure .refused
    else if ← tree.modes.isFoldable mode then expandShape tree id node mode
    else pure .refused

------ One Set for All Questions

/-
  The answer for a unit. The tags whose declarations are being
  followed are put into the set and taken out of it again.
-/
def constantWithin (tree : SyntaxTree) : Nat → NodeId → StateT (List TagId) Walk Bool
  | 0, _ => throw .unbounded
  | fuel + 1, id => do
    match ← expand tree id with
    | .refused => pure false
    | .parts ids => ids.allM (constantWithin tree fuel)
    | .source tag source => do
      if (← get).contains tag then pure false
      else
        modify (tag :: ·)
        let answer ← constantWithin tree fuel source
        modify (·.erase tag)
        pure answer

/- A question about a unit. -/
inductive Question
  | basic (id : NodeId) (tier : Nat)
  | constant (id : NodeId)

namespace Question

/- The unit that a question is about. -/
def id : Question → NodeId
  | .basic id _ => id
  | .constant id => id

/- The answer when nothing was asked before. -/
def fresh (tree : SyntaxTree) : Question → Walk Bool
  | .basic id tier => tree.isBasic id tier
  | .constant id => tree.isConstant id

/- The answer with the set that earlier questions left. -/
def ask (tree : SyntaxTree) : Question → StateT (List TagId) Walk Bool
  | .basic id tier => do
    if Tier.units ≤ tier then unit tree { Query.basic tier with active := ← get } id else pure false
  | .constant id => constantWithin tree tree.bound id

end Question

variable {unit : Judge} {id : NodeId}

/- Whether a unit is constant while tags are being followed. -/
def Query.constantIn (active : List TagId) : Query := { Query.constant with active := active }

/- The answer, where a judge answers for the parts. -/
def Expansion.answer (unit : Judge) (active : List TagId) : Expansion → Walk Bool
  | .refused => pure false
  | .parts ids => ids.allM (unit (.constantIn active))
  | .source tag id =>
    if active.contains tag then pure false else unit (.constantIn (tag :: active)) id

theorem partsIf_answer (test : Walk Bool) (ids : List NodeId) :
    partsIf test ids >>= Expansion.answer unit active =
      test.and (ids.allM (unit (.constantIn active))) := by
  rcases test with _ | _ | _ <;> rfl

theorem allM_one (id : NodeId) : [id].allM test = test id := by
  rcases hTest : test id with _ | _ | _ <;> simp [hTest]

theorem allM_two (first second : NodeId) :
    [first, second].allM test = (test first).and (test second) := by
  rw [← allM_one test second]
  rcases hTest : test first with _ | _ | _ <;> simp only [List.allM, hTest] <;> rfl

theorem identifier_eq (node : Node) : identifier tree unit (.constantIn active) node =
      expandName tree node >>= Expansion.answer unit active := by
  unfold identifier expandName
  cases node.tag with
  | none => rfl
  | some tag =>
    rw [bind_assoc]
    refine bind_congr fun entry => ?_
    cases entry.builtin with
    | none => cases entry.kind <;> cases entry.value <;> rfl
    | some builtin =>
      rw [partsIf_answer]
      change pure (builtin.arity == 0 && builtin.isConstant) = _
      cases builtin.arity == 0 && builtin.isConstant <;> rfl

theorem call_eq (id : NodeId) : call tree unit (.constantIn active) id =
      expandCall tree id >>= Expansion.answer unit active := by
  unfold call expandCall
  rw [bind_assoc]
  refine bind_congr fun kids => ?_
  rcases kids with _ | ⟨callee, _ | ⟨_, _⟩⟩
  · rfl
  · rw [bind_assoc]
    refine bind_congr fun builtin => ?_
    cases builtin with
    | none => rfl
    | some builtin =>
      cases hConst : builtin.isConstant with
      | false => simp [Query.constantIn, Query.constant, hConst, Expansion.answer]
      | true =>
        simp only [hConst, if_true, bind_assoc]
        refine bind_congr fun kids => ?_
        by_cases hArity : kids.tail.length = builtin.arity
        · rw [if_pos hArity, decide_eq_true hArity]
          rfl
        · rw [if_neg hArity, decide_eq_false hArity]
          rfl
  · rfl

theorem singleUnit_eq (serial : NodeId) : singleUnit tree unit (.constantIn active) serial =
      expandSerial tree serial >>= Expansion.answer unit active := by
  unfold singleUnit expandSerial
  rw [bind_assoc]
  refine bind_congr fun attr => ?_
  split
  · rcases tree.hasLabels serial with _ | _ | _
    · rfl
    · simp only [Walk.ok_bind, Bool.false_eq_true, if_false, bind_assoc]
      refine bind_congr fun kids => ?_
      rcases kids with _ | ⟨only, _ | ⟨_, _⟩⟩
      · rfl
      · simp only [bind_assoc, partsIf_answer, allM_one]
        refine bind_congr fun attr => ?_
        cases attr.isDeclaration <;> rfl
      · rfl
    · rfl
  · rfl

theorem collateral_eq (hNode : tree.node id = .ok node) (hMode : node.mode = some mode) :
    collateral tree unit (.constantIn active) id =
      expandDisplay tree id mode >>= Expansion.answer unit active := by
  unfold collateral expandDisplay
  rw [SyntaxTree.mode?_eq hNode, hMode]
  dsimp only [Walk.ok_bind]
  rcases tree.modes.isBasicStruct mode with _ | _ | _
  · rfl
  · rfl
  · simp only [Walk.ok_bind, if_true, bind_assoc]
    refine bind_congr fun kind => ?_
    cases kind with
    | struct fields =>
      simp only [bind_assoc]
      refine bind_congr fun members => ?_
      by_cases hLen : members.length = fields.length
      · rw [if_pos hLen, decide_eq_true hLen]
        rfl
      · rw [if_neg hLen, decide_eq_false hLen]
        rfl
    | _ => rfl

theorem shape_eq (hNode : tree.node id = .ok node) (hMode : node.mode = some mode)
    (hFoldable : tree.modes.isFoldable mode = .ok true) :
    shape tree unit (.constantIn active) id node mode =
      expandShape tree id node mode >>= Expansion.answer unit active := by
  unfold shape expandShape
  cases hAttr : node.attr with
  | identifier => exact identifier_eq node
  | formula =>
    simp only [bind_assoc]
    refine bind_congr fun kids => ?_
    rcases kids with _ | ⟨left, _ | ⟨operator, _ | ⟨right, _ | ⟨_, _⟩⟩⟩⟩ <;> try rfl
    rw [partsIf_answer, allM_two]
    rfl
  | monadicFormula =>
    simp only [bind_assoc]
    refine bind_congr fun kids => ?_
    rcases kids with _ | ⟨operator, _ | ⟨op, _ | ⟨_, _⟩⟩⟩ <;> try rfl
    rw [partsIf_answer, allM_one]
    rfl
  | call => exact call_eq id
  | cast =>
    cases node.sub with
    | none =>
      rw [hFoldable]
      rfl
    | some op =>
      change (tree.modes.isFoldable mode).and (unit (.constantIn active) op) =
        [op].allM (unit (.constantIn active))
      rw [hFoldable, allM_one]
      rfl
  | widening =>
    unfold widening
    cases node.sub with
    | none => rfl
    | some op =>
      rw [bind_assoc]
      refine bind_congr fun source => ?_
      cases source with
      | none => rfl
      | some source =>
        rw [partsIf_answer, allM_one]
  | closedClause =>
    cases node.sub with
    | none => rfl
    | some serial => exact singleUnit_eq serial
  | serialClause => exact singleUnit_eq id
  | collateralClause => exact collateral_eq hNode hMode
  | _ => rfl

theorem judge_constant (id : NodeId) :
    judge tree unit (.constantIn active) id = expand tree id >>= Expansion.answer unit active := by
  unfold judge expand
  cases hNode : tree.node id with
  | error => rfl
  | ok node =>
    cases hMode : node.mode with
    | none => simp [hMode]; rfl
    | some mode =>
      simp only [Walk.ok_bind, hMode]
      split
      · rfl
      · change (tree.modes.isFoldable mode).and _ = _
        rcases hFoldable : tree.modes.isFoldable mode with _ | _ | _
        · rfl
        · rfl
        · exact shape_eq hNode hMode hFoldable

/- The set is left as it was found, and the answer is the one for the tags in it. -/
theorem constantWithin_run (fuel : Nat) (active : List TagId) (id : NodeId) :
    (constantWithin tree fuel id).run active =
      (·, active) <$> unitWithin tree fuel (.constantIn active) id := by
  induction fuel generalizing active id with
  | zero => rfl
  | succ fuel ih =>
    have hAll : ∀ ids : List NodeId, (ids.allM (constantWithin tree fuel)).run active =
        (·, active) <$> ids.allM (unitWithin tree fuel (.constantIn active)) := by
      intro ids
      induction ids with
      | nil => rfl
      | cons first rest ihRest =>
        rw [List.allM, StateT.run_bind, ih, List.allM]
        rcases unitWithin tree fuel (.constantIn active) first with _ | _ | _
        · rfl
        · rfl
        · exact ihRest
    rw [unitWithin, judge_constant, constantWithin]
    cases hExpand : expand tree id with
    | error fault => rfl
    | ok expansion =>
      cases expansion with
      | refused => rfl
      | parts ids => exact hAll ids
      | source tag source =>
        change (if active.contains tag then pure false else _ : StateT (List TagId) Walk Bool).run
          active = _ <$> (if active.contains tag then pure false else _)
        split
        · rfl
        · change ((constantWithin tree fuel source).run (tag :: active) >>= _) = _
          rw [ih]
          rcases unitWithin tree fuel (.constantIn (tag :: active)) source with _ | answer
          · rfl
          · change Except.ok (answer, (tag :: active).erase tag) = .ok (answer, active)
            rw [List.erase_cons_head]

end Classifier

------ Tags on the Way

/- A member fails a test that was answered no for the list. -/
theorem Walk.exists_of_allM {α : Type} {test : α → Walk Bool} {members : List α}
    (hAll : members.allM test = .ok false) : ∃ member ∈ members, test member = .ok false := by
  induction members with
  | nil => cases hAll
  | cons first rest ih =>
    rw [List.allM, bind_eq_ok] at hAll
    rcases hAll with ⟨_ | _, hFirst, hRest⟩
    · exact ⟨first, List.mem_cons_self, hFirst⟩
    · rcases ih hRest with ⟨member, hMem, hTest⟩
      exact ⟨member, List.mem_cons_of_mem _ hMem, hTest⟩

namespace SyntaxTree

open Classifier

variable {id : NodeId}

/-
  The answer for a unit rests on that for another. The tags
  whose sources are being looked at are kept, the last first.
-/
inductive Expands (tree : SyntaxTree) : List TagId × NodeId → List TagId × NodeId → Prop
  | part {path : List TagId} {id part : NodeId} {ids : List NodeId}
      (hParts : expand tree id = .ok (.parts ids)) (hPart : part ∈ ids) :
      Expands tree (path, id) (path, part)
  | source {path : List TagId} {id source : NodeId} {tag : TagId}
      (hSource : expand tree id = .ok (.source tag source)) :
      Expands tree (path, id) (tag :: path, source)

/- A unit is expanded, and no tag is entered again. -/
def IsExpanded (tree : SyntaxTree) (place : List TagId × NodeId) : Prop :=
  place.1.Nodup ∧ expand tree place.2 ≠ .ok .refused

/- Whatever an accepted unit rests on is expanded. -/
theorem isExpanded_of_unitWithin (hActive : active.Nodup)
    (hUnit : unitWithin tree fuel (.constantIn active) id = .ok true)
    (hPlace : Relation.ReflTransGen tree.Expands (active, id) place) : tree.IsExpanded place := by
  induction fuel generalizing active id with
  | zero => cases hUnit
  | succ fuel ih =>
    rw [unitWithin, judge_constant, Walk.bind_eq_ok] at hUnit
    rcases hUnit with ⟨expansion, hExpand, hAnswer⟩
    rcases hPlace.cases_head with rfl | ⟨next, hStep, hRest⟩
    · refine ⟨hActive, ?_⟩
      rw [hExpand]
      rintro ⟨⟩
      cases hAnswer
    · cases hStep with
      | part hParts hPart =>
        cases hExpand.symm.trans hParts
        exact ih hActive (Walk.allM_eq_true.mp hAnswer _ hPart) hRest
      | source hSrc =>
        cases hExpand.symm.trans hSrc
        simp only [Expansion.answer, List.contains_iff_mem] at hAnswer
        split at hAnswer
        · cases hAnswer
        · rename_i hFresh
          exact ih (List.nodup_cons.mpr ⟨hFresh, hActive⟩) hAnswer hRest

/- A refused unit rests on one that is not expanded. -/
theorem exists_not_isExpanded (hUnit : unitWithin tree fuel (.constantIn active) id = .ok false) :
    ∃ place, Relation.ReflTransGen tree.Expands (active, id) place ∧ ¬ tree.IsExpanded place := by
  induction fuel generalizing active id with
  | zero => cases hUnit
  | succ fuel ih =>
    rw [unitWithin, judge_constant, Walk.bind_eq_ok] at hUnit
    rcases hUnit with ⟨expansion, hExpand, hAnswer⟩
    cases expansion with
    | refused => exact ⟨_, .refl, fun hPlace => hPlace.2 hExpand⟩
    | parts ids =>
      rcases Walk.exists_of_allM hAnswer with ⟨part, hPart, hUnit⟩
      rcases ih hUnit with ⟨place, hPlace, hNot⟩
      exact ⟨place, .head (.part hExpand hPart) hPlace, hNot⟩
    | source tag source =>
      simp only [Expansion.answer, List.contains_iff_mem] at hAnswer
      split at hAnswer
      · rename_i hEntered
        refine ⟨_, .single (.source hExpand), ?_⟩
        rintro ⟨hNodup, -⟩
        exact (List.nodup_cons.mp hNodup).1 hEntered
      · rcases ih hAnswer with ⟨place, hPlace, hNot⟩
        exact ⟨place, .head (.source hExpand) hPlace, hNot⟩

/- The first few children of every node can be read. -/
theorem IsInRange.isReadable (hTree : tree.IsInRange) : tree.IsReadable := by
  have hSibs : ∀ count first, (∀ id ∈ first, id.number < tree.nodes.size) →
      (tree.firstSiblings count first).Ends := by
    intro count
    induction count with
    | zero => exact fun _ _ => .of_pure
    | succ count ih =>
      intro first hFirst
      cases first with
      | none => exact .of_pure
      | some first =>
        refine .bind (Store.exists_fetch (hFirst first rfl)) ?_
        intro node hNode
        exact .bind (ih _ (hTree.nodes first node hNode).next) fun _ _ => .of_pure
  intro id node count hNode
  refine .bind ⟨node.sub, by simp [sub?, hNode]⟩ ?_
  rintro first hFirst
  obtain rfl : node.sub = first := by simpa [sub?, hNode] using hFirst
  exact hSibs count node.sub (hTree.nodes id node hNode).sub

theorem IsInRange.evaluates (hTree : tree.IsInRange) (hArities : fit → tree.HasArities)
    (hConst : tree.isConstant id = .ok true) :
    Machine.Evaluates tree fit False [id] (Machine.execute tree id) :=
  Machine.executeWithin_evaluates hTree.isReadable hArities False.elim rfl hConst le_rfl

theorem IsFinite.constantIn_ends (hTree : tree.IsFinite)
    (hValid : (Query.constantIn active).IsValid tree) (hNode : (tree.node id).Ends) :
    (unit tree (.constantIn active) id).Ends :=
  (unit_follows (fun _ => hTree) (fun _ => hValid) (.refl _) fun _ => hNode).settled

theorem IsFinite.session_run (hTree : tree.IsFinite)
    (hQuestions : ∀ question ∈ questions, (tree.node question.id).Ends) :
    ∃ answers, (questions.mapM (Question.ask tree)).run [] = .ok (answers, []) ∧
      List.Forall₂ (fun question answer => question.fresh tree = .ok answer) questions answers := by
  have hAsk : ∀ question : Question, (question.ask tree).run [] =
      (·, []) <$> question.fresh tree := by
    rintro (⟨id, tier⟩ | id)
    · simp only [Question.ask, Question.fresh, isBasic]
      split
      · change (unit tree (.basic tier) id >>= fun answer => pure (answer, [])) = _
        cases unit tree (.basic tier) id <;> rfl
      · rfl
    · exact constantWithin_run _ _ _
  induction questions with
  | nil => exact ⟨[], rfl, .nil⟩
  | cons question rest ih =>
    rcases ih fun other hOther => hQuestions other (List.mem_cons_of_mem _ hOther) with
      ⟨answers, hRun, hAnswers⟩
    rcases hQuestions question List.mem_cons_self with ⟨node, hNode⟩
    have hEnds : (question.fresh tree).Ends := by
      cases question with
      | basic id tier => exact hTree.isBasic_ends hNode tier
      | constant id => exact hTree.isConstant_ends hNode
    rcases hEnds with ⟨answer, hAnswer⟩
    refine ⟨answer :: answers, ?_, .cons hAnswer hAnswers⟩
    rw [List.mapM_cons, StateT.run_bind, hAsk, hAnswer, Walk.map_ok, Walk.ok_bind,
      StateT.run_bind, hRun]
    rfl

/-
  Each question is answered as if it were the first one, and the set is left as it was. A unit is
  constant if and only if everything it rests on is expanded, without a tag that is entered again.
  Its evaluation ends.
-/
theorem IsFinite.identities_leave_no_trace (hTree : tree.IsFinite) {questions : List Question}
    (hQuestions : ∀ question ∈ questions, (tree.node question.id).Ends) :
    (∃ answers, (questions.mapM (Question.ask tree)).run [] = .ok (answers, []) ∧
      List.Forall₂ (fun question answer => question.fresh tree = .ok answer) questions answers) ∧
    ∀ id, (tree.node id).Ends →
      (∀ active, active.Nodup → (∀ tag ∈ active, tag.number < tree.tags.size) →
        ∃ answer, (constantWithin tree tree.bound id).run active = .ok (answer, active)) ∧
      (tree.isConstant id = .ok true ↔
        ∀ place, Relation.ReflTransGen tree.Expands ([], id) place → tree.IsExpanded place) ∧
      (tree.isConstant id = .ok true →
        ∀ machine, ∃ result, (Machine.evaluate tree id).run.run machine = .ok result) := by
  refine ⟨hTree.session_run hQuestions, ?_⟩
  rintro id ⟨node, hNode⟩
  refine ⟨?_, ?_, ?_⟩
  · intro active hNodup hTags
    rcases hTree.constantIn_ends ⟨hNodup, hTags⟩ ⟨node, hNode⟩ with ⟨answer, hAnswer⟩
    refine ⟨answer, (constantWithin_run _ _ _).trans ?_⟩
    exact Walk.map_eq_ok.mpr ⟨answer, hAnswer, rfl⟩
  · refine ⟨fun hConstant place hPlace => isExpanded_of_unitWithin .nil hConstant hPlace, ?_⟩
    intro hExpanded
    rcases hTree.isConstant_ends hNode with ⟨_ | _, hAnswer⟩
    · rcases exists_not_isExpanded hAnswer with ⟨place, hPlace, hNot⟩
      exact absurd (hExpanded place hPlace) hNot
    · exact hAnswer
  · intro hConstant
    exact Machine.evaluate_halts (hTree.inRange.evaluates False.elim hConstant).halts

/- Two identities, each for the other, and a number. -/
def entangled : SyntaxTree where
  nodes := ⟨#[{ attr := .identifier, mode := some ⟨1⟩, tag := some ⟨0⟩ },
      { attr := .identifier, mode := some ⟨1⟩, tag := some ⟨1⟩ },
      { attr := .denoter, mode := some ⟨1⟩, symbol := "7" }]⟩
  tags := ⟨#[{ name := "a", mode := ⟨1⟩, kind := .identifier, value := some ⟨1⟩ },
      { name := "b", mode := ⟨1⟩, kind := .identifier, value := some ⟨0⟩ }]⟩
  root := some ⟨0⟩

/- The names before and after the number. -/
def entangledQuestions : List Question :=
  [.constant ⟨0⟩, .basic ⟨1⟩ 1, .constant ⟨2⟩, .constant ⟨1⟩]

theorem identities_leave_no_trace_entangled :
    entangled.IsFinite ∧
      (∀ question ∈ entangledQuestions, (entangled.node question.id).Ends) ∧
      (∃ answers, (entangledQuestions.mapM (Question.ask entangled)).run [] = .ok (answers, []) ∧
        List.Forall₂ (fun question answer => question.fresh entangled = .ok answer)
          entangledQuestions answers) ∧
      ¬ ∀ place, Relation.ReflTransGen entangled.Expands ([], ⟨0⟩) place →
        entangled.IsExpanded place := by
  have hTree : entangled.IsFinite :=
    (conforms_of_isOrderly (by decide +kernel) : entangled.Conforms).isFinite
  have hQuestions : ∀ question ∈ entangledQuestions, (entangled.node question.id).Ends := by
    simp only [entangledQuestions, List.forall_mem_cons, Question.id]
    exact ⟨⟨_, rfl⟩, ⟨_, rfl⟩, ⟨_, rfl⟩, ⟨_, rfl⟩, by simp⟩
  rcases hTree.identities_leave_no_trace hQuestions with ⟨hSession, hUnits⟩
  refine ⟨hTree, hQuestions, hSession, ?_⟩
  rw [← (hUnits ⟨0⟩ ⟨_, rfl⟩).2.1]
  decide +kernel

/-
  The execution of a constant puts one value on the stack, or fails above what lay there, and
  leaves the seed alone. The value or the error is the same for every stack and seed, so folding
  gives what a fresh machine gives.
-/
theorem HasArities.execute_settles (hTree : tree.IsInRange) (hArities : tree.HasArities)
    (hConstant : tree.isConstant id = .ok true) :
    ∃ outcome : Except RuntimeError Value,
      (∀ machine : Machine, ∃ above, (Machine.execute tree id).run.run machine =
          .ok (outcome.map fun _ => (), { machine with stack := above ++ machine.stack }) ∧
        ∀ value, outcome = .ok value → above = [value]) ∧
      (∀ machine : Machine, ∃ next, (Machine.evaluate tree id).run.run machine =
          .ok (outcome, next) ∧ next.seed = machine.seed) ∧
      ∀ context : Context, ∃ next, (Context.fold tree id).run context =
          .ok (outcome.toOption.filter Value.isFinite, next) ∧
        next.machine.seed = context.machine.seed := by
  rcases (hTree.evaluates (fun _ : True => hArities) hConstant).settles trivial with
    ⟨outcome, hTurns, hOne, -⟩
  rcases Machine.evaluate_run hTurns hOne {} with ⟨result, -, -, rfl, -⟩
  have hEvaluate : ∀ machine : Machine, ∃ next, (Machine.evaluate tree id).run.run machine =
      .ok (result, next) ∧ next.seed = machine.seed := by
    intro machine
    rcases Machine.evaluate_run hTurns hOne machine with ⟨other, next, hRun, hSame, hSeed⟩
    obtain rfl : result = other := by
      cases result <;> cases other <;> cases hSame <;> rfl
    exact ⟨next, hRun, hSeed⟩
  refine ⟨result, ?_, hEvaluate, ?_⟩
  · intro machine
    cases result with
    | ok value => exact ⟨[value], hTurns machine, by rintro _ ⟨⟩; rfl⟩
    | error error =>
      rcases hTurns machine with ⟨left, hRun⟩
      exact ⟨left.reverse, hRun, by rintro _ ⟨⟩⟩
  · intro context
    rcases Machine.exists_hasPrim_of_isConstant hConstant with ⟨_, _, hMode, -⟩
    rcases Walk.bind_eq_ok.mp hMode with ⟨node, hNode, -⟩
    rcases hEvaluate context.machine with ⟨machine, hRun, hSeed⟩
    rcases (Context.fold_meets (fun _ => ⟨node, hNode⟩) fun _ => ⟨_, hRun⟩).answer with
      ⟨⟨value, next⟩, hFold, _, _, hAgain, hValue, hFolds⟩
    cases hRun.symm.trans hAgain
    have hMachine : next.machine = machine := by cases hFolds <;> rfl
    exact ⟨next, hValue ▸ hFold, hMachine ▸ hSeed⟩

theorem execute_settles_drawnDisplay :
    drawnDisplay.IsInRange ∧ drawnDisplay.HasArities ∧ drawnDisplay.isConstant ⟨20⟩ = .ok true ∧
      ∃ outcome : Except RuntimeError Value, ∀ context : Context, ∃ next,
        (Context.fold drawnDisplay ⟨20⟩).run context =
            .ok (outcome.toOption.filter Value.isFinite, next) ∧
          next.machine.seed = context.machine.seed := by
  have hTree : drawnDisplay.IsInRange :=
    (conforms_of_isOrderly (by decide +kernel) : drawnDisplay.Conforms).inRange
  have hArities := drawnDisplay_wellModed.hasArities
  have hConstant : drawnDisplay.isConstant ⟨20⟩ = .ok true := by decide +kernel
  rcases hArities.execute_settles hTree hConstant with ⟨outcome, -, -, hFold⟩
  exact ⟨hTree, hArities, hConstant, outcome, hFold⟩

end SyntaxTree

------ Constant Units

/- What has a literal is basic. -/
theorem ModeTable.IsExtension.isBasic_of_isFoldable {table : ModeTable} (hTable : table.IsExtension)
    (hMode : table.isFoldable mode = .ok true) : table.isBasic mode = .ok true := by
  rw [isFoldable, Walk.or_eq_true] at hMode
  rcases hMode with hPrim | ⟨-, hComplex⟩
  · have hPlain : table.isPlain mode = .ok true := by
      rw [isPlain, hPrim]
      rfl
    rcases Walk.bind_eq_ok.mp hPrim with ⟨kind, hKind, hYes⟩
    rw [isBasic, hKind, Walk.ok_bind]
    cases kind with
    | ref target => cases hYes
    | _ => exact hPlain
  · have hKind : ∀ number : Fin 14, table.kind ⟨number⟩ = standardTable.kind ⟨number⟩ := by
      intro number
      unfold ModeTable.kind Store.fetch
      rw [hTable.get?_eq number.isLt]
    have hReal : table.kind ⟨2⟩ = .ok .real := hKind 2
    have hStruct : table.kind ⟨7⟩ = .ok (.struct [⟨"re", ⟨2⟩⟩, ⟨"im", ⟨2⟩⟩]) := hKind 7
    have hSame : mode = ⟨7⟩ :=
      (eq_of_beq (Except.ok.inj hComplex)).trans (congrArg StandardModes.complex hTable.standard_eq)
    simp [hSame, isBasic, isPlain, isPrimitive, isBasicStruct, hStruct, hReal, Walk.or,
      ModeKind.isPrimitive]

namespace Classifier

variable {unit : Judge} {id : NodeId}

/- From the tier of clauses on the shapes of constants are those of basic units. -/
theorem shape_of_constant (hQuery : query.requirement = .constant)
    (hBasic : asked.requirement = .basic) (hTier : Tier.clauses ≤ asked.tier)
    (hUnit : ∀ id, constant query id → unit asked id = .ok true) (hNode : tree.node id = .ok node)
    (hMode : node.mode = some mode) (hFoldable : tree.modes.isFoldable mode = .ok true)
    (hShape : Shape tree constant query id node mode) :
    shape tree unit asked id node mode = .ok true := by
  have hSingle : ∀ serial, Single tree constant query serial →
      singleUnit tree unit asked serial = .ok true := by
    rintro serial ⟨hAttr, hLabels, hKids, hNode, hDecl, hAccepted⟩
    simp [singleUnit, hAttr, hLabels, hKids, SyntaxTree.attr_eq hNode, hDecl, hUnit _ hAccepted]
  have hIndexing : Tier.indexing ≤ asked.tier := Nat.le_trans (by decide) hTier
  unfold shape
  cases hShape with
  | denoter hAttr =>
    rw [hAttr]
    rfl
  | builtinName hAttr hTag hEntry hBuiltin hArity hConst =>
    simp [hAttr, identifier, hTag, hEntry, hBuiltin, hArity, hConst]
  | constantName hAttr _ hTag hEntry hBuiltin hKind =>
    simp [hAttr, identifier, hTag, hEntry, hBuiltin, hKind, hBasic, TagKind.isValue]
  | formula hAttr hParts hBuiltin _ hLeft hRight =>
    simp [hAttr, formula, hParts, isKnownOperator, hBuiltin, hBasic, hUnit _ hLeft, hUnit _ hRight]
  | monadicFormula hAttr hParts hBuiltin _ hOp =>
    simp [hAttr, monadicFormula, hParts, isKnownOperator, hBuiltin, hBasic, hUnit _ hOp]
  | call hAttr hParts hBuiltin _ hArity hArgs =>
    have hAll := Walk.allM_eq_true.mpr fun member hMem =>
      hUnit member (hArgs member hMem)
    simpa [hAttr, call, SyntaxTree.firstChildren_eq hParts, hParts, hBuiltin, hBasic, hArity]
      using hAll
  | cast hAttr hSub hOp =>
    simp [hAttr, Query.admits, hIndexing, hFoldable, hSub, hUnit _ hOp]
  | widening hAttr hSub hSrc hWidening hOp =>
    simp [hAttr, Query.admits, hIndexing, widening, hSub, hSrc, hWidening, hUnit _ hOp]
  | closedClause hAttr hSub hSerial =>
    simp [hAttr, Query.admits, hTier, singleUnitPart, hSub, hSingle _ hSerial]
  | serialClause hAttr hSerial => simp [hAttr, Query.admits, hTier, hSingle _ hSerial]
  | collateralClause hAttr hStruct hFields hMembers hLen hAccepted =>
    have hAll := Walk.allM_eq_true.mpr fun member hMem => hUnit member (hAccepted member hMem)
    simp [hAttr, Query.admits, hTier, collateral, SyntaxTree.mode?_eq hNode, hMode, hStruct,
      hFields, hMembers, hLen, hAll]
  | _ => simp_all

theorem basic_of_constant (hModes : tree.modes.IsExtension)
    (hQuery : query.requirement = .constant) (hBasic : asked.requirement = .basic)
    (hTier : Tier.clauses ≤ asked.tier) (hUnit : unitWithin tree fuel query id = .ok true) :
    unitWithin tree fuel asked id = .ok true := by
  induction fuel generalizing id with
  | zero => cases hUnit
  | succ fuel ih =>
    rcases exists_shape_of_constant hQuery hUnit with
      ⟨_, node, _, ⟨⟩, hNode, hMode, hAccepts, hConst⟩
    have hShape := shape_of_constant hQuery hBasic hTier (fun _ => ih) hNode hMode hAccepts hConst
    have hAttr : node.attr ≠ .voiding := by
      intro hVoid
      simp [shape, hVoid] at hShape
    simp [unitWithin, judge, hNode, hMode, hAttr, hBasic, Requirement.accepts,
      hModes.isBasic_of_isFoldable hAccepts, hShape]

end Classifier

namespace SyntaxTree

/-
  A unit whose value is known in advance is basic from the tier of clauses on, whatever its names
  are declared to be.
-/
theorem constants_are_basic {id : NodeId} (hModes : tree.modes.IsExtension)
    (hConstant : tree.isConstant id = .ok true) (hTier : Tier.clauses ≤ tier) :
    tree.isBasic id tier = .ok true := by
  have hUnits : Tier.units ≤ tier := Nat.le_trans (by decide) hTier
  rw [isBasic, if_pos hUnits]
  exact Classifier.basic_of_constant hModes rfl rfl hTier hConstant

theorem constants_are_basic_drawnDisplay :
    drawnDisplay.modes.IsExtension ∧ drawnDisplay.isConstant ⟨20⟩ = .ok true ∧
      Tier.clauses ≤ 9 ∧ drawnDisplay.isBasic ⟨20⟩ 9 = .ok true := by
  have hModes : drawnDisplay.modes.IsExtension := .intern .standard _
  have hConstant : drawnDisplay.isConstant ⟨20⟩ = .ok true := by decide +kernel
  have hTier : Tier.clauses ≤ 9 := by decide
  exact ⟨hModes, hConstant, hTier, constants_are_basic hModes hConstant hTier⟩

end SyntaxTree

end Algol68
