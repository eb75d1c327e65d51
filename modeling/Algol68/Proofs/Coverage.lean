import Algol68.Proofs.Ancestry
import Algol68.Proofs.Compilation
import Algol68.Proofs.Trials

/-
  No fragment is passed over in silence.

  A unit that is accepted gets a function, or problems with its
  constants are reported. A node that gets no function is gone
  into, unless a problem below it was reported. So whatever is
  left undecided stands in a fragment that was compiled or one
  that was given up for a problem.

  Main declarations:
    * `Generator.generate_accepts`
    * `SyntaxTree.Conforms.pending_nodes_covered`
-/

------ Accepted Units

namespace Algol68

variable {tree : SyntaxTree} {id : NodeId} {tier : Nat}

namespace Generator

open Relation Planner SyntaxTree

variable {visit : NodeId → Generation Unit}

/- All nodes below a node can be visited. -/
theorem visitUnit_visiting (hTree : tree.Conforms) (id : NodeId) :
    Visiting tree True (TransGen tree.Link id) (visitUnit tree) := by
  have hNodes : ∀ kid, TransGen tree.Link id kid → ∃ node, tree.node kid = .ok node :=
    fun _ hPath => (hTree.isLinked.isPart_of_path hPath).exists_node
  refine ⟨⟨fun _ => hTree, fun _ => hNodes, ?_⟩, ?_⟩
  · intro parent kid hPath hLink
    exact hPath.tail hLink
  · intro kid hPath
    have hGoes := visitWithin_goes (fun _ : True => hTree) hTree.forest (fun _ => hNodes kid hPath)
      (fun _ => tree.rank_lt_bound kid)
    exact Goes.mono hGoes fun other hWithin => hWithin.of_link hPath

theorem not_way_of_isBasic (hBasic : tree.isBasic start tier = .ok true) :
    ¬ tree.Way tier start id := by
  intro hWay
  induction hWay with
  | start hOther => exact hOther hBasic
  | step _ _ _ ih => exact ih

/-
  Nothing is visited for a unit that is accepted, so that the
  run stays as it is until the function is written.
-/
theorem touring_of_isBasic (hBasic : tree.isBasic start tier = .ok true)
    (hTier : run.context.tier = tier) : Touring tree tier start visit (· = run) (· = run) where
  tiered := by
    rintro _ rfl
    exact hTier
  eased := fun _ hSame => hSame
  item := fun _ _ _ hWay => absurd hWay (not_way_of_isBasic hBasic)
  source := fun _ _ _ hWay => absurd hWay (not_way_of_isBasic hBasic)

theorem exists_node_of_isBasic (hBasic : tree.isBasic id tier = .ok true) :
    ∃ node, tree.node id = .ok node := by
  have hUnit := (isBasic_eq_true.mp hBasic).2
  rcases Walk.bind_eq_ok.mp hUnit with ⟨node, hNode, -⟩
  exact ⟨node, hNode⟩

/-
  A unit that is accepted at the current tier gets a function without any problem, or there are
  problems with constants in it. No generator declines it otherwise.
-/
theorem generate_accepts
    (hTree : tree.Conforms)
    (hBasic : tree.isBasic id tier = .ok true)
    {run : Run}
    (hFull : run.IsFull tree)
    (hTier : run.context.tier = tier) :
    ∃ result next, (generate tree id).run run = .ok (result, next) ∧
      next.markings = run.markings ∧
      ((∃ name, result = some name ∧ next.context.diagnostics = run.context.diagnostics) ∨
        result = none ∧ Context.Complains (tree.Holds id) run.context next.context) := by
  have hNode := exists_node_of_isBasic hBasic
  have hEnds : Step.Meets True (generate tree id) run (run.Ended tree (TransGen tree.Link id) id) :=
    generateWith_tries (visitUnit_visiting hTree id)
      ⟨fun _ => hNode, fun _ hLink => .single hLink⟩ run hFull
  have hRenewing : Renewing (· = run) (· = run) run.context.errorCount :=
    ⟨by rintro _ rfl; exact Nat.le_refl _, fun _ hSame _ => hSame⟩
  have hDecides : Step.Meets False (generate tree id) run _ :=
    generateWith_decides hTree
      (touring_of_isBasic hBasic hTier) hRenewing rfl
      (Nat.le_refl _)
  rcases hEnds.answer with ⟨⟨result, next⟩, hRun, -⟩
  refine ⟨result, next, hRun, ?_⟩
  have hDecided := hDecides.of_run hRun
  cases hDecided with
  | refused _ _ hOther => exact absurd hBasic hOther
  | abandoned hSame hErrors =>
      subst hSame
      exact absurd hErrors (Nat.lt_irrefl _)
  | reported hSame _ hComplains _ =>
      subst hSame
      refine ⟨rfl, .inr ⟨rfl, hComplains.mono ?_⟩⟩
      rintro inner (rfl | ⟨unit, hExposed, hHolds⟩)
      · exact .refl tree inner
      · exact hExposed.thread.holds.trans hHolds
  | given hSame _ hNone =>
      subst hSame
      exact ⟨rfl, .inl ⟨_, rfl, hNone⟩⟩

end Generator

namespace SyntaxTree

/- A constant without a value is declared in front of an assignation. -/
def faultySource : SyntaxTree where
  nodes := Figure.nodes [.unit .serialClause ⟨0⟩
      [.mk .identityDeclaration "" (some ⟨0⟩) (some ⟨1⟩)
          [.unit .formula ⟨1⟩ [.number "1", .tagged .operator ⟨1⟩, .number "0"]],
        .voided (.assign ⟨8⟩ ⟨2⟩ (.number "1"))]]
  tags := ⟨#[{ name := "n", mode := ⟨1⟩, kind := .identifier, value := some ⟨2⟩ },
      { name := "OVER", mode := ⟨1⟩, kind := .standard, builtin := some .intOver },
      { name := "x", mode := ⟨8⟩, kind := .var }]⟩
  root := some ⟨0⟩

theorem conforms_faultySource : faultySource.Conforms := conforms_of_isOrderly (by decide +kernel)

theorem generate_accepts_faultySource :
    faultySource.isBasic ⟨2⟩ 3 = .ok true ∧
      ∃ result next,
        (Generator.generate faultySource ⟨2⟩).run
            (faultySource.startRun (.ofOptions { level := 3 })) =
          .ok (result, next) ∧
        next.markings = faultySource.markings ∧
        ((∃ name, result = some name ∧ next.context.diagnostics = []) ∨
          result = none ∧
            Context.Complains (faultySource.Holds ⟨2⟩)
              (.ofOptions { level := 3 }) next.context) := by
  have hBasic : faultySource.isBasic ⟨2⟩ 3 = .ok true := by
    decide +kernel
  have hFull := isFull_of_isStart (faultySource.startRun_isStart { level := 3 })
  exact ⟨hBasic, Generator.generate_accepts conforms_faultySource hBasic hFull rfl⟩

end SyntaxTree

------ Changes of Runs

variable {run : Run}

namespace Run

/-
  What visits within some nodes do to a run. A decision stands,
  and problems are added to those before.
-/
structure Evolves (within : NodeId → Prop) (run next : Run) : Prop where
  tier : next.context.tier = run.context.tier
  settled : ∀ id, run.Annotated id → next.marking id = run.marking id
  outside : ∀ id, ¬ within id → next.marking id = run.marking id
  extended : ∃ extra, next.context.diagnostics = run.context.diagnostics ++ extra ∧
      ∀ diagnostic ∈ extra, within diagnostic.node

namespace Evolves

theorem refl (within : NodeId → Prop) (run : Run) : run.Evolves within run :=
  ⟨rfl, fun _ _ => rfl, fun _ _ => rfl, [], by simp, nofun⟩

theorem annotated (hEvolves : run.Evolves within next) (hAnnotated : run.Annotated id) :
    next.Annotated id :=
  hAnnotated.congr (hEvolves.settled id hAnnotated)

theorem trans (hFirst : run.Evolves within next) (hSecond : next.Evolves within last) :
    run.Evolves within last := by
  rcases hFirst.extended with ⟨extra, hExtra, hWithin⟩
  rcases hSecond.extended with ⟨more, hMore, hMoreWithin⟩
  refine ⟨hSecond.tier.trans hFirst.tier, ?_, ?_, extra ++ more, ?_, ?_⟩
  · intro id hAnnotated
    exact (hSecond.settled id (hFirst.annotated hAnnotated)).trans (hFirst.settled id hAnnotated)
  · intro id hOutside
    exact (hSecond.outside id hOutside).trans (hFirst.outside id hOutside)
  · rw [hMore, hExtra, List.append_assoc]
  · intro diag hMem
    rcases List.mem_append.mp hMem with hOld | hNew
    · exact hWithin diag hOld
    · exact hMoreWithin diag hNew

variable (hEvolves : run.Evolves within next)

include hEvolves

theorem mono (hWider : ∀ id, within id → wider id) : run.Evolves wider next := by
  rcases hEvolves.extended with ⟨extra, hExtra, hWithin⟩
  refine ⟨hEvolves.tier, hEvolves.settled, ?_, extra, hExtra, ?_⟩
  · intro id hOutside
    exact hEvolves.outside id fun hInside => hOutside (hWider id hInside)
  · intro diag hMem
    exact hWider _ (hWithin diag hMem)

theorem errorCount_le : run.context.errorCount ≤ next.context.errorCount := by
  rcases hEvolves.extended with ⟨extra, hExtra, -⟩
  rw [run.context.counted, next.context.counted, hExtra, List.length_append]
  omega

theorem mem_diagnostics (hMem : diag ∈ next.context.diagnostics) :
    diag ∈ run.context.diagnostics ∨ within diag.node := by
  rcases hEvolves.extended with ⟨extra, hExtra, hWithin⟩
  rw [hExtra, List.mem_append] at hMem
  exact hMem.imp_right (hWithin diag)

theorem diagnostics_eq (hErrs : next.context.errorCount ≤ run.context.errorCount) :
    next.context.diagnostics = run.context.diagnostics := by
  rcases hEvolves.extended with ⟨extra, hExtra, -⟩
  rw [next.context.counted, run.context.counted, hExtra, List.length_append] at hErrs
  have hNone : extra = [] := List.eq_nil_of_length_eq_zero (by omega)
  rw [hExtra, hNone, List.append_nil]

/- One of the problems that came up since. -/
theorem exists_extra (hErrs : run.context.errorCount < next.context.errorCount) :
    ∃ diag ∈ next.context.diagnostics, within diag.node := by
  rcases hEvolves.extended with ⟨extra, hExtra, hWithin⟩
  rw [next.context.counted, run.context.counted, hExtra, List.length_append] at hErrs
  have hSome : extra ≠ [] := by
    rintro rfl
    exact absurd hErrs (by simp)
  rcases List.exists_mem_of_ne_nil extra hSome with ⟨diag, hMem⟩
  refine ⟨diag, ?_, hWithin diag hMem⟩
  rw [hExtra]
  exact List.mem_append_right _ hMem

theorem diagnostics_subset (hMem : diag ∈ run.context.diagnostics) :
    diag ∈ next.context.diagnostics := by
  rcases hEvolves.extended with ⟨extra, hExtra, -⟩
  rw [hExtra]
  exact List.mem_append_left extra hMem

omit hEvolves

/- A node is decided about once. -/
theorem of_mark (hPending : run.marking id = .ok .pending) (hWithin : within id)
    (marking : Marking) : run.Evolves within (run.mark id marking) := by
  refine ⟨rfl, ?_, ?_, [], by simp [mark], nofun⟩
  · intro other hAnnotated
    apply marking_mark_of_ne
    rintro rfl
    exact not_annotated_of_pending hPending hAnnotated
  · intro other hOutside
    apply marking_mark_of_ne
    rintro rfl
    exact hOutside hWithin

theorem of_diagnostics (hTier : ctx.tier = run.context.tier)
    (hSame : ctx.diagnostics = run.context.diagnostics) :
    run.Evolves within { run with context := ctx } :=
  ⟨hTier, fun _ _ => rfl, fun _ _ => rfl, [], by simp [hSame], nofun⟩

theorem of_compiledAs (hPending : run.marking id = .ok .pending) (hWithin : within id)
    (name : String) : run.Evolves within (run.compiledAs run.context id name) := by
  let recorded : Run := { run with context := run.context.recordCompiled id name }
  have hRec : run.Evolves within recorded := .of_diagnostics rfl rfl
  have hStill : recorded.marking id = .ok .pending := hPending
  exact hRec.trans (.of_mark hStill hWithin (.compiled name))

end Evolves

------ Searched Nodes

/-
  Nothing is passed over below a node: it has a function, a problem was found in it, or it was not
  accepted and its children were visited. Below the tier of clauses functions are for what is
  accepted.
-/
inductive Closed (tree : SyntaxTree) (run : Run) (id : NodeId) : Prop
  | compiled {name : String} (hCalls : run.Calls id name)
      (hAccepts : run.context.tier < Tier.clauses → tree.Accepts run.context.tier id)
  | givenUp (hMarking : run.marking id = .ok .notGenerated) {diagnostic : Diagnostic}
      (hMember : diagnostic ∈ run.context.diagnostics) (hHolds : tree.Holds id diagnostic.node)
  | searched (hMarking : run.marking id = .ok .notGenerated)
      (hRefused : ¬ tree.Accepts run.context.tier id)
      (hKids : ∀ kid, tree.IsChild id kid → run.Annotated kid)

theorem Closed.evolves (hClosed : run.Closed tree id) (hEvolves : run.Evolves within next) :
    next.Closed tree id := by
  cases hClosed with
  | compiled hCalls hAccepts =>
    have hSame := hEvolves.settled id ⟨_, hCalls, nofun⟩
    rw [← hEvolves.tier] at hAccepts
    exact .compiled (hSame.trans hCalls) hAccepts
  | givenUp hMarking hMem hHolds =>
    have hSame := hEvolves.settled id ⟨_, hMarking, nofun⟩
    exact .givenUp (hSame.trans hMarking) (hEvolves.diagnostics_subset hMem) hHolds
  | searched hMarking hRefused hKids =>
    have hSame := hEvolves.settled id ⟨_, hMarking, nofun⟩
    rw [← hEvolves.tier] at hRefused
    exact .searched (hSame.trans hMarking) hRefused fun kid hKid =>
      hEvolves.annotated (hKids kid hKid)

/- Below what was decided about nothing is passed over. -/
def Searches (tree : SyntaxTree) (run next : Run) : Prop :=
  ∀ id, next.Annotated id → run.Annotated id ∨ next.Closed tree id

theorem Searches.refl (tree : SyntaxTree) (run : Run) : run.Searches tree run :=
  fun _ hAnnotated => .inl hAnnotated

theorem Searches.trans (hFirst : run.Searches tree next) (hSecond : next.Searches tree last)
    (hEvolves : next.Evolves within last) : run.Searches tree last := by
  intro id hAnnotated
  rcases hSecond id hAnnotated with hNext | hClosed
  · exact (hFirst id hNext).imp_right fun hClosed => hClosed.evolves hEvolves
  · exact .inr hClosed

end Run

------ Visits

namespace Generator

open Relation Planner Run SyntaxTree

variable {visit : NodeId → Generation Unit}

/-
  What a visit leads to, told by what becomes of the fragment.
  Only one that is refused without a problem is gone into.
-/
theorem visitNode_meets (hShaped : tree.IsShaped)
    (hDecides : run.marking id = .ok .pending → Step.Meets False (generateWith tree visit id) run
        (Run.Decided good fair exposes run.context.errorCount reason cause)) {post : Run → Prop}
    (hAnnotated : run.Annotated id → post run)
    (hGiven : ∀ name next, run.marking id = .ok .pending →
      Run.Decided good fair exposes run.context.errorCount reason cause (some name) next →
        post (next.compiledAs next.context id name))
    (hGivenUp : ∀ next, run.marking id = .ok .pending →
      Run.Decided good fair exposes run.context.errorCount reason cause none next →
        run.context.errorCount < next.context.errorCount → post (next.mark id .notGenerated))
    (hRefused : ∀ next kids, run.marking id = .ok .pending → good next →
        next.context.errorCount ≤ run.context.errorCount → reason → tree.children id = .ok kids →
            Step.Meets False (visitSiblings tree visit tree.bound kids.head?)
              (next.mark id .notGenerated) fun _ last => post last) :
    Step.Meets False (visitNode tree visit id) run fun _ next => post next := by
  apply Step.Meets.get_bind
  apply Step.Meets.walk_bind False.elim
  intro marking hMarking
  by_cases hPending : marking = .pending
  · subst hPending
    apply (hDecides hMarking).bind
    rintro (_ | name) next hDecided
    · apply Step.Meets.modify_bind
      apply Step.Meets.get_bind
      split
      · rename_i hErrs
        apply Step.Meets.walk_bind False.elim
        intro first hFirst
        rcases Walk.bind_eq_ok.mp hFirst with ⟨node, hNode, -⟩
        rcases hShaped.children_ends hNode with ⟨kids, hKids⟩
        cases (sub?_eq hKids).symm.trans hFirst
        cases hDecided with
        | refused hGood _ hReason => exact hRefused next kids hMarking hGood hErrs hReason hKids
        | abandoned _ hMore | reported _ _ _ hMore => exact absurd hErrs (Nat.not_le.mpr hMore)
      · rename_i hErrs
        exact .of_pure (hGivenUp next hMarking hDecided (Nat.not_le.mp hErrs))
    · exact .of_modify (hGiven name next hMarking hDecided)
  · have hDecided : marking.isPending = false := by
      cases marking with
      | pending => exact absurd rfl hPending
      | notGenerated | compiled => rfl
    rw [hDecided]
    exact .of_pure (hAnnotated ⟨marking, hMarking, hPending⟩)

/- A visit decides about a node. It changes what the node holds, and nothing is passed over. -/
structure Attends (tree : SyntaxTree) (id : NodeId) (run next : Run) : Prop where
  evolves : run.Evolves (tree.Holds id) next
  annotated : next.Annotated id
  searches : run.Searches tree next

/- What is visited for a plan stands below the fragment. -/
structure Roams (tree : SyntaxTree) (start : NodeId) (run next : Run) : Prop where
  evolves : run.Evolves (tree.Contains start) next
  searches : run.Searches tree next

theorem Roams.attends (hRoams : Roams tree start run mid) (hContains : tree.Contains start id)
    (hAttends : Attends tree id mid next) : Roams tree start run next :=
  ⟨hRoams.evolves.trans (hAttends.evolves.mono fun _ hHolds => hContains.trans_holds hHolds),
    hRoams.searches.trans hAttends.searches hAttends.evolves⟩

/- The visits that are made for a plan. -/
theorem touring_roams
    (hVisit : ∀ kid run, Step.Meets False (visit kid) run fun _ next => Attends tree kid run next)
    (start : NodeId) (run : Run) :
    Touring tree run.context.tier start visit (Roams tree start run) (Roams tree start run) where
  tiered := fun _ hRoams => hRoams.evolves.tier
  eased := fun _ hRoams => hRoams
  item := by
    intro id kid mid hWay hChild _ hRoams
    apply (hVisit kid mid).mono
    intro _ next hAttends
    have hNext := hRoams.attends (.of_child hWay.thread.holds hChild) hAttends
    exact ⟨hNext, fun _ _ => hNext⟩
  source := by
    intro id kid mid hWay hChild _ hRoams
    apply (hVisit kid mid).mono
    intro _ next hAttends
    exact hRoams.attends (.of_child hWay.thread.holds hChild) hAttends

theorem holds_of_exposes (hExposes : tree.Exposes tier start lower) : tree.Holds start lower := by
  rcases hExposes with rfl | ⟨unit, hExposed, hHolds⟩
  · exact .refl tree lower
  · exact hExposed.thread.holds.trans hHolds

/- The run when a decision about a node is to be marked. -/
structure Settles (tree : SyntaxTree) (id : NodeId) (run next : Run) : Prop where
  evolves : run.Evolves (tree.Holds id) next
  searches : run.Searches tree next
  pending : next.marking id = .ok .pending

theorem Roams.settles (hForest : tree.IsForest) (hPending : run.marking id = .ok .pending)
    (hRoams : Roams tree id run next) : Settles tree id run next :=
  ⟨hRoams.evolves.mono fun _ hContains => hContains.holds, hRoams.searches,
    (hRoams.evolves.outside id hForest.not_contains_self).trans hPending⟩

theorem Settles.of_context (hSettles : Settles tree id run mid)
    (hStep : mid.Evolves (tree.Holds id) { mid with context := ctx }) :
    Settles tree id run { mid with context := ctx } :=
  ⟨hSettles.evolves.trans hStep, hSettles.searches.trans (fun _ => .inl) hStep, hSettles.pending⟩

theorem settles_of_decided (hForest : tree.IsForest) (hPending : run.marking id = .ok .pending)
    (hDecided : Run.Decided (Roams tree id run)
      (Roams tree id run) (tree.Exposes tier id) errors reason cause res next) :
    Settles tree id run next := by
  cases hDecided with
  | refused hRoams | abandoned hRoams => exact hRoams.settles hForest hPending
  | reported hRoams hTier hComplains _ =>
    rcases hComplains with ⟨extra, -, hNew, -, hEach⟩
    refine (hRoams.settles hForest hPending).of_context
      ⟨hTier, fun _ _ => rfl, fun _ _ => rfl, extra, hNew, ?_⟩
    exact fun diag hMem => holds_of_exposes (hEach diag hMem).2
  | given hRoams hTier hSame _ =>
    exact (hRoams.settles hForest hPending).of_context (.of_diagnostics hTier hSame)

/-
  The decision about a node is marked. It is closed in the end,
  when its children were visited if need be.
-/
theorem Settles.attends (hSettles : Settles tree id run next)
    (hMarked : next.Evolves (tree.Holds id) marked) (hAnnotated : marked.Annotated id)
    (hSame : ∀ other, other ≠ id → marked.marking other = next.marking other)
    (hEvolves : marked.Evolves (tree.Holds id) last) (hSearches : marked.Searches tree last)
    (hClosed : last.Closed tree id) : Attends tree id run last := by
  refine ⟨(hSettles.evolves.trans hMarked).trans hEvolves, hEvolves.annotated hAnnotated, ?_⟩
  intro other hOther
  rcases hSearches other hOther with hBefore | hDone
  · by_cases hId : other = id
    · subst hId
      exact .inr hClosed
    · have hNext : next.Annotated other := hBefore.congr (hSame other hId).symm
      exact (hSettles.searches other hNext).imp_right
        fun hDone => hDone.evolves (hMarked.trans hEvolves)
  · exact .inr hDone

/- Siblings are visited in turn, each of them for good. -/
theorem visitSiblings_attends
    (hVisit : ∀ kid run, Step.Meets False (visit kid) run fun _ next => Attends tree kid run next)
    (hSibs : tree.Siblings first ids)
    (hWithin : ∀ kid ∈ ids, ∀ lower, tree.Holds kid lower → within lower) (run : Run) :
    Step.Meets False (visitSiblings tree visit fuel first) run
      fun _ next => run.Evolves within next ∧
        run.Searches tree next ∧ ∀ kid ∈ ids, next.Annotated kid := by
  induction fuel generalizing first ids run with
  | zero =>
    cases first with
    | some head => exact False.elim
    | none =>
      rw [List.head?_eq_none_iff.mp hSibs.head?_eq]
      exact ⟨.refl _ run, .refl tree run, nofun⟩
  | succ fuel ih =>
    cases first with
    | none =>
      rw [List.head?_eq_none_iff.mp hSibs.head?_eq]
      exact ⟨.refl _ run, .refl tree run, nofun⟩
    | some head =>
      rcases hSibs.exists_rest with ⟨rest, node, rfl, hNode, hRest⟩
      apply (hVisit head run).bind
      intro _ mid hHead
      apply Step.Meets.lift_bind hNode
      apply (ih hRest (fun kid hKid => hWithin kid (.tail head hKid)) mid).mono
      rintro _ last ⟨hEvolves, hSearches, hEach⟩
      have hFirst := hHead.evolves.mono (hWithin head List.mem_cons_self)
      exact ⟨hFirst.trans hEvolves, hHead.searches.trans hSearches hEvolves,
        List.forall_mem_cons.mpr ⟨hEvolves.annotated hHead.annotated, hEach⟩⟩

/- A node that is decided about is closed. -/
theorem visitNode_attends (hTree : tree.Conforms)
    (hVisit : ∀ kid run, Step.Meets False (visit kid) run fun _ next => Attends tree kid run next)
    (id : NodeId) (run : Run) :
    Step.Meets False (visitNode tree visit id) run fun _ next => Attends tree id run next := by
  apply visitNode_meets hTree.shaped fun _ =>
    generateWith_refuses hTree (touring_roams hVisit id run)
      ⟨fun _ hRoams => hRoams.evolves.errorCount_le, fun _ hRoams _ => hRoams⟩
      ⟨.refl _ run, .refl tree run⟩ (Nat.le_refl _)
  · intro hAnnotated
    exact ⟨.refl _ run, hAnnotated, .refl tree run⟩
  · intro name next hPending hDecided
    have hSettles := settles_of_decided hTree.forest hPending hDecided
    apply hSettles.attends (.of_compiledAs hSettles.pending (.refl tree id) name)
      (annotated_mark hSettles.pending nofun) (fun _ hOther => marking_mark_of_ne hOther _)
      (.refl _ _) (.refl tree _)
    refine .compiled (marking_mark hSettles.pending) ?_
    change next.context.tier < _ → tree.Accepts next.context.tier id
    rw [hSettles.evolves.tier]
    cases hDecided with
    | given _ _ _ hCause => exact hCause
  · intro next hPending hDecided hErrs
    have hSettles := settles_of_decided hTree.forest hPending hDecided
    apply hSettles.attends (.of_mark hSettles.pending (.refl tree id) .notGenerated)
      (annotated_mark hSettles.pending nofun) (fun _ hOther => marking_mark_of_ne hOther _)
      (.refl _ _) (.refl tree _)
    rcases hSettles.evolves.exists_extra hErrs with ⟨diag, hMem, hHolds⟩
    exact .givenUp (marking_mark hSettles.pending) hMem hHolds
  · intro next kids hPending hRoams _ hRefused hKids
    have hSettles := hRoams.settles hTree.forest hPending
    rcases exists_node_of_children hKids with ⟨node, hNode, hSibs⟩
    rw [sub_eq_head? hNode hKids] at hSibs
    apply (visitSiblings_attends hVisit hSibs (fun kid hKid _ hHolds =>
        (Holds.of_child hKids hKid).trans hHolds) _).mono
    rintro _ last ⟨hEvolves, hSearches, hEach⟩
    have hMarked : (next.mark id .notGenerated).Annotated id :=
      annotated_mark hSettles.pending nofun
    have hTier : last.context.tier = run.context.tier := hEvolves.tier.trans hSettles.evolves.tier
    apply hSettles.attends (.of_mark hSettles.pending (.refl tree id) .notGenerated)
      hMarked (fun _ hOther => marking_mark_of_ne hOther _) hEvolves hSearches
    refine .searched ((hEvolves.settled id hMarked).trans (marking_mark hSettles.pending))
      (hTier.symm ▸ hRefused) ?_
    rintro kid ⟨found, hFound, hKid⟩
    cases hKids.symm.trans hFound
    exact hEach kid hKid

theorem visitWithin_attends (hTree : tree.Conforms) (fuel : Nat) (id : NodeId) (run : Run) :
    Step.Meets False (visitWithin tree fuel id) run fun _ next => Attends tree id run next := by
  induction fuel generalizing id run with
  | zero => exact False.elim
  | succ fuel ih => exact visitNode_attends hTree ih id run

end Generator

------ Whole Trees

namespace Run

open Relation

/- The innermost node around one that was decided about. -/
structure IsNearest (tree : SyntaxTree) (run : Run) (ancestor id : NodeId) : Prop where
  annotated : run.Annotated ancestor
  holds : tree.Holds ancestor id
  nearest : ∀ other, run.Annotated other → tree.Holds other id → tree.Holds other ancestor

/- A node below one that was decided about has a nearest one. -/
theorem exists_isNearest (hForest : tree.IsForest) (hTop : run.Annotated top)
    (hHolds : tree.Holds top id) : ∃ ancestor, run.IsNearest tree ancestor id := by
  induction hHolds with
  | refl => exact ⟨top, hTop, .refl tree top, fun _ _ h => h⟩
  | @tail parent kid _ hChild ih =>
    by_cases hKid : run.Annotated kid
    · exact ⟨kid, hKid, .refl tree kid, fun _ _ h => h⟩
    · rcases ih with ⟨ancestor, hNearest⟩
      refine ⟨ancestor, hNearest.annotated, ReflTransGen.tail hNearest.holds hChild, ?_⟩
      intro other hOther hAround
      rcases hAround.eq_or_contains with rfl | hContains
      · exact absurd hOther hKid
      · exact hNearest.nearest other hOther (hForest.holds_of_contains hChild hContains)

/- A pending node stands below one that was not gone into. -/
theorem IsNearest.not_searched (hForest : tree.IsForest) (hNearest : run.IsNearest tree ancestor id)
    (hPending : run.marking id = .ok .pending) :
    tree.Contains ancestor id ∧ ¬ ∀ kid, tree.IsChild ancestor kid → run.Annotated kid := by
  have hContains : tree.Contains ancestor id := by
    rcases hNearest.holds.eq_or_contains with rfl | hContains
    · exact absurd hNearest.annotated (not_annotated_of_pending hPending)
    · exact hContains
  refine ⟨hContains, ?_⟩
  intro hKids
  rcases TransGen.head'_iff.mp hContains with ⟨kid, hChild, hHolds⟩
  exact hForest.not_holds_of_contains (.single hChild)
    (hNearest.nearest kid (hKids kid hChild) hHolds)

end Run

namespace SyntaxTree

open Generator Relation

/- The visit that a compilation comes down to. -/
theorem CompilesTo.exists_visit (hRun : tree.CompilesTo options run) (hLevel : 1 ≤ options.level) :
    ∃ root, ∃ start : Run, tree.root = some root ∧ start.markings = tree.markings ∧
        start.context.tier = options.tier ∧ start.context.diagnostics = [] ∧
            (visit tree root).run start = .ok ((), run) := by
  rcases hRun with ⟨root, hRoot, hPass⟩
  unfold compilationPass at hPass
  rw [if_neg (by omega)] at hPass
  split at hPass
  · rename_i hUnits
    have hTier : Tier.units = options.tier := by
      unfold Options.tier
      rw [hUnits]
      rfl
    exact ⟨root, _, hRoot, rfl, hTier, rfl, hPass⟩
  · exact ⟨root, _, hRoot, rfl, rfl, rfl, hPass⟩

/- A compilation passes over nothing from the first nodes on. -/
theorem CompilesTo.exists_searches (hTree : tree.Conforms) (hLevel : 1 ≤ options.level)
    (hRun : tree.CompilesTo options run) :
    ∃ root tops, ∃ start : Run, tree.root = some root ∧ tree.Siblings (some root) tops ∧
        start.markings = tree.markings ∧ run.context.tier = options.tier ∧
            start.Searches tree run ∧ ∀ top ∈ tops, run.Annotated top := by
  rcases hRun.exists_visit hLevel with ⟨root, start, hRoot, hStart, hTier, -, hVisit⟩
  rcases siblings_exist hTree (Store.exists_fetch
    (hTree.inRange.root root hRoot)) with ⟨tops, hTops, -⟩
  have hAttends : Step.Meets False (visit tree root) start _ := visitSiblings_attends
      (fun kid run => visitWithin_attends hTree tree.bound kid run)
      hTops (fun _ _ _ _ => trivial) start
  rcases hAttends.of_run hVisit with ⟨hEvolves, hSearches, hEach⟩
  exact ⟨root, tops, start, hRoot, hTops, hStart, hEvolves.tier.trans hTier, hSearches, hEach⟩

/- The nearest decision above a node that is left undecided. -/
theorem CompilesTo.exists_nearest (hTree : tree.Conforms) (hPending : tree.IsPending)
    (hLevel : 1 ≤ options.level) (hRun : tree.CompilesTo options run) {root : NodeId}
    (hRoot : tree.root = some root) (hWithin : Within tree root id)
    (hUndecided : run.marking id = .ok .pending) :
    ∃ ancestor, tree.Contains ancestor id ∧ run.IsNearest tree ancestor id ∧
      ((∃ name, run.marking ancestor = .ok (.compiled name)) ∨
        run.marking ancestor = .ok .notGenerated ∧ ∃ diag ∈ run.context.diagnostics,
            tree.Holds ancestor diag.node) := by
  rcases hRun.exists_searches hTree hLevel with
    ⟨first, tops, start, hFirst, hTops, hStart, -, hSearches, hEach⟩
  cases hFirst.symm.trans hRoot
  have hPath : ReflTransGen tree.Link root id := by
    rcases hWithin with rfl | hPath
    · exact .refl
    · exact hPath.to_reflTransGen
  rcases exists_sibling_holds hTree.shaped hTops hPath with ⟨top, hTop, hHolds⟩
  rcases Run.exists_isNearest hTree.forest (hEach top hTop) hHolds with ⟨ancestor, hNearest⟩
  rcases hNearest.not_searched hTree.forest hUndecided with ⟨hContains, hLeft⟩
  refine ⟨ancestor, hContains, hNearest, ?_⟩
  rcases hSearches ancestor hNearest.annotated with hBefore | hClosed
  · exact absurd hBefore (hPending.not_annotated hStart)
  · cases hClosed with
    | compiled hCalls _ => exact .inl ⟨_, hCalls⟩
    | givenUp hMarking hMem hFound => exact .inr ⟨hMarking, _, hMem, hFound⟩
    | searched _ _ hKids => exact absurd hKids hLeft

/-
  Whatever a compilation leaves undecided stands below a node with a function, or below one that
  was given up for a problem in it.
-/
theorem Conforms.pending_nodes_covered
    (hTree : tree.Conforms)
    (hPending : tree.IsPending)
    (hLevel : 1 ≤ options.level) :
    ∃ root run, tree.root = some root ∧
      tree.CompilesTo options run ∧
        ∀ id, Within tree root id →
          run.marking id = .ok .pending →
            ∃ ancestor, tree.Contains ancestor id ∧
              run.IsNearest tree ancestor id ∧
              ((∃ name, run.marking ancestor = .ok (.compiled name)) ∨
                run.marking ancestor = .ok .notGenerated ∧
                  ∃ diagnostic ∈ run.context.diagnostics, tree.Holds ancestor diagnostic.node) := by
  rcases hTree.exists_compilesTo options with ⟨run, hRun⟩
  rcases hRun.exists_visit hLevel with ⟨root, start, hRoot, -⟩
  refine ⟨root, run, hRoot, hRun, ?_⟩
  intro id hWithin hUndecided
  exact hRun.exists_nearest hTree hPending hLevel hRoot hWithin hUndecided

theorem isPending_faultySource : faultySource.IsPending := by
  unfold IsPending
  decide +kernel

theorem pending_nodes_covered_faultySource :
    faultySource.Conforms ∧ faultySource.IsPending ∧
      ∃ root run, faultySource.root = some root ∧
        faultySource.CompilesTo { level := 3 } run ∧
          ∀ id, Within faultySource root id →
            run.marking id = .ok .pending →
              ∃ ancestor, faultySource.Contains ancestor id ∧
                run.IsNearest faultySource ancestor id ∧
                ((∃ name, run.marking ancestor = .ok (.compiled name)) ∨
                  run.marking ancestor = .ok .notGenerated ∧
                    ∃ diagnostic ∈ run.context.diagnostics,
                      faultySource.Holds ancestor diagnostic.node) :=
  ⟨conforms_faultySource, isPending_faultySource,
    conforms_faultySource.pending_nodes_covered isPending_faultySource (by decide)⟩

end SyntaxTree

end Algol68
