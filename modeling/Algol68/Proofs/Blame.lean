import Algol68.Proofs.Coverage

/-
  Every problem is reported once and keeps its fragment from
  being compiled.

  A fragment is gone into only if no problem was found in it,
  and what it exposes was never visited in its own right. So a
  constant is evaluated for one fragment only, which gets no
  function. A problem stands below a node with a function only
  where a declaration between them is left to the interpreter.

  Main declarations:
    * `SyntaxTree.Conforms.problems_blamed`
-/

------ Ways down a Forest

namespace Algol68

variable {tree : SyntaxTree}

namespace SyntaxTree

open Relation

variable {start id : NodeId}

/- There is one way down to a node. -/
theorem Thread.split (hForest : tree.IsForest) (hThread : tree.Thread tier start id)
    (hStart : tree.Holds start outer) (hOuter : tree.Holds outer id) :
    tree.Thread tier start outer := by
  induction hThread with
  | refl =>
    rcases hStart.eq_or_contains with rfl | hContains
    · exact .refl
    · exact absurd hOuter (hForest.not_holds_of_contains hContains)
  | tail hBefore hKeeps ih =>
    rcases hOuter.eq_or_contains with rfl | hContains
    · exact hBefore.tail hKeeps
    · exact ih (hForest.holds_of_contains hKeeps.child hContains)

theorem Way.split (hForest : tree.IsForest) (hWay : tree.Way tier start id)
    (hStart : tree.Holds start outer) (hOuter : tree.Holds outer id) :
    tree.Way tier start outer := by
  induction hWay with
  | start hOther =>
    rcases hStart.eq_or_contains with rfl | hContains
    · exact .start hOther
    · exact absurd hOuter (hForest.not_holds_of_contains hContains)
  | step hBefore hKeeps hOther ih =>
    rcases hOuter.eq_or_contains with rfl | hContains
    · exact hBefore.step hKeeps hOther
    · exact ih (hForest.holds_of_contains hKeeps.child hContains)

theorem Way.not_isBasic (hWay : tree.Way tier start id) : tree.isBasic id tier ≠ .ok true := by
  cases hWay with
  | start hOther | step _ _ hOther => exact hOther

/- What is reached without a visit stands below no visit. -/
theorem Thread.not_delegates (hForest : tree.IsForest) (hThread : tree.Thread tier start id)
    (hStart : tree.Holds start parent) (hChild : tree.IsChild parent kid)
    (hKid : tree.Holds kid id) : ¬ tree.Delegates tier parent kid := by
  have hContains : tree.Contains start kid := .of_child hStart hChild
  have hReached := hThread.split hForest hContains.holds hKid
  rcases ReflTransGen.cases_tail hReached with
    rfl | ⟨other, -, hKeeps⟩
  · exact absurd hContains hForest.not_contains_self
  · rcases hForest.parent_unique hChild hKeeps.child with rfl
    exact hKeeps.kept

/- A node that may be visited while a fragment is planned. -/
def Delegated (tree : SyntaxTree) (tier : Nat) (start kid : NodeId) : Prop :=
  ∃ parent, tree.Way tier start parent ∧ tree.IsChild parent kid ∧ tree.Delegates tier parent kid

theorem Delegated.contains (hDelegated : tree.Delegated tier start id) :
    tree.Contains start id := by
  rcases hDelegated with ⟨parent, hWay, hChild, -⟩
  exact .of_child hWay.thread.holds hChild

theorem Delegated.apart (hForest : tree.IsForest) (hFirst : tree.Delegated tier start id)
    (hSecond : tree.Delegated tier start outer) : ¬ tree.Contains id outer := by
  intro hContains
  rcases hFirst with ⟨parent, hWay, hChild, hDelegates⟩
  rcases hSecond with ⟨other, hOtherWay, hOtherChild, -⟩
  exact hOtherWay.thread.not_delegates hForest hWay.thread.holds
    hChild (hForest.holds_of_contains hOtherChild hContains) hDelegates

end SyntaxTree

------ Accounts

variable {marking : Marking}

namespace Run

open SyntaxTree

variable {scope : NodeId → Prop} {run next : Run} {id : NodeId}

/-
  Between a node and one below it, a clause with a function
  leaves a declaration to the interpreter.
-/
def Excused (tree : SyntaxTree) (tier : Nat) (run : Run) (outer inner : NodeId) : Prop :=
  ∃ clause name declaration, tree.Holds outer clause ∧ run.Calls clause name ∧
      tree.Way tier clause declaration ∧ tree.IsInterpreted tier declaration ∧
          tree.Contains declaration inner

theorem Excused.mono (hExcused : run.Excused tree tier outer lower)
    (hWider : tree.Holds wider outer) (hCalls : ∀ clause name, run.Calls clause name →
      next.Calls clause name) : next.Excused tree tier wider lower := by
  rcases hExcused with ⟨clause, name, decl, hHolds, hClause, hRest⟩
  exact ⟨clause, name, decl, hWider.trans hHolds, hCalls clause name hClause, hRest⟩

/-
  What is always known of the nodes in some part of a tree that
  were decided about, and of the problems with them.
-/
structure Accounted (tree : SyntaxTree) (tier : Nat) (scope : NodeId → Prop)
    (run : Run) : Prop where
  /- Nothing in a unit that is accepted was visited. -/
  untouched : ∀ outer inner, scope outer → tree.isBasic outer tier = .ok true →
      tree.Contains outer inner → ¬ run.Annotated inner
  /- Visits go down from decided nodes or by delegation. -/
  led : ∀ parent kid, scope parent → tree.IsChild parent kid → run.Annotated kid →
      run.Annotated parent ∨ tree.Delegates tier parent kid
  distinct : (run.context.diagnostics.map Diagnostic.node).Nodup
  blamed : ∀ diagnostic ∈ run.context.diagnostics,
    ∃ culprit, run.marking culprit = .ok .notGenerated ∧ run.IsNearest tree culprit diagnostic.node
  excused : ∀ diagnostic ∈ run.context.diagnostics, ∀ clause name, run.Calls clause name →
      tree.Holds clause diagnostic.node → run.Excused tree tier clause diagnostic.node

/- A node that may be visited next. -/
structure Awaits (tree : SyntaxTree) (tier : Nat) (scope : NodeId → Prop) (run : Run)
    (id : NodeId) : Prop where
  inside : scope id
  bare : ∀ outer, scope outer → tree.Contains outer id → tree.isBasic outer tier ≠ .ok true
  clear : ∀ diagnostic ∈ run.context.diagnostics, ¬ tree.Holds id diagnostic.node
  uncompiled : ∀ outer name, run.Calls outer name → ¬ tree.Contains outer id
  led : ∀ parent, scope parent → tree.IsChild parent id →
    run.Annotated parent ∨ tree.Delegates tier parent id

/- Nodes that may be visited one after the other. -/
structure Gathers (tree : SyntaxTree) (tier : Nat) (scope : NodeId → Prop) (run : Run)
    (among : NodeId → Prop) : Prop where
  apart : ∀ id other, among id → among other → ¬ tree.Contains id other
  awaits : ∀ id, among id → run.Awaits tree tier scope id

/- What visits of such nodes lead to. -/
structure Rounds (tree : SyntaxTree) (tier : Nat) (scope among : NodeId → Prop)
    (run next : Run) : Prop where
  accounted : next.Accounted tree tier scope
  evolves : run.Evolves (fun inner => ∃ id, among id ∧ tree.Holds id inner) next
  traced : ∀ diagnostic ∈ next.context.diagnostics, diagnostic ∈ run.context.diagnostics ∨
      ∃ id, among id ∧ next.Annotated id ∧ tree.Holds id diagnostic.node

theorem annotated_of_calls (hCalls : run.Calls id name) : run.Annotated id := ⟨_, hCalls, nofun⟩

theorem Evolves.calls (hEvolves : run.Evolves within next) (hCalls : run.Calls id name) :
    next.Calls id name :=
  (hEvolves.settled id (annotated_of_calls hCalls)).trans hCalls

/- Each node can be visited when it is its turn. -/
theorem Rounds.annotated_or_awaits (hForest : tree.IsForest)
    (hGathers : run.Gathers tree tier scope among) (hRounds : Rounds tree tier scope among run next)
    (hAmong : among id) : next.Annotated id ∨ next.Awaits tree tier scope id := by
  have hAwaits := hGathers.awaits id hAmong
  by_cases hAnnotated : next.Annotated id
  · exact .inl hAnnotated
  · right
    refine ⟨hAwaits.inside, hAwaits.bare, ?_, ?_, ?_⟩
    · intro diag hMem hHolds
      rcases hRounds.traced diag hMem with hOld | ⟨other, hOther, hDone, hFound⟩
      · exact hAwaits.clear diag hOld hHolds
      · rcases hForest.comparable hHolds hFound with hContains | hAround
        · exact hGathers.apart id other hAmong hOther hContains
        · rcases hAround.eq_or_contains with rfl | hContains
          · exact hAnnotated hDone
          · exact hGathers.apart other id hOther hAmong hContains
    · intro outer name hCalls hContains
      have hOutside : ¬ ∃ other, among other ∧ tree.Holds other outer := by
        rintro ⟨other, hOther, hHolds⟩
        exact hGathers.apart other id hOther hAmong (hHolds.trans_contains hContains)
      have hSame := hRounds.evolves.outside outer hOutside
      exact hAwaits.uncompiled outer name (hSame.symm.trans hCalls) hContains
    · intro parent hParent hChild
      exact (hAwaits.led parent hParent hChild).imp_left hRounds.evolves.annotated

theorem Rounds.refl (hAccounted : run.Accounted tree tier scope) :
    Rounds tree tier scope among run run :=
  ⟨hAccounted, .refl _ run, fun _ hMem => .inl hMem⟩

/- One more of the nodes is visited. -/
theorem Rounds.visit (hRounds : Rounds tree tier scope among run next) (hAmong : among id)
    (hAccounted : last.Accounted tree tier scope) (hAttends : Generator.Attends tree id next last) :
    Rounds tree tier scope among run last := by
  refine ⟨hAccounted, hRounds.evolves.trans
    (hAttends.evolves.mono fun _ hHolds => ⟨id, hAmong, hHolds⟩), ?_⟩
  intro diag hMem
  rcases hAttends.evolves.mem_diagnostics hMem with hBefore | hHolds
  · rcases hRounds.traced diag hBefore with hOld | ⟨other, hOther, hDone, hFound⟩
    · exact .inl hOld
    · exact .inr ⟨other, hOther, hAttends.evolves.annotated hDone, hFound⟩
  · exact .inr ⟨id, hAmong, hAttends.annotated, hHolds⟩

/- A way without visits starts from no visited node. -/
theorem Accounted.not_annotated_of_thread (hAccounted : run.Accounted tree tier scope)
    (hScope : ∀ id kid, scope id → tree.IsChild id kid → scope kid) (hStart : scope start)
    (hPending : ¬ run.Annotated start) (hThread : tree.Thread tier start id) :
    scope id ∧ ¬ run.Annotated id := by
  induction hThread with
  | refl => exact ⟨hStart, hPending⟩
  | tail _ hKeeps ih =>
    refine ⟨hScope _ _ ih.1 hKeeps.child, ?_⟩
    intro hAnnotated
    rcases hAccounted.led _ _ ih.1 hKeeps.child hAnnotated with hBefore | hDelegates
    · exact ih.2 hBefore
    · exact hKeeps.kept hDelegates

------ Decisions

/- What is delegated below a pending node may be visited. -/
theorem Awaits.gathers_delegated (hForest : tree.IsForest)
    (hScope : ∀ id kid, scope id → tree.IsChild id kid → scope kid)
    (hAccounted : run.Accounted tree tier scope) (hPending : ¬ run.Annotated id)
    (hAwaits : run.Awaits tree tier scope id) :
    run.Gathers tree tier scope (tree.Delegated tier id) := by
  refine ⟨fun _ _ => Delegated.apart hForest, ?_⟩
  rintro kid ⟨parent, hWay, hChild, hDelegates⟩
  have hHolds := hWay.thread.holds
  have hKid : tree.Holds id kid := (Contains.of_child hHolds hChild).holds
  -- What is around the child is on the way to it or around all.
  have hAround : ∀ outer, tree.Contains outer kid →
      tree.Way tier id outer ∨ tree.Contains outer id := by
    intro outer hOuter
    have hParent := hForest.holds_of_contains hChild hOuter
    rcases hForest.comparable hHolds hParent with hBelow | hAbove
    · exact .inl (hWay.split hForest hBelow.holds hParent)
    · rcases hAbove.eq_or_contains with rfl | hContains
      · exact .inl (hWay.split hForest (.refl tree id) hHolds)
      · exact .inr hContains
  refine ⟨?_, ?_, ?_, ?_, ?_⟩
  · exact hScope parent kid (hAccounted.not_annotated_of_thread hScope hAwaits.inside
        hPending hWay.thread).1 hChild
  · intro outer hOuter hContains
    rcases hAround outer hContains with hPassed | hAbove
    · exact hPassed.not_isBasic
    · exact hAwaits.bare outer hOuter hAbove
  · intro diag hMem hFound
    exact hAwaits.clear diag hMem (hKid.trans hFound)
  · intro outer name hCalls hContains
    rcases hAround outer hContains with hPassed | hAbove
    · exact (hAccounted.not_annotated_of_thread hScope hAwaits.inside hPending hPassed.thread).2
        (annotated_of_calls hCalls)
    · exact hAwaits.uncompiled outer name hCalls hAbove
  · intro other _ hOther
    rcases hForest.parent_unique hChild hOther with rfl
    exact .inr hDelegates

/-
  Problems that do not keep a plan from going on: they are in a declaration that is left to the
  interpreter, or below an item that has a function.
-/
def Tolerates (tree : SyntaxTree) (tier : Nat) (id : NodeId) (run next : Run) : Prop :=
  ∀ diagnostic ∈ next.context.diagnostics, diagnostic ∈ run.context.diagnostics ∨
      (∃ declaration, tree.Way tier id declaration ∧ tree.IsInterpreted tier declaration ∧
          tree.Contains declaration diagnostic.node) ∨
      ∃ clause name, tree.Holds id clause ∧
        next.Calls clause name ∧ tree.Holds clause diagnostic.node

theorem Rounds.marking_eq (hForest : tree.IsForest)
    (hRounds : Rounds tree tier scope (tree.Delegated tier id) run next)
    (hOuter : tree.Holds outer id) : next.marking outer = run.marking outer := by
  apply hRounds.evolves.outside
  rintro ⟨kid, hDelegated, hHolds⟩
  exact hForest.not_holds_of_contains hDelegated.contains (hHolds.trans hOuter)

theorem Rounds.exists_visited (hAwaits : run.Awaits tree tier scope id)
    (hRounds : Rounds tree tier scope (tree.Delegated tier id) run next)
    (hMem : diag ∈ next.context.diagnostics) (hHolds : tree.Holds id diag.node) :
    ∃ kid, tree.Delegated tier id kid ∧ next.Annotated kid ∧ tree.Holds kid diag.node := by
  rcases hRounds.traced diag hMem with hOld | hNew
  · exact absurd hHolds (hAwaits.clear diag hOld)
  · exact hNew

/- The decision about a node is marked. -/
structure Marks (id : NodeId) (marking : Marking) (run marked : Run) : Prop where
  decided : marking ≠ .pending
  pending : run.marking id = .ok .pending
  here : marked.marking id = .ok marking
  elsewhere : ∀ other, other ≠ id → marked.marking other = run.marking other
  diagnostics : marked.context.diagnostics = run.context.diagnostics

namespace Marks

variable (hMarks : Marks id marking run marked)

include hMarks

theorem annotated : marked.Annotated id := ⟨marking, hMarks.here, hMarks.decided⟩

theorem ne_of_annotated (hAnnotated : run.Annotated other) : other ≠ id := by
  rintro rfl
  exact not_annotated_of_pending hMarks.pending hAnnotated

theorem annotated_of_annotated (hAnnotated : run.Annotated other) : marked.Annotated other :=
  hAnnotated.congr (hMarks.elsewhere other (hMarks.ne_of_annotated hAnnotated))

theorem calls (hCalls : run.Calls other name) : marked.Calls other name :=
  (hMarks.elsewhere other (hMarks.ne_of_annotated (annotated_of_calls hCalls))).trans hCalls

theorem eq_or_annotated (hAnnotated : marked.Annotated other) :
    other = id ∨ run.Annotated other := by
  by_cases hOther : other = id
  · exact .inl hOther
  · exact .inr (hAnnotated.congr (hMarks.elsewhere other hOther).symm)

end Marks

/- The account still holds when a decision is marked. -/
theorem Rounds.mark (hAwaits : run.Awaits tree tier scope id)
    (hRounds : Rounds tree tier scope (tree.Delegated tier id) run next)
    (hMarks : Marks id marking next marked)
    (hTolerates : ∀ name, marking = .compiled name → Tolerates tree tier id run next) :
    marked.Accounted tree tier scope := by
  have hAccounted := hRounds.accounted
  refine ⟨?_, ?_, ?_, ?_, ?_⟩
  · intro outer lower hOuter hBasic hContains hAnnotated
    rcases hMarks.eq_or_annotated hAnnotated with rfl | hBefore
    · exact hAwaits.bare outer hOuter hContains hBasic
    · exact hAccounted.untouched outer lower hOuter hBasic hContains hBefore
  · intro parent kid hParent hChild hAnnotated
    rcases hMarks.eq_or_annotated hAnnotated with rfl | hBefore
    · exact (hAwaits.led parent hParent hChild).imp_left fun hFirst => hMarks.annotated_of_annotated
          (hRounds.evolves.annotated hFirst)
    · exact (hAccounted.led parent kid hParent hChild
        hBefore).imp_left hMarks.annotated_of_annotated
  · rw [hMarks.diagnostics]
    exact hAccounted.distinct
  · intro diag hMem
    rw [hMarks.diagnostics] at hMem
    rcases hAccounted.blamed diag hMem with ⟨culprit, hMarking, hNearest⟩
    have hOther := hMarks.ne_of_annotated hNearest.annotated
    refine ⟨culprit, (hMarks.elsewhere culprit hOther).trans hMarking,
      hMarks.annotated_of_annotated hNearest.annotated, hNearest.holds, ?_⟩
    intro other hAnnotated hHolds
    rcases hMarks.eq_or_annotated hAnnotated with rfl | hBefore
    · rcases hRounds.exists_visited hAwaits hMem hHolds with ⟨kid, hDelegated, hKid, hFound⟩
      exact hDelegated.contains.holds.trans (hNearest.nearest kid hKid hFound)
    · exact hNearest.nearest other hBefore hHolds
  · intro diag hMem clause name hCalls hHolds
    rw [hMarks.diagnostics] at hMem
    by_cases hClause : clause = id
    · subst hClause
      have hName := hMarks.here.symm.trans hCalls
      rw [Except.ok.injEq] at hName
      rcases hTolerates name hName diag hMem with
        hOld | ⟨decl, hWay, hLeft, hContains⟩ | ⟨lower, func, hInner, hFun, hFound⟩
      · exact absurd hHolds (hAwaits.clear diag hOld)
      · exact ⟨clause, name, decl, .refl tree clause, hCalls, hWay, hLeft, hContains⟩
      · exact (hAccounted.excused diag hMem lower func hFun hFound).mono hInner
            fun _ _ => hMarks.calls
    · have hBefore := (hMarks.elsewhere clause hClause).symm.trans hCalls
      exact (hAccounted.excused diag hMem clause name
        hBefore hHolds).mono (.refl tree clause) fun _ _ => hMarks.calls

variable (hForest : tree.IsForest) (hScope : ∀ id kid, scope id → tree.IsChild id kid → scope kid)

include hForest hScope

/-
  Nothing around a node at which a pending fragment has a
  problem was visited inside of the fragment.
-/
theorem Accounted.contains_of_exposes (hAccounted : run.Accounted tree tier scope)
    (hInside : scope id) (hPending : ¬ run.Annotated id) (hExposes : tree.Exposes tier id lower)
    (hOther : run.Annotated other) (hAround : tree.Holds other lower) : tree.Contains other id := by
  have hInner := Generator.holds_of_exposes hExposes
  rcases hForest.comparable hInner hAround with hBelow | hAbove
  · exfalso
    rcases hExposes with rfl | ⟨unit, hExposed, hUnit⟩
    · exact hForest.not_holds_of_contains hBelow hAround
    · have hReached := hAccounted.not_annotated_of_thread hScope hInside hPending hExposed.thread
      rcases hForest.comparable hUnit hAround with hIn | hOut
      · exact hAccounted.untouched unit other hReached.1 hExposed.basic hIn hOther
      · exact (hAccounted.not_annotated_of_thread hScope hInside
          hPending (hExposed.thread.split hForest hBelow.holds hOut)).2 hOther
  · rcases hAbove.eq_or_contains with rfl | hContains
    · exact absurd hOther hPending
    · exact hContains

/- The account still holds when problems with a fragment are reported and its node is marked. -/
theorem Rounds.report (hAwaits : run.Awaits tree tier scope id)
    (hRounds : Rounds tree tier scope (tree.Delegated tier id) run next)
    (hMarks : Marks id .notGenerated next marked)
    (hComplains : Context.Complains (tree.Exposes tier id) marked.context ctx) :
    Accounted tree tier scope { marked with context := ctx } := by
  have hAccounted := hRounds.mark hAwaits hMarks nofun
  have hPending := not_annotated_of_pending hMarks.pending
  rcases hComplains with ⟨extra, -, hNew, hOnce, hEach⟩
  have hAround : ∀ diag ∈ extra, ∀ other,
      next.Annotated other → tree.Holds other diag.node → tree.Contains other id :=
    fun diag hMem _ => hRounds.accounted.contains_of_exposes hForest hScope
        hAwaits.inside hPending (hEach diag hMem).2
  refine ⟨hAccounted.untouched, hAccounted.led, ?_, ?_, ?_⟩
  · dsimp only
    rw [hNew, List.map_append]
    refine List.nodup_append.mpr ⟨hAccounted.distinct, hOnce, ?_⟩
    intro node hOld _ hFresh hSame
    subst hSame
    rcases List.mem_map.mp hOld with ⟨before, hBefore, rfl⟩
    rcases List.mem_map.mp hFresh with ⟨after, hAfter, hNode⟩
    rw [hMarks.diagnostics] at hBefore
    have hHolds : tree.Holds id before.node := by
      rw [← hNode]
      exact Generator.holds_of_exposes (hEach after hAfter).2
    rcases hRounds.exists_visited hAwaits hBefore hHolds with ⟨kid, hDelegated, hKid, hFound⟩
    rw [← hNode] at hFound
    exact hForest.not_holds_of_contains hDelegated.contains
      (hAround after hAfter kid hKid hFound).holds
  · intro diag hMem
    rw [hNew] at hMem
    rcases List.mem_append.mp hMem with hOld | hFresh
    · rcases hAccounted.blamed diag hOld with ⟨culprit, hMarking, hNearest⟩
      exact ⟨culprit, hMarking, hNearest.annotated, hNearest.holds, hNearest.nearest⟩
    · refine ⟨id, hMarks.here, hMarks.annotated,
        Generator.holds_of_exposes (hEach diag hFresh).2, ?_⟩
      intro other hOther hHolds
      rcases hMarks.eq_or_annotated hOther with rfl | hBefore
      · exact .refl tree other
      · exact (hAround diag hFresh other hBefore hHolds).holds
  · intro diag hMem clause name hCalls hHolds
    rw [hNew] at hMem
    rcases List.mem_append.mp hMem with hOld | hFresh
    · exact hAccounted.excused diag hOld clause name hCalls hHolds
    · exfalso
      have hClause : clause ≠ id := by
        rintro rfl
        have hName := hMarks.here.symm.trans hCalls
        cases hName
      have hBefore : next.Calls clause name := (hMarks.elsewhere clause hClause).symm.trans hCalls
      have hContains := hAround diag hFresh clause (annotated_of_calls hBefore) hHolds
      exact hAwaits.uncompiled clause name ((hRounds.marking_eq hForest hContains.holds).symm.trans
          hBefore) hContains

/- The children of a node that was refused may be visited. -/
theorem Rounds.gathers_children (hAwaits : run.Awaits tree tier scope id)
    (hOther : tree.isBasic id tier ≠ .ok true)
    (hRounds : Rounds tree tier scope (tree.Delegated tier id) run next)
    (hSame : next.context.diagnostics = run.context.diagnostics)
    (hMarks : Marks id .notGenerated next marked) :
    marked.Gathers tree tier scope (tree.IsChild id) := by
  refine ⟨fun _ _ => hForest.not_contains_sibling, ?_⟩
  intro kid hChild
  refine ⟨hScope id kid hAwaits.inside hChild, ?_, ?_, ?_, ?_⟩
  · intro outer hOuter hContains
    have hAround := hForest.holds_of_contains hChild hContains
    rcases hAround.eq_or_contains with rfl | hAbove
    · exact hOther
    · exact hAwaits.bare outer hOuter hAbove
  · intro diag hMem hHolds
    rw [hMarks.diagnostics, hSame] at hMem
    exact hAwaits.clear diag hMem (Contains.of_isChild hChild hHolds).holds
  · intro outer name hCalls hContains
    have hAround := hForest.holds_of_contains hChild hContains
    rcases hAround.eq_or_contains with rfl | hAbove
    · have hName := hMarks.here.symm.trans hCalls
      cases hName
    · have hOuter : outer ≠ id := by
        rintro rfl
        exact hForest.not_contains_self hAbove
      have hBefore : next.Calls outer name := (hMarks.elsewhere outer hOuter).symm.trans hCalls
      exact hAwaits.uncompiled outer name ((hRounds.marking_eq hForest hAround).symm.trans hBefore)
        hAbove
  · intro parent _ hParent
    rcases hForest.parent_unique hChild hParent with rfl
    exact .inl hMarks.annotated

omit hForest hScope

/- A visit may find problems that are tolerated. -/
theorem Tolerates.visit (hTolerates : Tolerates tree tier id run next)
    (hEvolves : next.Evolves (tree.Holds kid) last)
    (hKid : (∃ decl, tree.Way tier id decl ∧ tree.IsInterpreted tier decl ∧ tree.IsChild decl kid) ∨
      tree.Holds id kid ∧ ∃ name, last.Calls kid name) : Tolerates tree tier id run last := by
  intro diag hMem
  rcases hEvolves.mem_diagnostics hMem with hBefore | hHolds
  · rcases hTolerates diag hBefore with hOld | hLeft | ⟨clause, name, hClause, hCalls, hFound⟩
    · exact .inl hOld
    · exact .inr (.inl hLeft)
    · exact .inr (.inr ⟨clause, name, hClause, hEvolves.calls hCalls, hFound⟩)
  · right
    rcases hKid with ⟨decl, hWay, hLeft, hChild⟩ | ⟨hBelow, name, hCalls⟩
    · exact .inl ⟨decl, hWay, hLeft, .of_isChild hChild hHolds⟩
    · exact .inr ⟨kid, name, hBelow, hCalls, hHolds⟩

end Run

------ Visits

namespace Generator

open Planner Run SyntaxTree

variable {tier : Nat} {visit : NodeId → Generation Unit}
variable {id : NodeId} {run : Run}

/- A visit of a node that may be visited keeps the account. -/
def Accounts (tree : SyntaxTree) (tier : Nat) (scope : NodeId → Prop)
    (visit : NodeId → Generation Unit) : Prop :=
  ∀ id run, run.context.tier = tier → run.Accounted tree tier scope →
      (run.Annotated id ∨ run.Awaits tree tier scope id) →
        Step.Meets False (visit id) run fun _ next =>
          next.Accounted tree tier scope ∧ Attends tree id run next

variable (hForest : tree.IsForest) (hAccounts : Accounts tree tier scope visit)
variable (hTier : run.context.tier = tier)

include hForest hAccounts hTier

/- Nodes are visited one after the other. -/
theorem Accounts.round (hGathers : run.Gathers tree tier scope among)
    (hRounds : Rounds tree tier scope among run next) (hAmong : among id) :
    Step.Meets False (visit id) next fun _ last => Rounds tree tier scope among run last ∧
        Attends tree id next last := by
  have hNext : next.context.tier = tier := hRounds.evolves.tier.trans hTier
  apply (hAccounts id next hNext hRounds.accounted
    (hRounds.annotated_or_awaits hForest hGathers hAmong)).mono
  rintro _ last ⟨hAccounted, hAttends⟩
  exact ⟨hRounds.visit hAmong hAccounted hAttends, hAttends⟩

/- The visits that are made for a plan. -/
theorem Accounts.touring (hGathers : run.Gathers tree tier scope (tree.Delegated tier id)) :
    Touring tree tier id visit (fun next =>
        Rounds tree tier scope (tree.Delegated tier id) run next ∧ Tolerates tree tier id run next)
      (Rounds tree tier scope (tree.Delegated tier id) run) where
  tiered := fun _ hGood => hGood.1.evolves.tier.trans hTier
  eased := fun _ hGood => hGood.1
  item := by
    rintro parent kid mid hWay hChild hDelegates ⟨hRounds, hTolerates⟩
    apply (hAccounts.round hForest hTier hGathers hRounds ⟨parent, hWay, hChild, hDelegates⟩).mono
    rintro _ next ⟨hNext, hAttends⟩
    refine ⟨hNext, fun name hCalls => ⟨hNext, ?_⟩⟩
    exact hTolerates.visit hAttends.evolves (.inr
      ⟨(Contains.of_child hWay.thread.holds hChild).holds, name, hCalls⟩)
  source := by
    rintro parent kid mid hWay hChild hInterpreted ⟨hRounds, hTolerates⟩
    apply (hAccounts.round hForest hTier hGathers hRounds
      ⟨parent, hWay, hChild, .source hInterpreted⟩).mono
    rintro _ next ⟨hNext, hAttends⟩
    exact ⟨hNext, hTolerates.visit hAttends.evolves (.inl ⟨parent, hWay, hInterpreted, hChild⟩)⟩

/- Siblings are visited one after the other. -/
theorem Accounts.visitSiblings_rounds (hAccounted : run.Accounted tree tier scope)
    (hGathers : run.Gathers tree tier scope among) (hSibs : tree.Siblings first ids)
    (hAmong : ∀ id ∈ ids, among id) :
    Step.Meets False (visitSiblings tree visit fuel first) run
      fun _ next => Rounds tree tier scope among run next := by
  apply visitSiblings_keeps hSibs _ (.refl hAccounted)
  intro id hId mid hRounds
  apply (hAccounts.round hForest hTier hGathers hRounds (hAmong id hId)).mono
  intro _ next hNext
  exact hNext.1

omit hForest hAccounts hTier

/- Without a new problem there is nothing to tolerate. -/
theorem renewing_rounds (run : Run) :
    Renewing (fun next => Rounds tree tier scope among run next ∧ Tolerates tree tier id run next)
      (Rounds tree tier scope among run) run.context.errorCount := by
  constructor
  · intro next hGood
    exact hGood.1.evolves.errorCount_le
  · intro next hRounds hErrs
    refine ⟨hRounds, ?_⟩
    intro diag hMem
    rw [hRounds.evolves.diagnostics_eq hErrs] at hMem
    exact .inl hMem

theorem marks_notGenerated (hForest : tree.IsForest) (hPending : run.marking id = .ok .pending)
    (hRounds : Rounds tree tier scope (tree.Delegated tier id) run next) :
    Marks id .notGenerated next (next.mark id .notGenerated) := by
  have hStill : next.marking id = .ok .pending :=
    (hRounds.marking_eq hForest (.refl tree id)).trans hPending
  exact ⟨nofun, hStill, marking_mark hStill, fun _ hOther => marking_mark_of_ne hOther _, rfl⟩

/-
  A node that may be visited is decided about, and its children
  are visited only if it holds no problem.
-/
theorem visitNode_accounts (hTree : tree.Conforms)
    (hScope : ∀ id kid, scope id → tree.IsChild id kid → scope kid)
    (hAccounts : Accounts tree tier scope visit) (id : NodeId) (hTier : run.context.tier = tier)
    (hAccounted : run.Accounted tree tier scope)
    (hReady : run.Annotated id ∨ run.Awaits tree tier scope id) :
    Step.Meets False (visitNode tree visit id) run fun _ next =>
      next.Accounted tree tier scope := by
  have hForest := hTree.forest
  have hAwaits : run.marking id = .ok .pending → run.Awaits tree tier scope id :=
    fun hPending => hReady.resolve_left (not_annotated_of_pending hPending)
  have hGathers : run.marking id = .ok .pending →
      run.Gathers tree tier scope (tree.Delegated tier id) :=
    fun hPending => (hAwaits hPending).gathers_delegated hForest hScope hAccounted
      (not_annotated_of_pending hPending)
  apply visitNode_meets hTree.shaped fun hPending => generateWith_decides hTree
      (hAccounts.touring hForest hTier (hGathers hPending)) (renewing_rounds run)
      ⟨.refl hAccounted, fun _ hMem => .inl hMem⟩ (Nat.le_refl _)
  · intro _
    exact hAccounted
  · intro name next hPending hDecided
    cases hDecided with
    | @given mid ctx _ hGood _ hSame =>
      rcases hGood with ⟨hRounds, hTolerates⟩
      have hStill : mid.marking id = .ok .pending :=
        (hRounds.marking_eq hForest (.refl tree id)).trans hPending
      have hMarks : Marks id (.compiled name) mid
          (Run.compiledAs { mid with context := ctx } ctx id name) :=
        ⟨nofun, hStill, marking_mark hStill, fun _ hOther => marking_mark_of_ne hOther _, hSame⟩
      exact hRounds.mark (hAwaits hPending) hMarks fun _ _ => hTolerates
  · intro next hPending hDecided _
    cases hDecided with
    | refused hGood _ _ =>
      exact hGood.1.mark (hAwaits hPending) (marks_notGenerated hForest hPending hGood.1) nofun
    | abandoned hRounds _ =>
      exact hRounds.mark (hAwaits hPending) (marks_notGenerated hForest hPending hRounds) nofun
    | reported hGood _ hComplains _ =>
      exact hGood.1.report hForest hScope (hAwaits hPending)
        (marks_notGenerated hForest hPending hGood.1) hComplains
  · rintro next kids hPending ⟨hRounds, -⟩ hErrs hOther hKids
    have hMarks := marks_notGenerated hForest hPending hRounds
    have hMarked := hRounds.mark (hAwaits hPending) hMarks nofun
    have hChildren := hRounds.gathers_children hForest hScope (hAwaits hPending) hOther
      (hRounds.evolves.diagnostics_eq hErrs) hMarks
    rcases exists_node_of_children hKids with ⟨node, hNode, hSibs⟩
    rw [sub_eq_head? hNode hKids] at hSibs
    have hStill : (next.mark id .notGenerated).context.tier = tier :=
      hRounds.evolves.tier.trans hTier
    apply (hAccounts.visitSiblings_rounds hForest hStill hMarked hChildren hSibs
      fun kid hKid => ⟨kids, hKids, hKid⟩).mono
    intro _ last hLast
    exact hLast.accounted

theorem visitWithin_accounts (hTree : tree.Conforms)
    (hScope : ∀ id kid, scope id → tree.IsChild id kid → scope kid) (fuel : Nat) :
    Accounts tree tier scope (visitWithin tree fuel) := by
  induction fuel with
  | zero => exact fun _ _ _ _ _ => False.elim
  | succ fuel ih =>
    intro id run hTier hAccounted hReady
    have hNode : Step.Meets False (visitNode tree (visitWithin tree fuel) id) run _ :=
      (visitNode_accounts hTree hScope ih id hTier hAccounted
        hReady).and (visitWithin_attends hTree (fuel + 1) id run)
    exact hNode

end Generator

------ Whole Trees

namespace SyntaxTree

open Generator Run

variable {start : Run}

theorem CompilesTo.diagnostics_eq_nil (hRun : tree.CompilesTo options run)
    (hLevel : options.level = 0) : run.context.diagnostics = [] := by
  rcases hRun with ⟨root, -, hPass⟩
  unfold compilationPass at hPass
  rw [if_pos hLevel] at hPass
  cases hPass
  rfl

/- The outermost nodes may be visited one after the other. -/
theorem gathers_tops (hForest : tree.IsForest) {root : NodeId}
    (hTops : tree.Siblings (some root) tops) (hPending : ∀ id, ¬ start.Annotated id)
    (hEmpty : start.context.diagnostics = []) (tier : Nat) :
    start.Gathers tree tier (fun id => ∃ top ∈ tops, tree.Holds top id) (· ∈ tops) := by
  refine ⟨fun _ _ => hForest.not_contains_top hTops, ?_⟩
  intro id hId
  have hOutermost : ∀ outer, (∃ top ∈ tops, tree.Holds top outer) → ¬ tree.Contains outer id := by
    rintro outer ⟨top, hTop, hHolds⟩ hContains
    exact hForest.not_contains_top hTops hTop hId (hHolds.trans_contains hContains)
  refine ⟨⟨id, hId, .refl tree id⟩, ?_, ?_, ?_, ?_⟩
  · intro outer hOuter hContains
    exact absurd hContains (hOutermost outer hOuter)
  · rw [hEmpty]
    nofun
  · intro outer name hCalls
    exact absurd (annotated_of_calls hCalls) (hPending outer)
  · intro parent hParent hChild
    exact absurd (Relation.TransGen.single hChild) (hOutermost parent hParent)

/- A start without decisions and problems has an account. -/
theorem accounted_start (hPending : ∀ id, ¬ start.Annotated id)
    (hEmpty : start.context.diagnostics = []) (tier : Nat) (scope : NodeId → Prop) :
    start.Accounted tree tier scope where
  untouched := fun _ lower _ _ _ => hPending lower
  led := fun _ kid _ _ hAnnotated => absurd hAnnotated (hPending kid)
  distinct := by
    rw [hEmpty]
    exact List.nodup_nil
  blamed := by
    rw [hEmpty]
    nofun
  excused := by
    rw [hEmpty]
    nofun

theorem CompilesTo.accounted (hTree : tree.Conforms) (hPending : tree.IsPending)
    (hLevel : 1 ≤ options.level) (hRun : tree.CompilesTo options run) :
    ∃ scope, run.Accounted tree options.tier scope := by
  rcases hRun.exists_visit hLevel with ⟨root, start, hRoot, hStart, hTier, hEmpty, hVisit⟩
  rcases siblings_exist hTree (Store.exists_fetch
    (hTree.inRange.root root hRoot)) with ⟨tops, hTops, -⟩
  have hNone : ∀ id, ¬ start.Annotated id := fun _ => hPending.not_annotated hStart
  have hScope : ∀ id kid, (∃ top ∈ tops, tree.Holds top id) →
      tree.IsChild id kid → ∃ top ∈ tops, tree.Holds top kid := by
    rintro id kid ⟨top, hTop, hHolds⟩ hChild
    exact ⟨top, hTop, (Contains.of_child hHolds hChild).holds⟩
  have hRounds : Step.Meets False (visit tree root) start _ := (visitWithin_accounts hTree hScope
      tree.bound).visitSiblings_rounds hTree.forest hTier (accounted_start hNone hEmpty _ _)
      (gathers_tops hTree.forest hTops hNone hEmpty _) hTops fun _ hTop => hTop
  exact ⟨_, (hRounds.of_run hVisit).accounted⟩

/-
  No two problems of a compilation are at the same node. Each is in a fragment that gets no
  function, the nearest one around it that was decided about; a clause around it has a function
  only if a declaration between them is left to the interpreter.
-/
theorem Conforms.problems_blamed
    (hTree : tree.Conforms)
    (hPending : tree.IsPending)
    (options : Options) :
    ∃ run, tree.CompilesTo options run ∧
      (run.context.diagnostics.map Diagnostic.node).Nodup ∧
      run.context.errorCount = run.context.diagnostics.length ∧
      ∀ diagnostic ∈ run.context.diagnostics,
        (∃ culprit, run.marking culprit = .ok .notGenerated ∧
          run.IsNearest tree culprit diagnostic.node) ∧
        ∀ clause name,
          run.marking clause = .ok (.compiled name) →
            tree.Holds clause diagnostic.node →
              run.Excused tree options.tier clause diagnostic.node := by
  rcases hTree.exists_compilesTo options with ⟨run, hRun⟩
  refine ⟨run, hRun, ?_⟩
  by_cases hLevel : options.level = 0
  · rw [run.context.counted, hRun.diagnostics_eq_nil hLevel]
    exact ⟨List.nodup_nil, rfl, nofun⟩
  · rcases hRun.accounted hTree hPending (by omega) with
      ⟨scope, hAccounted⟩
    refine ⟨hAccounted.distinct, run.context.counted, ?_⟩
    intro diagnostic hMember
    exact ⟨hAccounted.blamed diagnostic hMember, hAccounted.excused diagnostic hMember⟩

theorem problems_blamed_faultySource :
    faultySource.Conforms ∧ faultySource.IsPending ∧
      ∃ run, faultySource.CompilesTo { level := 3 } run ∧
        (run.context.diagnostics.map Diagnostic.node).Nodup ∧
        run.context.errorCount = run.context.diagnostics.length ∧
        ∀ diagnostic ∈ run.context.diagnostics,
          (∃ culprit, run.marking culprit = .ok .notGenerated ∧
            run.IsNearest faultySource culprit diagnostic.node) ∧
          ∀ clause name,
            run.marking clause = .ok (.compiled name) →
              faultySource.Holds clause diagnostic.node →
                run.Excused faultySource 3 clause diagnostic.node :=
  ⟨conforms_faultySource, isPending_faultySource,
    conforms_faultySource.problems_blamed isPending_faultySource { level := 3 }⟩

end SyntaxTree

end Algol68
