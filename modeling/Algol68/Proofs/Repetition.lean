import Algol68.Proofs.Compilation

/-
  Compiling what was compiled.

  A compilation decides about pending nodes and changes
  nothing else of a tree. All nodes at which it started were
  decided about, so that another compilation has nothing left
  to do, whatever its options.

  Main declarations:
    * `SyntaxTree.IsForest.compile_settles`
-/

------ Trees with Other Markings

namespace Algol68

variable {tree : SyntaxTree} {id : NodeId}

namespace SyntaxTree

variable {markings : Array Marking} {node : Node} {run : Run}

@[simp] theorem size_withMarkings (tree : SyntaxTree) (markings : Array Marking) :
    (tree.withMarkings markings).nodes.size = tree.nodes.size := by
  simp [withMarkings, Store.size]

theorem node_withMarkings (hNode : tree.node id = .ok node) :
    (tree.withMarkings markings).node id = .ok { node with
        marking := markings[id.number]?.getD node.marking } := by
  unfold SyntaxTree.node at hNode ⊢
  rw [Store.fetch_eq_ok, Store.get?] at hNode ⊢
  simp [withMarkings, hNode]

theorem markings_withMarkings (hSize : markings.size = tree.nodes.size) :
    (tree.withMarkings markings).markings = markings := by
  apply Array.ext
  · simp [SyntaxTree.markings, withMarkings, hSize, Store.size]
  · intro i hLeft hRight
    simp [SyntaxTree.markings, withMarkings, hRight]

theorem withMarkings_markings (tree : SyntaxTree) : tree.withMarkings tree.markings = tree := by
  have hNodes : (tree.withMarkings tree.markings).nodes = tree.nodes := by
    apply congrArg Store.mk
    apply Array.ext
    · simp
    · intro i hLeft hRight
      simp [SyntaxTree.markings, hRight]
  exact congrArg (fun nodes => { tree with nodes := nodes }) hNodes

theorem marking_of_node (hMarkings : run.markings = tree.markings)
    (hNode : tree.node id = .ok node) : run.marking id = .ok node.marking := by
  unfold SyntaxTree.node at hNode
  rw [Store.fetch_eq_ok, Store.get?] at hNode
  simp [Run.marking, hMarkings, SyntaxTree.markings, hNode]

theorem exists_marked_iff (hMarkings : run.markings = tree.markings) :
    (∃ node, tree.node id = .ok node ∧ node.marking = marking) ↔ run.marking id = .ok marking := by
  constructor
  · rintro ⟨node, hNode, rfl⟩
    exact marking_of_node hMarkings hNode
  · intro hMarking
    have hBound : id.number < run.markings.size := by
      unfold Run.marking at hMarking
      split at hMarking
      · rename_i hFound
        exact (Array.getElem?_eq_some_iff.mp hFound).1
      · cases hMarking
    rw [hMarkings, SyntaxTree.markings, Array.size_map] at hBound
    rcases Store.exists_fetch hBound with ⟨node, hNode⟩
    refine ⟨node, hNode, ?_⟩
    rw [marking_of_node hMarkings hNode] at hMarking
    exact Except.ok.inj hMarking

/- A tree that differs from another only in what was decided about its pending nodes. -/
structure OnlyDecides (tree after : SyntaxTree) : Prop where
  modes : after.modes = tree.modes
  tags : after.tags = tree.tags
  tables : after.tables = tree.tables
  root : after.root = tree.root
  size : after.nodes.size = tree.nodes.size
  nodes : ∀ id node, tree.node id = .ok node → ∃ marking,
      after.node id = .ok { node with marking := marking } ∧
        (node.marking ≠ .pending → marking = node.marking)

theorem OnlyDecides.bound_eq (hDecides : tree.OnlyDecides after) : after.bound = tree.bound := by
  unfold bound
  rw [hDecides.size, hDecides.tags]

theorem OnlyDecides.siblings (hDecides : tree.OnlyDecides after) (hSibs : tree.Siblings first ids) :
    after.Siblings first ids := by
  induction ids generalizing first with
  | nil => exact hSibs
  | cons id rest ih =>
    rcases hSibs with ⟨rfl, node, hNode, hRest⟩
    rcases hDecides.nodes id node hNode with ⟨marking, hFound, -⟩
    exact ⟨rfl, _, hFound, ih hRest⟩

/- The moves of a compilation decide about pending nodes only. -/
theorem onlyDecides_of_moves {start : Run} (hStart : start.markings = tree.markings)
    (hMoves : start.Moves tree inside run) : tree.OnlyDecides (tree.withMarkings run.markings) := by
  refine ⟨rfl, rfl, rfl, rfl, tree.size_withMarkings _, ?_⟩
  intro id node hNode
  refine ⟨_, node_withMarkings hNode, ?_⟩
  intro hDecided
  have hBefore := marking_of_node hStart hNode
  have hAfter := (hMoves.settled ⟨_, hBefore, hDecided⟩).trans hBefore
  unfold Run.marking at hAfter
  split at hAfter
  · rename_i found hFound
    rw [hFound]
    exact Except.ok.inj hAfter
  · cases hAfter

end SyntaxTree

------ Nodes That Are Decided

namespace Generator

open Planner

/- All siblings from a first one on were decided about. -/
def HasSettled (tree : SyntaxTree) (fuel : Nat) (first : Option NodeId) (run : Run) : Prop :=
  ∃ ids, tree.Siblings first ids ∧ ids.length ≤ fuel ∧ ∀ id ∈ ids, run.Annotated id

/- Each of the siblings that are visited is decided about. -/
theorem visitSiblings_settles (hForest : tree.IsForest) (hFull : run.IsFull tree) :
    Step.Meets False (visitSiblings tree (visitUnit tree) fuel first) run
      fun _ next => run.Moves tree (fun _ => True) next ∧ HasSettled tree fuel first next := by
  induction fuel generalizing first run with
  | zero =>
    cases first with
    | none => exact ⟨.refl run, [], rfl, by simp, by simp⟩
    | some head => exact id
  | succ fuel ih =>
    cases first with
    | none => exact ⟨.refl run, [], rfl, by simp, by simp⟩
    | some head =>
      have hVisit : Step.Meets False (visitUnit tree head) run
          fun _ next => run.Draws tree (Within tree head) next ∧ next.Annotated head :=
        visitWithin_settles False.elim hForest False.elim False.elim hFull
      apply Step.Meets.bind hVisit
      rintro _ middle ⟨hDraws, hHead⟩
      apply Step.Meets.walk_bind False.elim
      intro node hNode
      apply (ih (hFull.of_draws hDraws)).mono
      rintro _ next ⟨hMoves, ids, hIds, hLen, hRest⟩
      refine ⟨(hDraws.moves.mono fun _ _ => trivial).trans
        hMoves, head :: ids, ⟨rfl, node, hNode, hIds⟩, Nat.succ_le_succ hLen, ?_⟩
      intro id hMem
      rcases List.mem_cons.mp hMem with rfl | hLater
      · exact hMoves.annotated hHead
      · exact hRest id hLater

/- A node that was decided about is left alone. -/
theorem visitNode_still {visit : NodeId → Generation Unit}
    (hDecided : run.Annotated id) : (visitNode tree visit id).run run = .ok ((), run) := by
  rcases hDecided with ⟨marking, hMarking, hNot⟩
  have hPending : marking.isPending = false := by
    cases marking with
    | pending => exact absurd rfl hNot
    | notGenerated | compiled => rfl
  simp [visitNode, hMarking, hPending]

/- Siblings that were decided about are left alone. -/
theorem visitSiblings_still (hSibs : tree.Siblings first ids) (hLen : ids.length ≤ fuel)
    (hDecided : ∀ id ∈ ids, run.Annotated id) :
    (visitSiblings tree (visitUnit tree) fuel first).run run = .ok ((), run) := by
  induction ids generalizing fuel first with
  | nil =>
    obtain rfl : first = none := hSibs
    cases fuel <;> rfl
  | cons id rest ih =>
    rcases hSibs with ⟨rfl, node, hNode, hRest⟩
    obtain ⟨less, rfl⟩ : ∃ less, fuel = less + 1 := ⟨fuel - 1, by simp at hLen; omega⟩
    have hVisit : (visitUnit tree id).run run = .ok ((), run) := by
      exact visitNode_still (hDecided id List.mem_cons_self)
    have hLater := ih hRest (Nat.le_of_succ_le_succ hLen) fun other hOther =>
        hDecided other (List.mem_cons_of_mem _ hOther)
    simp [visitSiblings, hVisit, hNode, hLater]

end Generator

------ A Second Compilation

namespace SyntaxTree

open Generator

variable {after : SyntaxTree} {root : NodeId}

/- All nodes at which a pass starts are decided about. -/
theorem compilationPass_settles (hForest : tree.IsForest) (hLevel : 1 ≤ options.level)
    (hFull : start.IsFull tree) :
    Step.Meets False (tree.compilationPass options root) start fun _ next => ∃ first : Run,
        first.markings = start.markings ∧
          first.Moves tree (fun _ => True) next ∧ HasSettled tree tree.bound (some root) next := by
  have hVisit : ∀ tier, Step.Meets False (atTier tier >>= fun _ => visit tree root) start
      fun _ next => ∃ first : Run,
        first.markings = start.markings ∧
          first.Moves tree (fun _ => True) next ∧ HasSettled tree tree.bound (some root) next := by
    intro tier
    apply Step.Meets.modify_bind
    refine (visitSiblings_settles hForest ?_).mono ?_
    · exact hFull
    · intro _ next hSettled
      refine ⟨_, ?_, hSettled⟩
      rfl
  unfold compilationPass
  split
  · omega
  · split
    · exact hVisit _
    · exact Step.Meets.get_bind (hVisit _)

/- A tree whose first nodes are decided is left alone. -/
theorem compile_still (hRoot : tree.root = some root) (hSibs : tree.Siblings (some root) ids)
    (hLen : ids.length ≤ tree.bound) (hDecided : ∀ id ∈ ids, ∃ node, tree.node id = .ok node ∧
      node.marking ≠ .pending) (options : Options) :
    tree.compile options = .ok (.ok
        ({ globals := "", functions := "", compiled := [],
           diagnostics := [] }, tree)) := by
  have hVisit : ∀ first : Run, first.markings = tree.markings →
      (visit tree root).run first = .ok ((), first) := by
    intro first hMarkings
    apply visitSiblings_still hSibs hLen
    intro id hMem
    rcases hDecided id hMem with ⟨node, hNode, hNot⟩
    exact ⟨_, marking_of_node hMarkings hNode, hNot⟩
  have hPass : ∃ tier, (tree.compilationPass options root).run
      (tree.startRun (.ofOptions options)) =
        .ok ((), tree.startRun { Context.ofOptions options with tier := tier }) := by
    unfold compilationPass
    split
    · exact ⟨_, rfl⟩
    · split
      · exact ⟨_, hVisit _ rfl⟩
      · exact ⟨_, hVisit _ rfl⟩
  rcases hPass with ⟨tier, hPass⟩
  rw [CompilesTo.compile_eq ⟨root, hRoot, hPass⟩]
  change Except.ok (Except.ok (_, tree.withMarkings tree.markings)) = _
  rw [withMarkings_markings]
  rfl

/-
  A compilation that returns decides about pending nodes and leaves the rest of the tree as it is.
  Compiling the result once more, with whatever options, gives the bare prelude and changes
  nothing.
-/
theorem IsForest.compile_settles
    (hForest : tree.IsForest)
    (hLevel : 1 ≤ options.level)
    {source : CompiledSource}
    (hCompile : tree.compile options = .ok (.ok (source, after))) :
    tree.OnlyDecides after ∧
      ∀ again : Options, ∃ empty : CompiledSource,
        after.compile again = .ok (.ok (empty, after)) ∧
          empty.text = CompiledSource.prelude ∧ empty.compiled = [] ∧ empty.diagnostics = [] := by
  rcases compile_eq_ok.mp hCompile with
    ⟨run, ⟨root, hRoot, hPass⟩, -, rfl⟩
  have hFull := isFull_of_isStart (tree.startRun_isStart options)
  rcases (compilationPass_settles hForest hLevel
    hFull).of_run hPass with
    ⟨first, hFirst, hMoves, ids, hIds, hLength, hDecided⟩
  have hOnly := onlyDecides_of_moves hFirst hMoves
  have hSize : run.markings.size = tree.nodes.size := by
    rw [hMoves.size_eq, hFirst]
    exact Array.size_map
  refine ⟨hOnly, ?_⟩
  intro again
  refine ⟨_, compile_still (hOnly.root.trans hRoot)
    (hOnly.siblings hIds) (hOnly.bound_eq ▸ hLength) ?_ again,
    ?_, rfl, rfl⟩
  · intro id hMember
    rcases hDecided id hMember with ⟨marking, hMarking, hNot⟩
    rcases (exists_marked_iff
      (markings_withMarkings hSize).symm).mpr hMarking with
      ⟨node, hNode, rfl⟩
    exact ⟨node, hNode, hNot⟩
  · simp [CompiledSource.text, CompiledSource.sectionText]

/- A loop with a part that was refused and one that was not. -/
def partlyDecided : SyntaxTree :=
  lastCounter.withMarkings #[.pending, .notGenerated, .pending, .compiled "_denoter_int_10",
      .pending, .pending, .pending, .pending, .notGenerated]

theorem compile_settles_partlyDecided :
    partlyDecided.IsForest ∧
      ∃ source after,
        partlyDecided.compile { level := 2 } = .ok (.ok (source, after)) ∧
          partlyDecided.OnlyDecides after ∧
            ∀ again : Options, ∃ empty : CompiledSource,
              after.compile again = .ok (.ok (empty, after)) ∧
                empty.text = CompiledSource.prelude ∧
                  empty.compiled = [] ∧ empty.diagnostics = [] := by
  have hTree : partlyDecided.Conforms := conforms_of_isOrderly (by decide +kernel)
  rcases hTree.exists_compilesTo { level := 2 } with ⟨run, hRun⟩
  refine ⟨hTree.forest, _, _, hRun.compile_eq, ?_⟩
  exact hTree.forest.compile_settles (by decide) hRun.compile_eq

end SyntaxTree

end Algol68
