import Algol68.Compiler
import Algol68.Proofs.Generation

/-
  Compilation of whole trees.

  A compilation is a run of moves from a start without any
  code. For a tree as mode checking leaves it, it comes to an
  end, so that no part of the compiler meets a node that it
  cannot read.

  Main declarations:
    * `SyntaxTree.Conforms.compile_succeeds`
-/

------ Runs of Compilations

namespace Algol68

/- Nothing was decided or generated. -/
structure Run.IsStart (run : Run) (tree : SyntaxTree) : Prop where
  markings : run.markings = tree.markings
  output : run.context.output = []
  compiled : run.context.compiled = []
  names : run.context.uniqueNames = []

variable (tree : SyntaxTree)

namespace SyntaxTree

open Generator

variable {tree : SyntaxTree} {root : NodeId} {start : Run}

/- Nothing is decided in a tree before its compilation. -/
def IsPending : Prop := ∀ node ∈ tree.nodes.entries, node.marking = .pending

theorem IsPending.not_annotated (hPending : tree.IsPending)
    (hStart : start.markings = tree.markings) {id : NodeId} : ¬ start.Annotated id := by
  rintro ⟨marking, hMarking, hDecided⟩
  unfold Run.marking at hMarking
  rw [hStart] at hMarking
  split at hMarking
  · rename_i found hFound
    rw [markings, Array.getElem?_map, Option.map_eq_some_iff] at hFound
    rcases hFound with ⟨node, hNode, rfl⟩
    cases hMarking
    exact hDecided (hPending node (Array.mem_of_getElem? hNode))
  · cases hMarking

/- A run that a compilation of a tree may end with. -/
def Compiles (run : Run) : Prop :=
  ∃ root, ∃ start : Run, tree.root = some root ∧
    start.IsStart tree ∧ start.Moves tree (Within tree root) run

theorem startRun_isStart (options : Options) : (tree.startRun (.ofOptions options)).IsStart tree :=
  ⟨rfl, rfl, rfl, rfl⟩

theorem isFull_of_isStart (hStart : start.IsStart tree) : start.IsFull tree := by
  unfold Run.IsFull
  rw [hStart.markings]
  exact Array.size_map

theorem isDrawn_of_isStart (hStart : start.IsStart tree) : start.IsDrawn tree := by
  constructor
  · intro func hFun
    rw [hStart.output] at hFun
    cases hFun
  · intro id name hRec
    rw [hStart.compiled] at hRec
    cases hRec

/- The start of a pass at a tier. -/
def tierStart (start : Run) (tier : Nat) : Run :=
  { start with context := { start.context with tier := tier } }

theorem isStart_tierStart (hStart : start.IsStart tree) (tier : Nat) :
    (tierStart start tier).IsStart tree :=
  ⟨hStart.markings, hStart.output, hStart.compiled, hStart.names⟩

variable (hTree : total → tree.Conforms) (hForest : tree.IsForest) (hRoot : tree.root = some root)

include hTree hForest hRoot

theorem visitAtTier_draws (hStart : start.IsStart tree) (tier : Nat) :
    Step.Meets total (atTier tier >>= fun _ => visit tree root) start fun _ run => ∃ tier,
        (tierStart start tier).Draws tree (Within tree root) run := by
  have hNode : total → ∃ node, tree.node root = .ok node := fun hTotal => Store.exists_fetch
      ((hTree hTotal).inRange.root root hRoot)
  apply Step.Meets.modify_bind
  apply (visit_goes hTree hForest hNode _ (isFull_of_isStart (isStart_tierStart hStart tier))).mono
  intro _ run hDraws
  exact ⟨tier, hDraws⟩

/- Whatever the level, a pass is a run of moves at some tier. -/
theorem compilationPass_draws (options : Options) (hStart : start.IsStart tree) :
    Step.Meets total (tree.compilationPass options root) start fun _ run => ∃ tier,
        (tierStart start tier).Draws tree (Within tree root) run := by
  unfold compilationPass
  split
  · exact .of_pure ⟨start.context.tier, .refl start⟩
  · split
    · exact visitAtTier_draws hTree hForest hRoot hStart _
    · apply Step.Meets.get_bind
      exact visitAtTier_draws hTree hForest hRoot hStart _

theorem compilationPass_meets (options : Options) (hStart : start.IsStart tree) :
    Step.Meets total (tree.compilationPass options root) start
      fun _ run => tree.Compiles run ∧ run.IsDrawn tree := by
  apply (compilationPass_draws hTree hForest hRoot options hStart).mono
  rintro _ run ⟨tier, hDraws⟩
  have hTier := isStart_tierStart hStart tier
  exact ⟨⟨root, _, hRoot, hTier, hDraws.moves⟩, hDraws.keeps (isDrawn_of_isStart hTier)⟩

/- A compilation gives what its run ended with. -/
theorem compile_meets (options : Options) :
    (tree.compile options).Meets total fun res => ∃ run, tree.Compiles run ∧
        res = .ok (CompiledSource.ofContext run.context, tree.withMarkings run.markings) := by
  unfold compile
  rw [hRoot]
  apply Walk.Meets.bind (compilationPass_meets hTree hForest
    hRoot options (tree.startRun_isStart options))
  rintro ⟨⟨⟩, run⟩ ⟨hCompiles, -⟩
  exact ⟨run, hCompiles, rfl⟩

omit hTree hForest hRoot

/- The run that a compilation ends with. -/
def CompilesTo (options : Options) (run : Run) : Prop :=
  ∃ root, tree.root = some root ∧ (tree.compilationPass options root).run
        (tree.startRun (.ofOptions options)) =
      .ok ((), run)

theorem CompilesTo.compile_eq (hRun : tree.CompilesTo options run) :
    tree.compile options = .ok (.ok (CompiledSource.ofContext run.context,
        tree.withMarkings run.markings)) := by
  rcases hRun with ⟨root, hRoot, hPass⟩
  simp [compile, hRoot, hPass]

theorem compile_eq_ok :
    tree.compile options = .ok (.ok (source, after)) ↔ ∃ run, tree.CompilesTo options run ∧
        CompiledSource.ofContext run.context = source ∧ tree.withMarkings run.markings = after := by
  constructor
  · intro hCompile
    unfold compile at hCompile
    cases hRoot : tree.root with
    | none => simp [hRoot] at hCompile
    | some root =>
      simp only [hRoot, Walk.bind_eq_ok, Walk.pure_eq_ok,
        Except.ok.injEq, Prod.mk.injEq] at hCompile
      rcases hCompile with ⟨⟨⟨⟩, run⟩, hPass, hEnds⟩
      exact ⟨run, ⟨root, hRoot, hPass⟩, hEnds⟩
  · rintro ⟨run, hRun, rfl, rfl⟩
    exact hRun.compile_eq

variable (hRun : tree.CompilesTo options run)

include hForest hRun

/- The moves that a compilation is made of. -/
theorem CompilesTo.draws :
    ∃ root tier, tree.root = some root ∧ (tierStart (tree.startRun (.ofOptions options)) tier).Draws
        tree (Within tree root) run := by
  rcases hRun with ⟨root, hRoot, hPass⟩
  have hMeets : Step.Meets False (tree.compilationPass options root)
      (tree.startRun (.ofOptions options)) fun _ run => ∃ tier,
        (tierStart (tree.startRun (.ofOptions options)) tier).Draws tree (Within tree root) run :=
    compilationPass_draws False.elim hForest hRoot options (tree.startRun_isStart options)
  rcases hMeets.of_run hPass with ⟨tier, hDraws⟩
  exact ⟨root, tier, hRoot, hDraws⟩

theorem CompilesTo.compiles : tree.Compiles run ∧ run.IsDrawn tree := by
  rcases hRun.draws hForest with ⟨root, tier, hRoot, hDraws⟩
  have hStart := isStart_tierStart (tree.startRun_isStart options) tier
  exact ⟨⟨root, _, hRoot, hStart, hDraws.moves⟩, hDraws.keeps (isDrawn_of_isStart hStart)⟩

theorem CompilesTo.isFull : run.IsFull tree := by
  rcases hRun.draws hForest with ⟨root, tier, -, hDraws⟩
  exact (isFull_of_isStart (isStart_tierStart (tree.startRun_isStart options) tier)).of_draws hDraws

omit hForest hRun

/- The compilation of a conforming tree comes to an end. -/
theorem Conforms.exists_compilesTo (hTree : tree.Conforms) (options : Options) :
    ∃ run, tree.CompilesTo options run := by
  rcases Option.isSome_iff_exists.mp hTree.rooted with ⟨root, hRoot⟩
  have hMeets : Step.Meets True (tree.compilationPass options root)
      (tree.startRun (.ofOptions options)) fun _ run => tree.Compiles run ∧ run.IsDrawn tree :=
    compilationPass_meets (fun _ => hTree) hTree.forest hRoot
      options (tree.startRun_isStart options)
  rcases hMeets.answer with ⟨⟨⟨⟩, run⟩, hPass, -⟩
  exact ⟨run, root, hRoot, hPass⟩

------ Success

/-
  Whatever the options, a conforming tree is compiled without
  a fault, and the result is that of a run of moves.
-/
theorem Conforms.compile_succeeds
    (hTree : tree.Conforms)
    (options : Options) :
    ∃ run, tree.Compiles run ∧
      tree.compile options =
        .ok (.ok (CompiledSource.ofContext run.context, tree.withMarkings run.markings)) := by
  rcases Option.isSome_iff_exists.mp hTree.rooted with
    ⟨root, hRoot⟩
  have hMeets : (tree.compile options).Meets True _ :=
    compile_meets (fun _ => hTree) hTree.forest hRoot options
  rcases hMeets.answer with ⟨result, hResult, hRun⟩
  rcases hRun with ⟨run, hCompiles, rfl⟩
  exact ⟨run, hCompiles, hResult⟩

/- A loop that leaves its last counter in a variable. -/
def lastCounter : SyntaxTree where
  nodes := Figure.nodes [.unit .loopClause ⟨0⟩
      [.tagged .forPart ⟨0⟩, .part .toPart [.number "10"],
        .branch .doPart ⟨0⟩ [.voided (.assign ⟨8⟩ ⟨1⟩ (.ident ⟨1⟩ ⟨0⟩))]]]
  tags := ⟨#[{ name := "i", mode := ⟨1⟩, kind := .identifier },
      { name := "x", mode := ⟨8⟩, kind := .var }]⟩
  root := some ⟨0⟩

theorem compile_succeeds_lastCounter :
    lastCounter.Conforms ∧
      ∃ run, lastCounter.Compiles run ∧
        lastCounter.compile { level := 3, checked := true } =
          .ok (.ok (CompiledSource.ofContext run.context,
            lastCounter.withMarkings run.markings)) := by
  have hTree : lastCounter.Conforms := conforms_of_isOrderly (by decide +kernel)
  exact ⟨hTree, hTree.compile_succeeds _⟩

end SyntaxTree

end Algol68
