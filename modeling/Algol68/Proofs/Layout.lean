import Algol68.Proofs.Paths
import Algol68.Proofs.Repetition

/-
  The order of definitions in generated files.

  Arrays of complex constants come before all functions, each
  defined once, and a function comes before the functions that
  call it. Both hold at any time of a compilation, since code
  is only added at the end.

  Main declarations:
    * `SyntaxTree.IsForest.definitions_precede_uses`
-/

namespace Algol68

------ Arrays in Code

namespace Emission

open Inline Stmt

/- All expressions in code refer to constants found before. -/
abbrev AreReferring (scope : Scope) : List Stmt → Prop :=
  AllOf fun stmt => ∀ operand ∈ stmt.operands, Refers scope operand

theorem Drawn.refers {id : NodeId} (hDrawn : Drawn tree calls id writer)
    (hOther : ∀ node mode, ¬ Generator.IsConstantUnit tree id node mode) :
    Gives scope False writer.execute (AreReferring scope) :=
  (hDrawn.composed (yields_arrays tree scope) (refers_of_none rfl)
    fun node mode hUnit => absurd hUnit (hOther node mode)).mono
      fun _ hBody => hBody.areFit.mono fun _ hStmt => hStmt.2

theorem mem_folded_of_mem_arrays {func : Function} (hBody : AreReferring scope func.body)
    (hArray : array ∈ func.arrays) : array ∈ scope.folded.arrays := by
  rcases List.mem_flatMap.mp hArray with ⟨stmt, hStmt, hMem⟩
  rcases Expr.mem_arraysOf.mp hMem with ⟨op, hOp, hFound⟩
  exact hBody stmt hStmt op hOp array hFound

end Emission

------ Arrays of Contexts

/- The array that a definition defines. -/
def Global.array? : Global → Option String
  | .pair re im => some (Value.pairName re im)
  | .text _ => none

theorem Value.toBits_eq_of_pairName_eq (hName : pairName re im = pairName other rest) :
    re.toBits = other.toBits ∧ im.toBits = rest.toBits := by
  have hKey : (complex re im).key = (complex other rest).key := by
    unfold pairName at hName
    rw [String.append_assoc, String.append_assoc, String.append_assoc, String.append_assoc] at hName
    simpa [key, String.append_assoc] using (String.append_right_inj _).mp hName
  have hSame : (complex re im).SameBits (complex other rest) := sameBits_of_key_eq rfl hKey
  exact hSame

variable {tree : SyntaxTree} {id : NodeId} (ctx : Context)

namespace Context

variable {before : Context}

/- The arrays that are defined, in order. -/
def arrays : List String := ctx.globals.filterMap Global.array?

/-
  All definitions outside functions are arrays with names of their own, taken once, and the
  constants of the function that is being written have theirs.
-/
structure HasArrays (ctx : Context) : Prop where
  pairs : ∀ entry ∈ ctx.globals, ∃ re im, entry = .pair re im
  once : ctx.arrays.Nodup
  taken : ∀ re im, ctx.hasName (Value.pairName re im) = true ↔ Value.pairName re im ∈ ctx.arrays
  folded : ∀ array ∈ ctx.folded.arrays, array ∈ ctx.arrays

/- Arrays are added to those that there were. -/
def Enlarges (before after : Context) : Prop :=
  before.HasArrays → after.HasArrays ∧ before.arrays ⊆ after.arrays

namespace Enlarges

theorem refl : ctx.Enlarges ctx := fun hArrays => ⟨hArrays, fun _ => id⟩

theorem trans (hFirst : before.Enlarges mid) (hSecond : mid.Enlarges after) :
    before.Enlarges after := by
  intro hArrays
  rcases hFirst hArrays with ⟨hMid, hOld⟩
  rcases hSecond hMid with ⟨hAfter, hNew⟩
  exact ⟨hAfter, fun _ hArray => hNew (hOld hArray)⟩

/- Nothing is changed that arrays are about. -/
theorem of_same (hGlobals : after.globals = before.globals)
    (hNames : ∀ re im, after.hasName (Value.pairName re im) = before.hasName (Value.pairName re im))
    (hFolded : after.folded = before.folded ∨ after.folded = []) : before.Enlarges after := by
  intro hArrays
  have hSame : after.arrays = before.arrays := congrArg (List.filterMap Global.array?) hGlobals
  refine ⟨⟨?_, ?_, ?_, ?_⟩, hSame ▸ fun _ => id⟩
  · rw [hGlobals]
    exact hArrays.pairs
  · rw [hSame]
    exact hArrays.once
  · intro re im
    rw [hNames, hSame]
    exact hArrays.taken re im
  · rw [hSame]
    rcases hFolded with hFolded | hFolded
    · rw [hFolded]
      exact hArrays.folded
    · rw [hFolded]
      exact nofun

theorem of_takeName (ctx : Context) (hName : ∀ re im, name ≠ Value.pairName re im) :
    ctx.Enlarges (ctx.takeName name) := by
  refine of_same ?_ ?_ (.inl ?_)
  · rw [takeName_eq]
  · intro re im
    exact hasName_takeName_of_ne (hName re im).symm
  · rw [takeName_eq]

end Enlarges

instance : Std.Refl Enlarges := ⟨Enlarges.refl⟩

instance : IsTrans Context Enlarges := ⟨fun _ _ _ => Enlarges.trans⟩

/- A constant is evaluated, and defined if it is complex. -/
theorem Folds.enlarges {machine : Machine}
    (hFolds : Folds id { before with machine := machine } val after) : before.Enlarges after := by
  cases hFolds with
  | failed | found => exact .of_same rfl (fun _ _ => rfl) (.inl rfl)
  | @defined re im hNew =>
    intro hArrays
    have hAbsent : Value.pairName re im ∉ before.arrays := by
      rw [← hArrays.taken]
      exact Bool.eq_false_iff.mp hNew
    have hAdded : ∀ ctx : Context, ctx.globals = before.globals ++ [.pair re im] →
        ctx.arrays = before.arrays ++ [Value.pairName re im] := by
      intro ctx hGlobals
      simp [arrays, hGlobals, Global.array?]
    refine ⟨⟨?_, ?_, ?_, ?_⟩, ?_⟩
    · intro entry hEntry
      rcases List.mem_append.mp hEntry with hOld | hLast
      · exact hArrays.pairs entry hOld
      · exact ⟨re, im, List.mem_singleton.mp hLast⟩
    · rw [hAdded _ rfl]
      exact List.nodup_append.mpr ⟨hArrays.once, by simp, by
        rintro array hArray _ hLast rfl
        rw [List.mem_singleton.mp hLast] at hArray
        exact hAbsent hArray⟩
    · intro other rest
      rw [hAdded _ rfl, List.mem_append, List.mem_singleton, ← hArrays.taken other rest]
      simp [hasName, or_comm]
    · intro array hArray
      rw [hAdded _ rfl]
      exact List.mem_append_left _ (hArrays.folded array hArray)
    · intro array hArray
      rw [hAdded _ rfl]
      exact List.mem_append_left _ hArray

/- A constant that is kept has an array if it is complex. -/
theorem declareConstant_enlarges (tree : SyntaxTree) (id : NodeId) :
    Steps Enlarges (Inline.declareConstant tree id) := by
  apply declareConstant_steps
  intro ctx next _ _ _ hFolds hArrays
  rcases (hFolds.enlarges : ctx.Enlarges next) hArrays with ⟨hNext, hOld⟩
  refine ⟨⟨hNext.pairs, hNext.once, hNext.taken, ?_⟩, hOld⟩
  intro array hArray
  simp only [Folded.arrays, List.filterMap_cons] at hArray
  split at hArray
  · exact hNext.folded array hArray
  · rename_i found hFound
    rcases List.mem_cons.mp hArray with rfl | hRest
    · rcases Option.bind_eq_some_iff.mp hFound with ⟨val, rfl, hComplex⟩
      cases val with
      | complex re im =>
        cases hComplex
        exact (hNext.taken re im).mp (hFolds.taken rfl)
      | _ => cases hComplex
    · exact hNext.folded array hRest

/- Drafting code adds to the arrays. -/
theorem Changes.enlarges (hChanges : before.Changes tree after) : before.Enlarges after := by
  induction hChanges with
  | refl => exact .refl before
  | tail _ hChange ih =>
    apply ih.trans
    cases hChange with
    | declare | book => exact .of_same rfl (fun _ _ => rfl) (.inl rfl)
    | constant hRun => exact (declareConstant_enlarges tree _ _).of_run hRun
    | fold hRun =>
      rcases (fold_meets False.elim False.elim).of_run hRun with ⟨_, machine, -, -, hFolds⟩
      exact hFolds.enlarges
    | begin _ => exact .of_same rfl (fun _ _ => rfl) (.inr rfl)

/- So does writing a function, whose constants are defined. -/
theorem Completes.enlarges (hWriter : Emission.Planned tree writer)
    (hCompletes : before.Completes writer function after) (hArrays : before.HasArrays) :
    after.HasArrays ∧ before.arrays ⊆ after.arrays ∧ ∃ declared next,
        writer.execute.run declared = .ok (function.body, next) ∧
          ∀ array ∈ declared.folded.arrays, array ∈ after.arrays := by
  rcases hCompletes with ⟨declared, bookings, hDeclare, -, hBody, -, rfl⟩
  have hChanges : before.beginFunction.Changes tree declared :=
    (hWriter.changes before.beginFunction).of_run hDeclare
  have hEnlarges : before.Enlarges declared := Changes.enlarges (.head (.begin before) hChanges)
  rcases hEnlarges hArrays with ⟨hDecl, hOld⟩
  exact ⟨⟨hDecl.pairs, hDecl.once, hDecl.taken,
    hDecl.folded⟩, hOld, _, _, hBody, hDecl.folded⟩

end Context

------ Layouts

/- A function comes after all functions that it calls. -/
def Fragment.IsOrdered (output : List Fragment) : Prop :=
  ∀ early function late, output = early ++ .function function :: late → ∀ name site,
        .call name site ∈ Stmt.withinOf function.body → name ∈ functionNames early

/- One function more comes last. -/
theorem Fragment.IsOrdered.append (hOrdered : IsOrdered output) {function : Function}
    (hCalls : ∀ name site, .call name site ∈ Stmt.withinOf function.body →
        name ∈ functionNames output) : IsOrdered (output ++ [.function function]) := by
  intro early other late hSplit
  rcases List.eq_nil_or_concat late with rfl | ⟨rest, last, rfl⟩
  · rcases List.append_inj' hSplit rfl with ⟨rfl, hLast⟩
    cases hLast
    exact hCalls
  · rw [List.concat_eq_append, ← List.cons_append, ← List.append_assoc] at hSplit
    exact hOrdered early other rest (List.append_inj' hSplit rfl).1

/-
  The code of a context consists of functions in an order that
  their calls allow, with arrays for all their constants.
-/
structure Context.IsLaidOut (ctx : Context) : Prop where
  arrays : ctx.HasArrays
  functions : ∀ fragment ∈ ctx.output, ∃ function, fragment = .function function
  ordered : Fragment.IsOrdered ctx.output
  constants : ∀ function, Fragment.function function ∈ ctx.output →
      ∀ array ∈ function.arrays, array ∈ ctx.arrays

namespace Run

open Generator Emission Context

variable {run : Run}
variable {ctx after : Context} {function : Function}

/- The code is laid out, and what is called is recorded. -/
structure IsLaidOut (run : Run) : Prop
    extends run.context.IsLaidOut where
  recorded : ∀ id name, run.Calls id name → (id, name) ∈ run.context.compiled

/- Nothing is written and nothing is recorded. -/
theorem IsLaidOut.quiet (hLaidOut : run.IsLaidOut) (hQuiet : run.context.Quiet ctx)
    (hEnlarges : run.context.Enlarges ctx) : IsLaidOut { run with context := ctx } := by
  rcases hEnlarges hLaidOut.arrays with ⟨hArrays, hOld⟩
  refine ⟨⟨hArrays, ?_, ?_, ?_⟩, ?_⟩
  · rw [hQuiet.output]
    exact hLaidOut.functions
  · rw [hQuiet.output]
    exact hLaidOut.ordered
  · intro function hFun array hArray
    rw [hQuiet.output] at hFun
    exact hOld (hLaidOut.constants function hFun array hArray)
  · intro id name hCalls
    rw [hQuiet.compiled]
    exact hLaidOut.recorded id name hCalls

/- A node that is refused has no function. -/
theorem IsLaidOut.decline (hLaidOut : run.IsLaidOut) (hPending : run.marking id = .ok .pending) :
    (run.mark id .notGenerated).IsLaidOut := by
  refine ⟨hLaidOut.toIsLaidOut, ?_⟩
  intro other name hCalls
  by_cases hSame : other = id
  · subst hSame
    rw [Calls, marking_mark hPending] at hCalls
    cases hCalls
  · rw [Calls, marking_mark_of_ne hSame] at hCalls
    exact hLaidOut.recorded other name hCalls

theorem IsLaidOut.mem_functionNames (hLaidOut : run.IsLaidOut) (hRec : run.IsRecorded tree)
    (hCalls : run.Calls id name) : name ∈ Fragment.functionNames run.context.output :=
  hRec.ledger.mem_names_iff.mpr ⟨id, hLaidOut.recorded id name hCalls⟩

theorem IsLaidOut.add (hLaidOut : run.IsLaidOut) (hRec : run.IsRecorded tree)
    (hOf : run.HasFunction tree id function)
    (hOut : after.output = run.context.output ++ [.function function])
    (hArrays : after.HasArrays) (hOld : run.context.arrays ⊆ after.arrays)
    (hConsts : ∀ array ∈ function.arrays, array ∈ after.arrays) : after.IsLaidOut := by
  refine ⟨hArrays, ?_, ?_, ?_⟩
  · rw [hOut]
    intro fragment hFragment
    rcases List.mem_append.mp hFragment with hEarlier | hLast
    · exact hLaidOut.functions fragment hEarlier
    · exact ⟨function, List.mem_singleton.mp hLast⟩
  · rw [hOut]
    apply hLaidOut.ordered.append
    intro name site hCall
    have hLeads := SyntaxTree.areLeading_of_hasFunction hOf _ hCall
    exact hLaidOut.mem_functionNames hRec hLeads.2
  · intro other hOther
    rw [hOut] at hOther
    rcases List.mem_append.mp hOther with hEarlier | hLast
    · intro array hArray
      exact hOld (hLaidOut.constants other hEarlier array hArray)
    · rcases List.mem_singleton.mp hLast with ⟨⟩
      exact hConsts

/- The function of a constant refers to its array at most. -/
theorem array_of_constant {value : Value}
    (hPush : Inline.pushOf tree mode (.constant value) = .ok push) (hBody : function.body = [push])
    (hArray : array ∈ function.arrays) :
    ∃ re im, value = .complex re im ∧ array = Value.pairName re im := by
  rcases pushOf_eq hPush with ⟨form, rfl⟩
  have hMem : array ∈ value.array?.toList := by
    simpa [Function.arrays, hBody, Stmt.within, Stmt.operands,
      Expr.arraysOf, Expr.arrays] using hArray
  cases value with
  | complex re im => exact ⟨re, im, rfl, List.mem_singleton.mp hMem⟩
  | _ => cases hMem

theorem hasConstantName_of_outcome (hOutcome : Outcome tree id name before after)
    (hUnit : IsConstantUnit tree id node mode) : HasConstantName tree id name := by
  cases hOutcome with
  | own _ _ hOther _ _ _ _ => exact absurd hUnit (hOther _ _)
  | first hUnit hVal hName | shared hUnit hVal hName => exact ⟨_, _, _, hUnit, hVal, hName⟩

/- Whatever code is added for a node, it is laid out. -/
theorem IsLaidOut.of_addition (hLaidOut : run.IsLaidOut) (hRec : run.IsRecorded tree)
    (hOutcome : Outcome tree id name run.context ctx)
    (hAddition : Addition tree id name run ctx) : ctx.IsLaidOut := by
  cases hAddition with
  | none _ hSame =>
    rw [hSame]
    exact hLaidOut.toIsLaidOut
  | constant hUnit hArray hPush hName hCompletes =>
    have hNot := ne_pairName (hasConstantName_of_outcome hOutcome hUnit)
    rcases Enlarges.of_takeName run.context hNot hLaidOut.arrays with ⟨hTaken, hFirst⟩
    rcases hCompletes.enlarges (.statements : Planned tree _) hTaken with
      ⟨hArrays, hSecond, declared, next, hBody, -⟩
    have hOut := hCompletes.output_eq (.statements : Planned tree _)
    rw [takeName_eq] at hOut
    refine hLaidOut.add hRec ⟨_, .constant hUnit hPush, hCompletes.issued⟩ hOut
      hArrays (fun _ hOld => hSecond (hFirst hOld)) ?_
    intro array hMem
    have hOne := (Prod.mk.inj (Except.ok.inj hBody)).1
    rcases array_of_constant hPush hOne.symm hMem with ⟨re, im, rfl, rfl⟩
    exact hSecond (hFirst ((hLaidOut.arrays.taken re im).mp (hArray re im rfl)))
  | drawn hOther hDrawn hName hCompletes =>
    rcases hCompletes.enlarges hDrawn.planned hLaidOut.arrays with
      ⟨hArrays, hOld, declared, next, hBody, hFolded⟩
    have hReferring := (hDrawn.refers hOther).of_run hBody
    exact hLaidOut.add hRec ⟨_, hDrawn, hCompletes.issued⟩
      (hCompletes.output_eq hDrawn.planned) hArrays hOld fun array hArray => hFolded array
        (mem_folded_of_mem_arrays hReferring.1 hArray)

theorem IsLaidOut.compile (hLaidOut : run.IsLaidOut) (hRec : run.IsRecorded tree)
    (hPending : run.marking id = .ok .pending) (hOutcome : Outcome tree id name run.context ctx)
    (hAddition : Addition tree id name run ctx) : (run.compiledAs ctx id name).IsLaidOut := by
  have hCode := hLaidOut.of_addition hRec hOutcome hAddition
  refine ⟨⟨⟨hCode.arrays.pairs, hCode.arrays.once,
    hCode.arrays.taken, hCode.arrays.folded⟩, hCode.functions, hCode.ordered, hCode.constants⟩, ?_⟩
  intro other otherName hCalls
  have hCompiled : (run.compiledAs ctx id name).context.compiled =
        run.context.compiled ++ [(id, name)] := by
    simp [compiledAs, mark, recordCompiled, hOutcome.compiled_eq]
  rw [hCompiled]
  by_cases hSame : other = id
  · subst hSame
    have hMarked : (run.compiledAs ctx other name).Calls other name := marking_mark hPending
    rw [Calls, hMarked] at hCalls
    cases hCalls
    simp
  · apply List.mem_append_left
    apply hLaidOut.recorded
    rw [Calls, compiledAs, marking_mark_of_ne hSame] at hCalls
    exact hCalls

/- Code stays laid out as it is added. -/
theorem Draws.isLaidOut (hDraws : run.Draws tree inside next) (hRec : run.IsRecorded tree)
    (hLaidOut : run.IsLaidOut) : next.IsLaidOut := by
  induction hDraws with
  | quiet hQuiet hChanges => exact hLaidOut.quiet hQuiet (Changes.enlarges hChanges)
  | decline _ hPending => exact hLaidOut.decline hPending
  | compile _ hPending hOutcome hAddition =>
    exact hLaidOut.compile hRec hPending hOutcome hAddition
  | trans hFirst _ ihFirst ihSecond =>
    exact ihSecond (hFirst.moves.isRecorded hRec) (ihFirst hRec hLaidOut)

end Run

------ Files

namespace SyntaxTree

open Generator Run

/- A compilation starts without code. -/
theorem IsPending.isLaidOut (hPending : tree.IsPending) (options : Options) (tier : Nat) :
    (tierStart (tree.startRun (.ofOptions options)) tier).IsLaidOut := by
  refine ⟨⟨⟨nofun, List.nodup_nil, ?_, nofun⟩, nofun, ?_, nofun⟩, ?_⟩
  · intro re im
    exact iff_of_false nofun nofun
  · intro early function late hSplit
    exact absurd hSplit.symm (List.append_ne_nil_of_right_ne_nil _ nofun)
  · intro id name hCalls
    have hNone : ¬ (tierStart (tree.startRun (.ofOptions options)) tier).Annotated id :=
      hPending.not_annotated rfl
    exact absurd ⟨_, hCalls, nofun⟩ hNone

theorem CompilesTo.isLaidOut (hForest : tree.IsForest) (hPending : tree.IsPending)
    (hRun : tree.CompilesTo options run) : run.IsRecorded tree ∧ run.IsLaidOut := by
  have hRec := (hRun.compiles hForest).1.isRecorded
  rcases hRun.draws hForest with ⟨root, tier, hRoot, hDraws⟩
  have hStart : tree.Compiles (tierStart (tree.startRun (.ofOptions options)) tier) :=
    ⟨root, _, hRoot, isStart_tierStart (tree.startRun_isStart options) tier, .refl _⟩
  exact ⟨hRec, hDraws.isLaidOut hStart.isRecorded (hPending.isLaidOut options tier)⟩

theorem CompilesTo.marked_iff (hForest : tree.IsForest) (hRun : tree.CompilesTo options run)
    (id : NodeId) (name : String) :
    (∃ node, (tree.withMarkings run.markings).node id = .ok node ∧
      node.marking = .compiled name) ↔ run.Calls id name := by
  exact exists_marked_iff (markings_withMarkings (hRun.isFull hForest)).symm

/-
  The layout of the file that a compilation gives. The recorded nodes are distinct, and they are
  the ones that are marked. A function comes after the functions that it calls, and after the
  arrays that it refers to; each is defined once, and the name of an array tells the bits of its
  number.
-/
theorem IsForest.definitions_precede_uses
    (hForest : tree.IsForest)
    (hPending : tree.IsPending)
    {source : CompiledSource}
    {after : SyntaxTree}
    (hCompile : tree.compile options = .ok (.ok (source, after))) :
    (source.compiled.map Prod.fst).Nodup ∧
      (∀ id name,
        (∃ node, after.node id = .ok node ∧
          node.marking = .compiled name) ↔ (id, name) ∈ source.compiled) ∧
      ∃ run,
        tree.CompilesTo options run ∧
        source = CompiledSource.ofContext run.context ∧
        after = tree.withMarkings run.markings ∧
        (∀ early fragment late,
          run.context.output = early ++ fragment :: late →
            ∃ function, fragment = .function function ∧
              (∀ name site,
                .call name site ∈ Stmt.withinOf function.body →
                  ∃ callee, .function callee ∈ early ∧ callee.name = name) ∧
              ∀ array ∈ function.arrays, run.context.arrays.count array = 1) ∧
        (∀ entry ∈ run.context.globals, ∃ re im,
          entry = .pair re im ∧ run.context.arrays.count (Value.pairName re im) = 1) ∧
        ∀ re im other rest,
          Value.pairName re im = Value.pairName other rest →
            re.toBits = other.toBits ∧ im.toBits = rest.toBits := by
  rcases compile_eq_ok.mp hCompile with ⟨run, hRun, rfl, rfl⟩
  rcases hRun.isLaidOut hForest hPending with
    ⟨hRecorded, hLaidOut⟩
  have hOnce {array : String} (hArray : array ∈ run.context.arrays) :
      run.context.arrays.count array = 1 :=
    List.count_eq_one_of_mem hLaidOut.arrays.once hArray
  refine ⟨hRecorded.nodes, ?_, run, hRun, rfl, rfl, ?_, ?_, ?_⟩
  · intro id name
    rw [hRun.marked_iff hForest]
    exact ⟨hLaidOut.recorded id name, hRecorded.calls id name⟩
  · intro early fragment late hSplit
    have hMember : fragment ∈ run.context.output := by
      rw [hSplit]
      simp
    rcases hLaidOut.functions fragment hMember with
      ⟨function, rfl⟩
    refine ⟨function, rfl, ?_, ?_⟩
    · intro name site hCall
      exact Fragment.mem_functionNames.mp
        (hLaidOut.ordered early function late hSplit name site hCall)
    · intro array hArray
      exact hOnce (hLaidOut.constants function hMember array hArray)
  · intro entry hEntry
    rcases hLaidOut.arrays.pairs entry hEntry with ⟨re, im, rfl⟩
    exact ⟨re, im, rfl, hOnce (List.mem_filterMap.mpr ⟨_, hEntry, rfl⟩)⟩
  · intro re im other rest hName
    exact Value.toBits_eq_of_pairName_eq hName

/- A loop in a branch that assigns a complex constant. -/
def complexLoop : SyntaxTree where
  nodes := Figure.nodes [.unit .conditionalClause ⟨0⟩
      [.ifPart (.ident ⟨3⟩ ⟨0⟩), .branch .thenPart ⟨0⟩
        [.unit .loopClause ⟨0⟩ [.part .toPart [.number "3"], .branch .doPart ⟨0⟩
            [.voided (.assign ⟨13⟩ ⟨1⟩ (.unit .widening ⟨7⟩ [.denoter ⟨2⟩ "1.5"]))]]]]]
  tags := ⟨#[{ name := "b", mode := ⟨3⟩, kind := .identifier },
      { name := "z", mode := ⟨13⟩, kind := .var }]⟩
  root := some ⟨0⟩

theorem definitions_precede_uses_complexLoop :
    complexLoop.IsForest ∧ complexLoop.IsPending ∧
      ∃ source after,
        complexLoop.compile { level := 3 } = .ok (.ok (source, after)) ∧
          (source.compiled.map Prod.fst).Nodup ∧
          ∃ run,
            complexLoop.CompilesTo { level := 3 } run ∧
            source = CompiledSource.ofContext run.context ∧
            ∀ early fragment late,
              run.context.output = early ++ fragment :: late →
                ∃ function, fragment = .function function ∧
                  (∀ name site,
                    .call name site ∈ Stmt.withinOf function.body →
                      ∃ callee, .function callee ∈ early ∧ callee.name = name) ∧
                  ∀ array ∈ function.arrays, run.context.arrays.count array = 1 := by
  have hTree : complexLoop.Conforms := conforms_of_isOrderly (by decide +kernel)
  have hPending : complexLoop.IsPending := by
    unfold IsPending
    decide +kernel
  rcases hTree.exists_compilesTo { level := 3 } with ⟨_, hEnds⟩
  rcases hTree.forest.definitions_precede_uses hPending hEnds.compile_eq with
    ⟨hOnce, -, run, hRun, hSource, -, hOrder, -⟩
  exact ⟨hTree.forest, hPending, _, _, hEnds.compile_eq, hOnce, run, hRun, hSource, hOrder⟩

end SyntaxTree

end Algol68
