import Algol68.Inline.Parts
import Algol68.Machine.Evaluation
import Algol68.Proofs.Builtins
import Algol68.Proofs.Figures
import Algol68.Proofs.Judgement

/-
  Evaluation of constant units.

  A unit that the classifier takes for a constant has an
  evaluation that ends. If operators fit their operands, it
  puts one value on the stack or fails, whatever lies there.
  On a well-moded tree the value is of the category of the
  unit's mode, and an error lies in the values: a denotation
  that denotes nothing, an overflow, a division by zero or an
  argument out of range.

  Main declarations:
    * `SyntaxTree.WellModed.evaluate_sound`
-/

------ Well-Moded Trees

namespace Algol68

variable {tree : SyntaxTree} {id : NodeId}

namespace SyntaxTree

/- The mode of a node has values of a category. -/
def HasPrim (tree : SyntaxTree) (id : NodeId) (prim : Prim) : Prop :=
  ∃ mode, tree.mode? id = .ok (some mode) ∧ tree.modes.prim? mode = .ok (some prim)

/-
  A node applies a builtin to operands: a formula, a call, or
  a name that stands for a constant builtin. The name of any
  other one is that of a procedure and applies nothing.
-/
inductive Applies (tree : SyntaxTree) (id : NodeId) : Builtin → List NodeId → Prop
  | operation {builtin : Builtin} {operands : List NodeId} (hOperands : Inline.operandsOf tree id =
        .ok (builtin, operands)) :
      Applies tree id builtin operands
  | name {builtin : Builtin} (hAttr : tree.attr id = .ok .identifier)
      (hBuiltin : tree.builtin? id = .ok (some builtin)) (hArity : builtin.arity = 0)
      (hConst : builtin.isConstant = true) :
      Applies tree id builtin []

/-
  A tree whose nodes have the modes that their parts give
  them, as far as constants are made of them.
-/
structure WellModed (tree : SyntaxTree) : Prop where
  shaped : tree.IsShaped
  applied : ∀ id builtin operands, tree.Applies id builtin operands →
      List.Forall₂ tree.HasPrim operands builtin.signature.params ∧
        tree.HasPrim id builtin.signature.result
  enclosed : ∀ id attr kids last, tree.attr id = .ok attr → attr = .cast ∨ attr = .closedClause ∨
        attr = .serialClause → tree.children id = .ok kids → kids.getLast? = some last →
            tree.mode? last = tree.mode? id
  displayed : ∀ id, tree.attr id = .ok .collateralClause → tree.HasPrim id .complex →
      ∃ re im, tree.children id = .ok [re, im] ∧ tree.HasPrim re .real ∧ tree.HasPrim im .real
  widened : ∀ id operand, tree.attr id = .ok .widening → tree.children id = .ok [operand] →
      tree.HasPrim operand .int ∧ tree.HasPrim id .real ∨
        tree.HasPrim operand .real ∧ tree.HasPrim id .complex
  named : ∀ id tag, tree.attr id = .ok .identifier → tree.tag? id = .ok (some tag) →
      tree.mode? id = .ok (some tag.mode) ∧ ∀ value ∈ tag.value,
          tree.mode? value = .ok (some tag.mode)

theorem HasPrim.of_mode?_eq (hPrim : tree.HasPrim other prim)
    (hMode : tree.mode? other = tree.mode? id) : tree.HasPrim id prim := by
  rcases hPrim with ⟨mode, hOther, hPrim⟩
  exact ⟨mode, hMode ▸ hOther, hPrim⟩

end SyntaxTree

------ How a Run of the Machine Ends

/- The errors that lie in the values of a unit. -/
def RuntimeError.IsOfValues : RuntimeError → Prop
  | .invalidDenoter _ _ => True
  | .builtin _ _ source => source.failure ≠ .invalidOperands
  | _ => False

variable {table : ModeTable}

namespace Machine

/- What a run puts on the stack, or why it fails. -/
abbrev Outcome := Except RuntimeError (List Value)

/- A run that does not fail puts a number of values there. -/
def Outcome.Counts (count : Nat) (outcome : Outcome) : Prop :=
  ∀ values, outcome = .ok values → values.length = count

/- The values are of some categories, or the error lies in them. -/
def Outcome.Fits (prims : List Prim) : Outcome → Prop
  | .ok values => values.map Value.prim = prims
  | .error error => error.IsOfValues

theorem Outcome.Counts.one (val : Value) : Outcome.Counts 1 (.ok [val]) := by
  rintro _ ⟨⟩
  rfl

theorem Outcome.Counts.error (error : RuntimeError) : Outcome.Counts count (.error error) := by
  rintro _ ⟨⟩

/- The machine with values on top of its stack, the last first. -/
def pushed (machine : Machine) (values : List Value) : Machine :=
  { machine with stack := values.reverse ++ machine.stack }

theorem pushed_pushed (machine : Machine) (first second : List Value) :
    (machine.pushed first).pushed second = machine.pushed (first ++ second) := by
  simp [pushed]

variable {α β : Type}

/- A run meets no fault. -/
def Halts (run : Run Unit) : Prop := ∀ machine, ∃ result, run.run.run machine = .ok result

/-
  A run takes values from the top of the stack and leaves its own there. If it fails, what lay
  below is still there. It does so whatever lies below, and leaves the seed alone.
-/
def Turns (values : List Value) (run : Run Unit) : Outcome → Prop
  | .ok results =>
    ∀ machine : Machine, run.run.run (machine.pushed values) = .ok (.ok (), machine.pushed results)
  | .error error => ∀ machine : Machine, ∃ left,
      run.run.run (machine.pushed values) = .ok (.error error, machine.pushed left)

theorem Halts.bind (hFirst : Halts first) (hSecond : Halts second) :
    Halts (first >>= fun _ => second) := by
  intro machine
  rcases hFirst machine with ⟨⟨_ | _, next⟩, hRun⟩
  · exact ⟨_, by rw [ExceptT.run_bind, StateT.run_bind, hRun]; rfl⟩
  · rcases hSecond next with ⟨res, hRes⟩
    refine ⟨res, ?_⟩
    rw [ExceptT.run_bind, StateT.run_bind, hRun]
    exact hRes

/- The second run takes what the first one leaves. -/
theorem Turns.bind (hFirst : Turns vals first outcome) (rest : List Value → Outcome)
    (hSecond : ∀ results, outcome = .ok results → Turns results second (rest results)) :
    Turns vals (first >>= fun _ => second) (outcome >>= rest) := by
  cases outcome with
  | error error =>
    intro machine
    rcases hFirst machine with ⟨left, hRun⟩
    refine ⟨left, ?_⟩
    rw [ExceptT.run_bind, StateT.run_bind, hRun]
    rfl
  | ok results =>
    have hRun : ∀ machine : Machine, (first >>= fun _ => second).run.run (machine.pushed vals) =
        second.run.run (machine.pushed results) := by
      intro machine
      rw [ExceptT.run_bind, StateT.run_bind, hFirst machine]
      rfl
    have hNext := hSecond results rfl
    change Turns vals _ (rest results)
    cases hRest : rest results with
    | ok last =>
      rw [hRest] at hNext
      exact fun machine => (hRun machine).trans (hNext machine)
    | error error =>
      rw [hRest] at hNext
      intro machine
      rw [hRun]
      exact hNext machine

/- What a run leaves alone may be any values. -/
theorem Turns.above (hRun : Turns [] run outcome) (vals : List Value) :
    Turns vals run (outcome.map (vals ++ ·)) := by
  cases outcome with
  | ok results =>
    intro machine
    rw [← pushed_pushed]
    exact hRun (machine.pushed vals)
  | error error =>
    intro machine
    rcases hRun (machine.pushed vals) with ⟨left, hLeft⟩
    exact ⟨vals ++ left, (pushed_pushed machine vals left) ▸ hLeft⟩

theorem reading_bind (hWalk : walk = .ok value) (rest : α → Run β) :
    reading walk >>= rest = rest value := by
  subst hWalk
  rfl

theorem needing_bind (hWalk : walk = .ok (some value)) (rest : α → Run β) :
    needing node walk >>= rest = rest value := by
  subst hWalk
  rfl

------ Operations of the Machine

variable {builtin : Builtin}

theorem halts_push : Halts (push val) := fun _ => ⟨_, rfl⟩

theorem halts_throw : Halts (throw error) := fun _ => ⟨_, rfl⟩

theorem halts_pop (hRest : ∀ val, Halts (rest val)) : Halts (pop node >>= rest) := by
  rintro ⟨_ | ⟨top, below⟩, seed⟩
  · exact ⟨_, rfl⟩
  · exact hRest top ⟨below, seed⟩

theorem run_get_bind (rest : Machine → Run α) (machine : Machine) :
    (get >>= rest).run.run machine = (rest machine).run.run machine :=
  rfl

theorem run_set_bind (next : Machine) (rest : PUnit → Run α) (machine : Machine) :
    (set next >>= rest).run.run machine = (rest ⟨⟩).run.run next :=
  rfl

theorem ne_random (hConst : builtin.isConstant = true) : builtin ≠ .random := by
  rintro rfl
  simp [Builtin.isConstant] at hConst

theorem halts_apply (hConst : builtin.isConstant = true) : Halts (apply builtin node line) := by
  intro machine
  rw [apply, if_neg (ne_random hConst), run_get_bind]
  by_cases hShort : machine.stack.length < builtin.arity
  · rw [if_pos hShort]
    exact ⟨_, rfl⟩
  · rw [if_neg hShort, run_set_bind]
    cases builtin.apply (machine.stack.take builtin.arity).reverse <;> exact ⟨_, rfl⟩

/- A builtin turns its operands into its result. -/
theorem turns_apply (hConst : builtin.isConstant = true) (hArity : vals.length = builtin.arity) :
    ∃ outcome, Turns vals (apply builtin node line) outcome ∧ outcome.Counts 1 ∧
      (vals.map Value.prim = builtin.signature.params →
        outcome.Fits [builtin.signature.result]) := by
  have hLen : vals.reverse.length = builtin.arity := by simpa using hArity
  have hRun : ∀ (machine : Machine) (res : Except BuiltinError Value), builtin.apply vals = res →
      (apply builtin node line).run.run (machine.pushed vals) =
        .ok ((res.map fun _ => ()).mapError (.builtin node line),
          machine.pushed res.toOption.toList) := by
    intro machine res hRes
    rw [apply, if_neg (ne_random hConst), run_get_bind]
    rw [if_neg (by simp [pushed, hArity]), run_set_bind]
    simp only [pushed, ← hLen, List.drop_left, List.take_left, List.reverse_reverse, hRes]
    cases res <;> rfl
  cases hApply : builtin.apply vals with
  | ok val =>
    refine ⟨.ok [val], fun machine => hRun machine _ hApply, .one val, ?_⟩
    intro hPrims
    rcases Builtin.apply_fits hConst hPrims with ⟨other, hOther, hPrim⟩ | ⟨error, hError, -⟩
    · rw [hApply, Except.ok.injEq] at hOther
      rw [hOther, ← hPrim]
      rfl
    · simp [hApply] at hError
  | error source =>
    refine ⟨.error (.builtin node line source), ?_, .error _, ?_⟩
    · exact fun machine => ⟨[], hRun machine _ hApply⟩
    · intro hPrims
      rcases Builtin.apply_fits hConst hPrims with ⟨other, hOther, -⟩ | ⟨error, hError, hFailure⟩
      · simp [hApply] at hOther
      · rw [hApply, Except.error.injEq] at hError
        rw [hError]
        exact hFailure

theorem halts_widen : Halts (widen target node) := by
  refine halts_pop fun val => ?_
  split
  · exact halts_push
  · exact halts_throw

/- A value is widened to one of the category asked for. -/
theorem turns_widen (val : Value) :
    ∃ outcome, Turns [val] (widen target node) outcome ∧ outcome.Counts 1 ∧
      (val.prim = .int ∧ target = .real ∨ val.prim = .real ∧ target = .complex →
        outcome.Fits [target]) := by
  have hRun : ∀ (machine : Machine) (res : Option Value), widened? val target = res →
      (widen target node).run.run (machine.pushed [val]) =
        .ok (res.elim (.error (.invalidWidening node val.prim)) fun _ => .ok (),
          machine.pushed res.toList) := by
    intro machine res hRes
    subst hRes
    cases val <;> cases target <;> rfl
  cases hWidened : widened? val target with
  | some res =>
    refine ⟨.ok [res], fun machine => hRun machine _ hWidened, .one res, ?_⟩
    intro _
    cases val <;> cases target <;> cases hWidened <;> rfl
  | none =>
    refine ⟨.error (.invalidWidening node val.prim), ?_, .error _, ?_⟩
    · exact fun machine => ⟨[], hRun machine _ hWidened⟩
    · rintro (⟨hPrim, rfl⟩ | ⟨hPrim, rfl⟩) <;> cases val <;> simp_all [widened?, Value.prim]

theorem halts_pairReals : Halts (pairReals node) := by
  refine halts_pop fun im => halts_pop fun re => ?_
  split
  · exact halts_push
  · exact halts_throw

/- Two real numbers make a complex one. -/
theorem turns_pairReals (re im : Value) :
    ∃ outcome, Turns [re, im] (pairReals node) outcome ∧ outcome.Counts 1 ∧
      ([re, im].map Value.prim = [.real, .real] → outcome.Fits [.complex]) := by
  by_cases hReals : ∃ x y, re = .real x ∧ im = .real y
  · rcases hReals with ⟨x, y, rfl, rfl⟩
    exact ⟨.ok [.complex x y], fun _ => rfl, .one _, fun _ => rfl⟩
  · refine ⟨.error (.notEvaluable node), ?_, .error _, ?_⟩
    · intro machine
      refine ⟨[], ?_⟩
      cases re <;> cases im <;> first | rfl | exact absurd ⟨_, _, rfl, rfl⟩ hReals
    · cases re <;> cases im <;> simp_all [Value.prim]

------ Denotations

private theorem int?_prim (hVal : Denoter.int? chars = some val) : val.prim = .int := by
  simp only [Denoter.int?, Option.bind_eq_bind,
    Option.bind_eq_some_iff, Option.ite_none_right_eq_some, Option.some.injEq] at hVal
  rcases hVal with ⟨n, -, -, rfl⟩
  rfl

private theorem bool?_prim (hVal : Denoter.bool? chars = some val) : val.prim = .bool := by
  unfold Denoter.bool? at hVal
  split at hVal
  · cases hVal
    rfl
  · split at hVal
    · cases hVal
      rfl
    · simp at hVal

private theorem char?_prim (hVal : Denoter.char? chars = some val) : val.prim = .char := by
  unfold Denoter.char? at hVal
  split at hVal
  · simp only [Option.ite_none_right_eq_some, Option.some.injEq] at hVal
    rcases hVal with ⟨-, rfl⟩
    rfl
  · simp at hVal

private theorem bits?_prim (hVal : Denoter.bits? chars = some val) : val.prim = .bits := by
  simp only [Denoter.bits?, Option.bind_eq_bind,
    Option.bind_eq_some_iff, Option.ite_none_right_eq_some, Option.some.injEq] at hVal
  rcases hVal with ⟨radix, -, -, word, -, -, rfl⟩
  rfl

theorem value?_prim (hKind : table.kind mode = .ok kind)
    (hVal : Denoter.value? kind chars = some val) : table.prim? mode = .ok (some val.prim) := by
  cases kind with
  | int => simp [ModeTable.prim?, hKind, int?_prim hVal]
  | real =>
    simp only [Denoter.value?, Option.map_eq_some_iff] at hVal
    rcases hVal with ⟨x, -, rfl⟩
    simp [ModeTable.prim?, hKind, Value.prim]
  | bool => simp [ModeTable.prim?, hKind, bool?_prim hVal]
  | char => simp [ModeTable.prim?, hKind, char?_prim hVal]
  | bits => simp [ModeTable.prim?, hKind, bits?_prim hVal]
  | _ => simp [Denoter.value?] at hVal

end Machine

------ Evaluation of Units

namespace Machine

/-
  A run puts the values of some units on the stack. It ends in any case. Where operators fit their
  operands it settles which values these are, and on a typed tree they are of the units'
  categories.
-/
structure Evaluates (tree : SyntaxTree) (fit typed : Prop) (ids : List NodeId)
    (run : Run Unit) : Prop where
  halts : Halts run
  settles : fit → ∃ outcome, Turns [] run outcome ∧ outcome.Counts ids.length ∧
      (typed → ∀ prims, List.Forall₂ tree.HasPrim ids prims → outcome.Fits prims)

namespace Evaluates

theorem of_push (hPrim : typed → ∀ prim, tree.HasPrim id prim → val.prim = prim) :
    Evaluates tree fit typed [id] (push val) := by
  refine ⟨halts_push, fun _ => ⟨.ok [val], fun _ => rfl, .one val, ?_⟩⟩
  intro hTyped prims hPrims
  rcases List.forall₂_cons_left_iff.mp hPrims with ⟨prim, _, hHas, ⟨⟩, rfl⟩
  exact congrArg (fun prim => [prim]) (hPrim hTyped prim hHas)

theorem of_throw (hError : typed → error.IsOfValues) : Evaluates tree fit typed ids (throw error) :=
  ⟨halts_throw, fun _ => ⟨.error error, fun _ => ⟨[], rfl⟩, .error error,
    fun hTyped _ _ => hError hTyped⟩⟩

theorem none : Evaluates tree fit typed [] (pure ()) := by
  refine ⟨fun _ => ⟨_, rfl⟩, fun _ => ⟨.ok [], fun _ => rfl, ?_, ?_⟩⟩
  · rintro _ ⟨⟩
    rfl
  · rintro - _ ⟨⟩
    rfl

/- One unit after another. -/
theorem cons (hRun : Evaluates tree fit typed [id] run)
    (hSecond : Evaluates tree fit typed ids second) :
    Evaluates tree fit typed (id :: ids) (run >>= fun _ => second) := by
  refine ⟨hRun.halts.bind hSecond.halts, fun hFit => ?_⟩
  rcases hRun.settles hFit with ⟨one, hOne, hCount, hPrim⟩
  rcases hSecond.settles hFit with ⟨others, hOthers, hCounts, hPrims⟩
  refine ⟨one >>= fun vals => others.map (vals ++ ·),
    hOne.bind _ fun vals _ => hOthers.above vals, ?_, ?_⟩
  · rcases one with _ | vals
    · exact .error _
    · rcases others with _ | more
      · exact .error _
      · rintro _ ⟨⟩
        rw [List.length_append, hCount vals rfl, hCounts more rfl]
        exact Nat.add_comm _ _
  · intro hTyped prims hEach
    rcases List.forall₂_cons_left_iff.mp hEach with ⟨prim, rest, hFirst, hRest, rfl⟩
    have hHere := hPrim hTyped [prim] (.cons hFirst .nil)
    have hThere := hPrims hTyped rest hRest
    rcases one with _ | vals
    · exact hHere
    · rcases others with _ | more
      · exact hThere
      · exact (List.map_append ..).trans (congrArg₂ (· ++ ·) hHere hThere)

/- The values of units are turned into that of another. -/
theorem turned (hRun : Evaluates tree fit typed ids run) (hHalts : Halts op) (params : List Prim)
    (res : Prim) (hTurns : fit → ∀ vals : List Value, vals.length = ids.length → ∃ outcome,
      Turns vals op outcome ∧ outcome.Counts 1 ∧
        (typed → vals.map Value.prim = params → outcome.Fits [res]))
    (hModes : typed → List.Forall₂ tree.HasPrim ids params ∧
      ∀ prim, tree.HasPrim id prim → prim = res) :
    Evaluates tree fit typed [id] (run >>= fun _ => op) := by
  refine ⟨hRun.halts.bind hHalts, fun hFit => ?_⟩
  rcases hRun.settles hFit with ⟨outcome, hOutcome, hCount, hPrims⟩
  have hFinish : ∀ {last : Outcome}, (typed → last.Fits [res]) →
      typed → ∀ prims, List.Forall₂ tree.HasPrim [id] prims → last.Fits prims := by
    intro last hLast hTyped prims hPrims
    rcases List.forall₂_cons_left_iff.mp hPrims with ⟨prim, _, hHas, ⟨⟩, rfl⟩
    rw [(hModes hTyped).2 prim hHas]
    exact hLast hTyped
  cases outcome with
  | error error =>
    refine ⟨.error error, hOutcome.bind .ok ?_, .error error, hFinish fun hTyped => ?_⟩
    · rintro _ ⟨⟩
    · exact hPrims hTyped params (hModes hTyped).1
  | ok vals =>
    rcases hTurns hFit vals (hCount vals rfl) with ⟨last, hLast, hOne, hFits⟩
    refine ⟨last, ?_, hOne, hFinish fun hTyped => ?_⟩
    · exact hOutcome.bind (fun _ => last) fun _ hSame => Except.ok.inj hSame ▸ hLast
    · exact hFits hTyped (hPrims hTyped params (hModes hTyped).1)

end Evaluates

end Machine

------ Constants

namespace SyntaxTree

theorem children_eq_of_firstChildren (hKids : tree.children id = .ok kids)
    (hFirst : tree.firstChildren id count = .ok first) (hLen : kids.length ≤ count) :
    kids = first := by
  rw [firstChildren_eq hKids, List.take_of_length_le hLen, Except.ok.injEq] at hFirst
  exact hFirst

/- The first few children of every node can be read. -/
def IsReadable (tree : SyntaxTree) : Prop :=
  ∀ id node count, tree.node id = .ok node → (tree.firstChildren id count).Ends

theorem IsShaped.isReadable (hShaped : tree.IsShaped) : tree.IsReadable := by
  intro id node count hNode
  rcases hShaped.children_ends hNode with ⟨kids, hKids⟩
  exact ⟨_, firstChildren_eq hKids count⟩

/- Every operator has as many operands as it asks for. -/
structure HasArities (tree : SyntaxTree) : Prop where
  dyadic : ∀ id left operator right builtin, tree.attr id = .ok .formula →
      tree.firstChildren id 3 = .ok [left, operator, right] →
        tree.builtin? operator = .ok (some builtin) → builtin.arity = 2
  monadic : ∀ id operator operand builtin, tree.attr id = .ok .monadicFormula →
      tree.firstChildren id 2 = .ok [operator, operand] →
        tree.builtin? operator = .ok (some builtin) → builtin.arity = 1

theorem HasPrim.eq (hPrim : tree.HasPrim id prim) (hOther : tree.HasPrim id other) :
    prim = other := by
  rcases hPrim with ⟨mode, hMode, hPrim⟩
  rcases hOther with ⟨found, hFound, hOther⟩
  obtain rfl : mode = found := by simpa [hMode] using hFound
  simpa [hPrim] using hOther

namespace WellModed

variable {node : Node}

theorem applies_formula (hModed : tree.WellModed) (hNode : tree.node id = .ok node)
    (hAttr : node.attr = .formula) (hParts : tree.firstChildren id 3 = .ok [left, operator, right])
    (hBuiltin : tree.builtin? operator = .ok (some builtin)) :
    tree.Applies id builtin [left, right] := by
  rcases hModed.shaped.exists_children_length hNode (by rw [hAttr]; rfl) with ⟨kids, hKids, hLen⟩
  obtain rfl := children_eq_of_firstChildren hKids hParts hLen.le
  exact .operation (by simp [Inline.operandsOf, hKids, attr_eq hNode, hAttr, hBuiltin])

theorem applies_monadicFormula (hModed : tree.WellModed) (hNode : tree.node id = .ok node)
    (hAttr : node.attr = .monadicFormula) (hParts : tree.firstChildren id 2 = .ok [operator, op])
    (hBuiltin : tree.builtin? operator = .ok (some builtin)) : tree.Applies id builtin [op] := by
  rcases hModed.shaped.exists_children_length hNode (by rw [hAttr]; rfl) with ⟨kids, hKids, hLen⟩
  obtain rfl := children_eq_of_firstChildren hKids hParts hLen.le
  exact .operation (by simp [Inline.operandsOf, hKids, attr_eq hNode, hAttr, hBuiltin])

theorem hasArities (hModed : tree.WellModed) : tree.HasArities where
  dyadic := by
    intro id left operator right builtin hAttr hParts hBuiltin
    rcases Classifier.attr_eq_ok.mp hAttr with ⟨node, hNode, hAttr⟩
    have hApplies := hModed.applies_formula hNode hAttr hParts hBuiltin
    exact (hModed.applied id builtin _ hApplies).1.length_eq.symm
  monadic := by
    intro id operator op builtin hAttr hParts hBuiltin
    rcases Classifier.attr_eq_ok.mp hAttr with ⟨node, hNode, hAttr⟩
    have hApplies := hModed.applies_monadicFormula hNode hAttr hParts hBuiltin
    exact (hModed.applied id builtin _ hApplies).1.length_eq.symm

end WellModed

end SyntaxTree

namespace Machine

open Classifier

variable {execute : NodeId → Run Unit}

namespace Evaluates

theorem applied (hModed : typed → tree.WellModed) (hConst : builtin.isConstant = true)
    (hApplies : typed → tree.Applies id builtin ops) (hArity : fit → ops.length = builtin.arity)
    (hRun : Evaluates tree fit typed ops run) (line : Nat) :
    Evaluates tree fit typed [id] (run >>= fun _ => apply builtin id line) := by
  refine hRun.turned (halts_apply hConst) builtin.signature.params builtin.signature.result ?_ ?_
  · intro hFit vals hLen
    rcases turns_apply hConst (hLen.trans (hArity hFit)) with ⟨outcome, hTurns, hOne, hFits⟩
    exact ⟨outcome, hTurns, hOne, fun _ => hFits⟩
  · intro hTyped
    rcases (hModed hTyped).applied id builtin ops (hApplies hTyped) with ⟨hParams, hRes⟩
    exact ⟨hParams, fun prim hPrim => hPrim.eq hRes⟩

theorem renamed (hMode : typed → tree.mode? other = tree.mode? id)
    (hRun : Evaluates tree fit typed [other] run) : Evaluates tree fit typed [id] run := by
  refine ⟨hRun.halts, fun hFit => ?_⟩
  rcases hRun.settles hFit with ⟨outcome, hTurns, hOne, hFits⟩
  refine ⟨outcome, hTurns, hOne, fun hTyped prims hPrims => hFits hTyped prims ?_⟩
  rcases List.forall₂_cons_left_iff.mp hPrims with ⟨prim, _, hHas, ⟨⟩, rfl⟩
  exact .cons (hHas.of_mode?_eq (hMode hTyped).symm) .nil

theorem all (hArgs : ∀ arg ∈ args, Evaluates tree fit typed [arg] (execute arg))
    (hSibs : tree.Siblings first args) (hFuel : args.length ≤ fuel) :
    Evaluates tree fit typed args (executeAll tree execute fuel first) := by
  induction args generalizing first fuel with
  | nil =>
    obtain rfl : first = Option.none := hSibs
    cases fuel <;> exact .none
  | cons arg rest ih =>
    rcases hSibs with ⟨rfl, node, hNode, hRest⟩
    obtain ⟨less, rfl⟩ : ∃ less, fuel = less + 1 := ⟨fuel - 1, by simp at hFuel; omega⟩
    rw [executeAll, reading_bind hNode]
    exact (hArgs arg List.mem_cons_self).cons
      (ih (fun other hOther => hArgs other (.tail _ hOther)) hRest (by simpa using hFuel))

end Evaluates

variable (hModed : typed → tree.WellModed) (hNode : tree.node id = .ok node)

include hModed hNode

theorem evaluates_formula (hAttr : node.attr = .formula)
    (hParts : tree.firstChildren id 3 = .ok [left, operator, right])
    (hBuiltin : tree.builtin? operator = .ok (some builtin)) (hConst : builtin.isConstant = true)
    (hArities : fit → tree.HasArities) (hLeft : Evaluates tree fit typed [left] (execute left))
    (hRight : Evaluates tree fit typed [right] (execute right)) :
    Evaluates tree fit typed [id] (executeUnit tree execute id) := by
  have hRun : executeUnit tree execute id =
      (execute left >>= fun _ => execute right) >>= fun _ => apply builtin id node.line := by
    simp [executeUnit, reading_bind hNode, hAttr, reading_bind hParts, needing_bind hBuiltin]
  rw [hRun]
  refine (hLeft.cons hRight).applied hModed hConst ?_ ?_ _
  · exact fun hTyped => (hModed hTyped).applies_formula hNode hAttr hParts hBuiltin
  · intro hFit
    exact ((hArities hFit).dyadic id left operator right builtin
      (by rw [SyntaxTree.attr_eq hNode, hAttr]) hParts hBuiltin).symm

theorem evaluates_monadicFormula (hAttr : node.attr = .monadicFormula)
    (hParts : tree.firstChildren id 2 = .ok [operator, op])
    (hBuiltin : tree.builtin? operator = .ok (some builtin)) (hConst : builtin.isConstant = true)
    (hArities : fit → tree.HasArities) (hOp : Evaluates tree fit typed [op] (execute op)) :
    Evaluates tree fit typed [id] (executeUnit tree execute id) := by
  have hRun : executeUnit tree execute id = execute op >>= fun _ => apply builtin id node.line := by
    simp [executeUnit, reading_bind hNode, hAttr, reading_bind hParts, needing_bind hBuiltin]
  rw [hRun]
  refine hOp.applied hModed hConst ?_ ?_ _
  · exact fun hTyped => (hModed hTyped).applies_monadicFormula hNode hAttr hParts hBuiltin
  · intro hFit
    exact ((hArities hFit).monadic id operator op builtin
      (by rw [SyntaxTree.attr_eq hNode, hAttr]) hParts hBuiltin).symm

theorem evaluates_call (hAttr : node.attr = .call) (hKids : tree.children id = .ok (callee :: args))
    (hBuiltin : tree.builtin? callee = .ok (some builtin)) (hConst : builtin.isConstant = true)
    (hArity : args.length = builtin.arity)
    (hArgs : ∀ arg ∈ args, Evaluates tree fit typed [arg] (execute arg)) :
    Evaluates tree fit typed [id] (executeUnit tree execute id) := by
  rcases SyntaxTree.children_eq_ok.mp hKids with ⟨_, _, ⟨-, first, hFirst, hSibs⟩, hLen⟩
  have hFuel : args.length ≤ tree.bound := Nat.le_of_succ_le hLen
  have hRun : executeUnit tree execute id =
      executeAll tree execute tree.bound first.next >>= fun _ => apply builtin id node.line := by
    simp [executeUnit, reading_bind hNode, hAttr,
      reading_bind (SyntaxTree.firstChildren_eq hKids 1), reading_bind hFirst,
      needing_bind hBuiltin]
  rw [hRun]
  refine (Evaluates.all hArgs hSibs hFuel).applied hModed hConst ?_ (fun _ => hArity) _
  intro _
  exact .operation (by
    simp [Inline.operandsOf, hKids, SyntaxTree.attr_eq hNode, hAttr, hBuiltin])

theorem evaluates_widening (hAttr : node.attr = .widening) (hSub : node.sub = some op)
    (hMode : node.mode = some mode) (hTarget : tree.modes.prim? mode = .ok (some target))
    (hOp : Evaluates tree fit typed [op] (execute op)) :
    Evaluates tree fit typed [id] (executeUnit tree execute id) := by
  have hFound : wideningTarget tree node = .ok (some target) := by
    simp [wideningTarget, hMode, hTarget]
  have hPrim : tree.HasPrim id target := ⟨mode, by rw [SyntaxTree.mode?_eq hNode, hMode], hTarget⟩
  have hRun : executeUnit tree execute id = execute op >>= fun _ => widen target id := by
    simp [executeUnit, reading_bind hNode, hAttr, hSub, needing_bind hFound]
  have hSrc : ∃ source, typed → tree.HasPrim op source ∧ (source = .int ∧ target = .real ∨
          source = .real ∧ target = .complex) := by
    by_cases hTyped : typed
    · have hKids := (hModed hTyped).shaped.children_eq_of_sub hNode (by rw [hAttr]; rfl) hSub
      rcases (hModed hTyped).widened id op (by rw [SyntaxTree.attr_eq hNode, hAttr]) hKids with
        ⟨hInt, hReal⟩ | ⟨hReal, hComplex⟩
      · exact ⟨.int, fun _ => ⟨hInt, .inl ⟨rfl, hPrim.eq hReal⟩⟩⟩
      · exact ⟨.real, fun _ => ⟨hReal, .inr ⟨rfl, hPrim.eq hComplex⟩⟩⟩
    · exact ⟨.int, fun hHolds => absurd hHolds hTyped⟩
  rcases hSrc with ⟨source, hSrc⟩
  rw [hRun]
  refine hOp.turned halts_widen [source] target ?_ ?_
  · intro _ values hLen
    rcases List.length_eq_one_iff.mp hLen with ⟨value, rfl⟩
    rcases turns_widen value with ⟨outcome, hTurns, hOne, hFits⟩
    refine ⟨outcome, hTurns, hOne, fun hTyped hPrims => hFits ?_⟩
    rw [(List.cons.inj hPrims).1]
    exact (hSrc hTyped).2
  · exact fun hTyped => ⟨.cons (hSrc hTyped).1 .nil, fun prim hOther => hOther.eq hPrim⟩

theorem evaluates_display (hAttr : node.attr = .collateralClause)
    (hKids : tree.children id = .ok members) (hComplex : tree.HasPrim id .complex)
    (hMembers : ∀ member ∈ members, Evaluates tree fit typed [member] (execute member)) :
    Evaluates tree fit typed [id] (executeUnit tree execute id) := by
  have hPair : typed → ∃ re im, members = [re, im] ∧
      tree.HasPrim re .real ∧ tree.HasPrim im .real := by
    intro hTyped
    rcases (hModed hTyped).displayed id (by rw [SyntaxTree.attr_eq hNode, hAttr]) hComplex with
      ⟨re, im, hSame, hRe, hIm⟩
    rw [hKids, Except.ok.injEq] at hSame
    exact ⟨re, im, hSame, hRe, hIm⟩
  by_cases hTwo : ∃ re im, members = [re, im]
  · rcases hTwo with ⟨re, im, rfl⟩
    have hRun : executeUnit tree execute id =
        (execute re >>= fun _ => execute im) >>= fun _ => pairReals id := by
      simp [executeUnit, reading_bind hNode, hAttr,
        reading_bind (SyntaxTree.firstChildren_eq hKids 3)]
    rw [hRun]
    refine ((hMembers re (by simp)).cons (hMembers im (by simp))).turned halts_pairReals
      [.real, .real] .complex ?_ ?_
    · intro _ values hLen
      rcases List.length_eq_two.mp hLen with ⟨x, y, rfl⟩
      rcases turns_pairReals x y with ⟨outcome, hTurns, hOne, hFits⟩
      exact ⟨outcome, hTurns, hOne, fun _ => hFits⟩
    · intro hTyped
      rcases hPair hTyped with ⟨_, _, ⟨⟩, hRe, hIm⟩
      exact ⟨.cons hRe (.cons hIm .nil), fun prim hPrim => hPrim.eq hComplex⟩
  · have hRun : executeUnit tree execute id = throw (.notEvaluable id) := by
      rw [executeUnit, reading_bind hNode, hAttr]
      dsimp only
      rw [reading_bind (SyntaxTree.firstChildren_eq hKids 3)]
      rcases members with _ | ⟨a, _ | ⟨b, _ | ⟨c, rest⟩⟩⟩ <;>
        first | rfl | exact absurd ⟨_, _, rfl⟩ hTwo
    rw [hRun]
    refine .of_throw fun hTyped => ?_
    rcases hPair hTyped with ⟨re, im, hSame, -⟩
    exact absurd ⟨re, im, hSame⟩ hTwo

theorem evaluates_enclosed
    (hAttr : node.attr = .cast ∨ node.attr = .closedClause ∨ node.attr = .serialClause)
    (hParts : tree.firstChildren id 2 = .ok [only])
    (hOnly : Evaluates tree fit typed [only] (execute only)) :
    Evaluates tree fit typed [id] (executeUnit tree execute id) := by
  have hRun : executeUnit tree execute id = execute only := by
    rcases hAttr with hAttr | hAttr | hAttr <;>
      simp [executeUnit, reading_bind hNode, hAttr, reading_bind hParts]
  rw [hRun]
  refine hOnly.renamed fun hTyped => ?_
  rcases (hModed hTyped).shaped.children_ends hNode with ⟨kids, hKids⟩
  rw [SyntaxTree.firstChildren_eq hKids, Except.ok.injEq] at hParts
  rcases kids with _ | ⟨first, _ | ⟨second, rest⟩⟩
  · cases hParts
  · cases hParts
    exact (hModed hTyped).enclosed id node.attr _ only (SyntaxTree.attr_eq hNode) hAttr hKids rfl
  · cases hParts

/- One that has more units than the first fails. -/
theorem evaluates_opened (hReadable : tree.IsReadable)
    (hAttr : node.attr = .cast ∨ node.attr = .closedClause) (hSub : node.sub = some first)
    (hFirst : Evaluates tree fit typed [first] (execute first)) :
    Evaluates tree fit typed [id] (executeUnit tree execute id) := by
  rcases hReadable id node 2 hNode with ⟨parts, hParts⟩
  obtain ⟨rest, rfl⟩ : ∃ rest, parts = first :: rest := by
    simp only [SyntaxTree.firstChildren, SyntaxTree.sub?, hNode, Walk.ok_bind, Walk.pure_eq_ok,
      hSub, SyntaxTree.firstSiblings, Walk.bind_eq_ok, Except.ok.injEq] at hParts
    rcases hParts with ⟨_, -, rest, -, rfl⟩
    exact ⟨rest, rfl⟩
  cases rest with
  | nil => exact evaluates_enclosed hModed hNode (hAttr.imp_right .inl) hParts hFirst
  | cons other others =>
    have hRun : executeUnit tree execute id = throw (.notEvaluable id) := by
      rcases hAttr with hAttr | hAttr <;>
        simp [executeUnit, reading_bind hNode, hAttr, reading_bind hParts]
    rw [hRun]
    refine .of_throw fun hTyped => ?_
    have hKids := (hModed hTyped).shaped.children_eq_of_sub hNode
      (by rcases hAttr with hAttr | hAttr <;> rw [hAttr] <;> rfl) hSub
    rw [SyntaxTree.firstChildren_eq hKids] at hParts
    cases hParts

omit hModed

/- A name that stands for a builtin without operands. -/
theorem evaluates_builtinName (hModed : typed → tree.WellModed) (hAttr : node.attr = .identifier)
    (hTag : tree.tag? id = .ok (some entry)) (hBuiltin : entry.builtin = some builtin)
    (hArity : builtin.arity = 0) (hConst : builtin.isConstant = true) :
    Evaluates tree fit typed [id] (executeUnit tree execute id) := by
  have hRun : executeUnit tree execute id = pure () >>= fun _ => apply builtin id node.line := by
    simp [executeUnit, reading_bind hNode, hAttr, needing_bind hTag, hBuiltin]
  rw [hRun]
  refine Evaluates.none.applied hModed hConst (fun _ => .name ?_ ?_ hArity hConst)
    (fun _ => hArity.symm) _
  · rw [SyntaxTree.attr_eq hNode, hAttr]
  · simp [SyntaxTree.builtin?, hTag, hBuiltin]

theorem evaluates_constantName (hModed : typed → tree.WellModed) (hAttr : node.attr = .identifier)
    (hTag : tree.tag? id = .ok (some entry)) (hBuiltin : entry.builtin = none)
    (hSrc : entry.value = some source) (hVal : Evaluates tree fit typed [source] (execute source)) :
    Evaluates tree fit typed [id] (executeUnit tree execute id) := by
  have hRun : executeUnit tree execute id = execute source := by
    simp [executeUnit, reading_bind hNode, hAttr, needing_bind hTag, hBuiltin, hSrc]
  rw [hRun]
  refine hVal.renamed fun hTyped => ?_
  rcases (hModed hTyped).named id entry (by rw [SyntaxTree.attr_eq hNode, hAttr]) hTag with
    ⟨hMode, hModes⟩
  rw [hMode, hModes source hSrc]

end Machine

------ Execution by Depth

theorem ModeTable.exists_prim_of_isFoldable (hFoldable : table.isFoldable mode = .ok true) :
    ∃ kind prim, table.kind mode = .ok kind ∧ table.prim? mode = .ok (some prim) := by
  simp only [isFoldable, Walk.or_eq_true, isPrimitive,
    Walk.bind_eq_ok, Walk.pure_eq_ok, Except.ok.injEq, isComplex, beq_iff_eq] at hFoldable
  rcases hFoldable with ⟨kind, hKind, hPrim⟩ | ⟨⟨kind, hKind, -⟩, hComplex⟩
  · cases kind <;> simp_all [ModeKind.isPrimitive, prim?]
  · refine ⟨kind, ?_⟩
    cases kind <;> simp [prim?] <;>
      simp [← hComplex, hKind]

theorem ModeTable.prim?_of_isFoldable_struct (hFoldable : table.isFoldable mode = .ok true)
    (hKind : table.kind mode = .ok (.struct fields)) : table.prim? mode = .ok (some .complex) := by
  simp only [isFoldable, isPrimitive, hKind, Walk.ok_bind,
    ModeKind.isPrimitive, Walk.pure_eq_ok, Walk.or,
    isComplex, Except.ok.injEq, beq_iff_eq] at hFoldable
  subst hFoldable
  simp [prim?, hKind]

namespace Machine

open Classifier

variable {typed : Prop}

theorem evaluates_denoter {execute : NodeId → Run Unit} (hNode : tree.node id = .ok node)
    (hAttr : node.attr = .denoter) (hKind : (node.mode.mapM tree.modes.kind).Ends) :
    Evaluates tree fit typed [id] (executeUnit tree execute id) := by
  rcases hKind with ⟨found, hKind⟩
  rw [executeUnit, reading_bind hNode, hAttr]
  dsimp only
  rw [pushDenoter, reading_bind hNode]
  rw [reading_bind hKind]
  split
  · rename_i value hVal
    rcases Option.bind_eq_some_iff.mp hVal with ⟨kind, rfl, hVal⟩
    refine .of_push ?_
    rintro - prim ⟨mode, hMode, hPrim⟩
    rw [SyntaxTree.mode?_eq hNode, Except.ok.injEq] at hMode
    simp only [hMode, Option.mapM_some, Walk.map_eq_ok] at hKind
    have hFound := value?_prim (by simpa using hKind) hVal
    simpa [hPrim, eq_comm] using hFound
  · exact .of_throw fun _ => trivial

/-
  A constant that the classifier accepts at a depth puts its value on the stack at twice that
  depth: the machine enters the serial clause of a closed clause, which the classifier looks
  through.
-/
theorem executeWithin_evaluates (hReadable : tree.IsReadable) (hArities : fit → tree.HasArities)
    (hModed : typed → tree.WellModed) (hConst : query.requirement = .constant)
    (hUnit : unitWithin tree fuel query id = .ok true) {depth : Nat} (hDepth : 2 * fuel ≤ depth) :
    Evaluates tree fit typed [id] (executeWithin tree depth id) := by
  induction fuel generalizing query id depth with
  | zero => simp [unitWithin] at hUnit
  | succ fuel ih =>
    obtain ⟨less, rfl⟩ : ∃ less, depth = less + 1 + 1 := ⟨depth - 2, by omega⟩
    have hParts : ∀ {asked part}, asked.requirement = .constant →
          accepted (unitWithin tree fuel) asked part →
        Evaluates tree fit typed [part] (executeWithin tree (less + 1) part) :=
      fun hAsked hPart => ih hAsked hPart (by omega)
    rcases exists_shape_of_constant hConst hUnit with
      ⟨_, node, mode, ⟨⟩, hNode, hMode, hAccepts, hShape⟩
    rcases ModeTable.exists_prim_of_isFoldable hAccepts with ⟨kind, found, hKind, hFound⟩
    cases hShape with
    | denoter hAttr => exact evaluates_denoter hNode hAttr ⟨some kind, by simp [hMode, hKind]⟩
    | builtinName hAttr hTag hEntry hBuiltin hArity hKnown =>
      refine evaluates_builtinName hNode hModed hAttr ?_ hBuiltin hArity hKnown
      simp [SyntaxTree.tag?, hNode, hTag, hEntry]
    | constantName hAttr _ hTag hEntry hBuiltin _ hSrc _ hAccepted =>
      refine evaluates_constantName hNode hModed hAttr ?_ hBuiltin hSrc (hParts rfl hAccepted)
      simp [SyntaxTree.tag?, hNode, hTag, hEntry]
    | formula hAttr hFirst hBuiltin hKnown hLeft hRight =>
      exact evaluates_formula hModed hNode hAttr hFirst hBuiltin
        (hKnown.resolve_left (by simp [hConst])) hArities (hParts hConst hLeft)
        (hParts hConst hRight)
    | monadicFormula hAttr hFirst hBuiltin hKnown hOp =>
      exact evaluates_monadicFormula hModed hNode hAttr hFirst hBuiltin
        (hKnown.resolve_left (by simp [hConst])) hArities (hParts hConst hOp)
    | call hAttr hKids hBuiltin hKnown hArity hArgs =>
      exact evaluates_call hModed hNode hAttr hKids hBuiltin
        (hKnown.resolve_left (by simp [hConst])) hArity
        fun arg hArg => hParts hConst (hArgs arg hArg)
    | cast hAttr hSub hOp =>
      exact evaluates_opened hModed hNode hReadable (.inl hAttr) hSub (hParts hConst hOp)
    | widening hAttr hSub _ _ hOp =>
      exact evaluates_widening hModed hNode hAttr hSub hMode hFound (hParts hConst hOp)
    | closedClause hAttr hSub hSerial =>
      rcases hSerial with ⟨hSerialAttr, -, hOnly, -, -, hUnit⟩
      rcases attr_eq_ok.mp hSerialAttr with ⟨inner, hInner, hInnerAttr⟩
      refine evaluates_opened hModed hNode hReadable (.inr hAttr) hSub ?_
      exact evaluates_enclosed hModed hInner (.inr (.inr hInnerAttr)) hOnly
        (ih hConst hUnit (by omega))
    | serialClause hAttr hSerial =>
      rcases hSerial with ⟨-, -, hOnly, -, -, hUnit⟩
      exact evaluates_enclosed hModed hNode (.inr (.inr hAttr)) hOnly (hParts hConst hUnit)
    | collateralClause hAttr _ hFields hMembers _ hAccepted =>
      have hComplex : tree.HasPrim id .complex := ⟨mode, by rw [SyntaxTree.mode?_eq hNode, hMode],
          ModeTable.prim?_of_isFoldable_struct hAccepts hFields⟩
      exact evaluates_display hModed hNode hAttr hMembers hComplex
        fun member hMem => hParts hConst (hAccepted member hMem)
    | _ => simp_all

------ Evaluation of Constants

theorem evaluate_halts (hExec : Halts (execute tree id)) (machine : Machine) :
    ∃ result, (evaluate tree id).run.run machine = .ok result := by
  have hRun : (evaluate tree id).run.run machine =
      (execute tree id >>= fun _ => pop id).run.run machine.reset :=
    rfl
  rw [hRun, ExceptT.run_bind, StateT.run_bind]
  rcases hExec machine.reset with ⟨⟨_ | _, ⟨_ | ⟨top, below⟩, seed⟩⟩, hNext⟩ <;>
    exact ⟨_, by rw [hNext]; rfl⟩

/- It gives the value that is put on the stack. -/
theorem evaluate_run (hTurns : Turns [] (execute tree id) outcome) (hOne : outcome.Counts 1)
    (machine : Machine) :
    ∃ res next, (evaluate tree id).run.run machine = .ok (res, next) ∧
      outcome = res.map ([·]) ∧ next.seed = machine.seed := by
  have hRun : (evaluate tree id).run.run machine =
      (execute tree id >>= fun _ => pop id).run.run (machine.reset.pushed []) :=
    rfl
  rw [hRun, ExceptT.run_bind, StateT.run_bind]
  cases outcome with
  | error error =>
    rcases hTurns machine.reset with ⟨left, hNext⟩
    rw [hNext]
    exact ⟨.error error, _, rfl, rfl, rfl⟩
  | ok vals =>
    rcases List.length_eq_one_iff.mp (hOne vals rfl) with ⟨val, rfl⟩
    rw [hTurns machine.reset]
    exact ⟨.ok val, machine.reset, rfl, rfl, rfl⟩

/- Constants have values of a category. -/
theorem exists_hasPrim_of_isConstant (hConst : tree.isConstant id = .ok true) :
    ∃ prim, tree.HasPrim id prim := by
  rcases Classifier.exists_shape_of_constant rfl hConst with ⟨_, _, _, -, hNode, hMode, hAccepts, -⟩
  rcases ModeTable.exists_prim_of_isFoldable hAccepts with ⟨_, prim, -, hPrim⟩
  exact ⟨prim, _, by rw [SyntaxTree.mode?_eq hNode, hMode], hPrim⟩

/- The evaluation of a constant ends, and if the tree is typed
  it gives a value of the constant's category. -/
theorem evaluate_lands (hShaped : tree.IsShaped) (hModed : typed → tree.WellModed)
    (hConst : tree.isConstant id = .ok true) (machine : Machine) :
    ∃ result next, (evaluate tree id).run.run machine = .ok (result, next) ∧ (typed →
      match result with
      | .ok val => tree.HasPrim id val.prim
      | .error error => error.IsOfValues) := by
  have hExec : Evaluates tree typed typed [id] (execute tree id) :=
    executeWithin_evaluates hShaped.isReadable (fun hTyped => (hModed hTyped).hasArities) hModed rfl
      hConst le_rfl
  by_cases hTyped : typed
  · rcases exists_hasPrim_of_isConstant hConst with ⟨prim, hPrim⟩
    rcases hExec.settles hTyped with ⟨outcome, hTurns, hOne, hFits⟩
    rcases evaluate_run hTurns hOne machine with ⟨result, next, hRun, rfl, -⟩
    refine ⟨result, next, hRun, fun _ => ?_⟩
    have hSound := hFits hTyped [prim] (.cons hPrim .nil)
    cases result with
    | ok val =>
      rw [← (List.cons.inj hSound).1] at hPrim
      exact hPrim
    | error error => exact hSound
  · rcases evaluate_halts hExec.halts machine with ⟨⟨result, next⟩, hRun⟩
    exact ⟨result, next, hRun, fun hHolds => absurd hHolds hTyped⟩

end Machine

namespace SyntaxTree

/-
  The evaluation of a constant of a well-moded tree ends with a value of the category of the
  constant's mode, or with an error that lies in the values.
-/
theorem WellModed.evaluate_sound
    {tree : SyntaxTree}
    (hModed : tree.WellModed)
    {id : NodeId}
    (hConstant : tree.isConstant id = .ok true)
    (machine : Machine) :
    ∃ result next,
      (Machine.evaluate tree id).run.run machine = .ok (result, next) ∧
        match result with
        | .ok value => tree.HasPrim id value.prim
        | .error error => error.IsOfValues := by
  rcases Machine.evaluate_lands hModed.shaped
    (fun _ : True => hModed) hConstant machine with
    ⟨result, next, hRun, hResult⟩
  refine ⟨result, next, hRun, ?_⟩
  cases result with
  | ok value => exact hResult trivial
  | error error => exact hResult trivial

/- The places of the nodes of an attribute. -/
def places (tree : SyntaxTree) (attr : Attribute) : List NodeId :=
  (tree.nodes.toList.filter fun entry => entry.2.attr = attr).map (·.1)

theorem mem_places {attr : Attribute} (hAttr : tree.attr id = .ok attr) :
    id ∈ tree.places attr := by
  rcases Walk.bind_eq_ok.mp hAttr with ⟨node, hNode, ⟨⟩⟩
  have hMem := Store.mem_toList_of_fetch hNode
  exact List.mem_map.mpr ⟨_, List.mem_filter.mpr ⟨hMem, by simp⟩, rfl⟩

theorem attr_ne (hNone : tree.places kind = []) (id : NodeId) : tree.attr id ≠ .ok kind :=
  fun hAttr => List.not_mem_nil (hNone ▸ mem_places hAttr)

/-
  The assignation `z := IF b THEN (random, 40 + 2) ELSE w FI`, where `w` stands for the constant
  `1.5`.
-/
def drawnDisplay : SyntaxTree where
  nodes := Figure.nodes
    [.unit .serialClause ⟨0⟩ [.voided (.assign ⟨13⟩ ⟨0⟩ (.unit .conditionalClause ⟨7⟩
        [.ifPart (.ident ⟨3⟩ ⟨1⟩),
          .branch .thenPart ⟨7⟩ [.unit .collateralClause ⟨7⟩
            [.unit .deproceduring ⟨2⟩ [.ident ⟨14⟩ ⟨2⟩], .unit .widening ⟨2⟩
              [.unit .formula ⟨1⟩ [.number "40", .tagged .operator ⟨3⟩, .number "2"]]]],
          .branch .elsePart ⟨7⟩ [.ident ⟨7⟩ ⟨4⟩]]))],
      .unit .widening ⟨7⟩ [.denoter ⟨2⟩ "1.5"]]
  modes := (ModeTable.standardTable.intern (.proc [] ⟨2⟩)).2
  tags := ⟨#[{ name := "z", mode := ⟨13⟩, kind := .var },
      { name := "b", mode := ⟨3⟩, kind := .parameter },
      { name := "random", mode := ⟨14⟩, kind := .standard, builtin := some .random },
      { name := "+", mode := ⟨1⟩, kind := .operator, builtin := some .intAdd },
      { name := "w", mode := ⟨7⟩, kind := .identifier, value := some ⟨21⟩ }]⟩
  root := some ⟨0⟩

theorem drawnDisplay_wellModed : drawnDisplay.WellModed where
  shaped := (conforms_of_isOrderly (by decide +kernel)).shaped
  applied := by
    intro id builtin operands hApplies
    cases hApplies with
    | operation hOps =>
      rcases id with ⟨_ | _ | _ | _ | _ | _ | _ | _ | _ | _ | _ | _ | _ | _ | _ | _ | _ | _ | _ |
        _ | _ | _ | _ | number⟩
      all_goals cases hOps
      have hInt {id : NodeId} (hMode : drawnDisplay.mode? id = .ok (some ⟨1⟩)) :
          drawnDisplay.HasPrim id .int := ⟨⟨1⟩, hMode, rfl⟩
      exact ⟨.cons (hInt rfl) (.cons (hInt rfl) .nil), hInt rfl⟩
    | name hAttr hBuiltin _ hConst =>
      have hPlace : id ∈ [⟨3⟩, ⟨7⟩, ⟨12⟩, ⟨20⟩] := mem_places hAttr
      simp only [List.mem_cons, List.not_mem_nil, or_false] at hPlace
      rcases hPlace with rfl | rfl | rfl | rfl
      all_goals cases hBuiltin
      cases hConst
  enclosed := by
    intro id attr kids last hAttr hEncloses hKids hLast
    rcases hEncloses with rfl | rfl | rfl
    · cases (mem_places hAttr : id ∈ [])
    · cases (mem_places hAttr : id ∈ [])
    · have hPlace : id ∈ [⟨0⟩, ⟨6⟩, ⟨9⟩, ⟨19⟩] := mem_places hAttr
      simp only [List.mem_cons, List.not_mem_nil, or_false] at hPlace
      rcases hPlace with rfl | rfl | rfl | rfl
      all_goals
        cases hKids
        cases hLast
        rfl
  displayed := by
    intro id hAttr _
    obtain rfl := List.mem_singleton.mp (mem_places hAttr : id ∈ [⟨10⟩])
    exact ⟨⟨11⟩, ⟨13⟩, rfl, ⟨⟨2⟩, rfl, rfl⟩, ⟨⟨2⟩, rfl, rfl⟩⟩
  widened := by
    intro id operand hAttr hKids
    have hPlace : id ∈ [⟨13⟩, ⟨21⟩] := mem_places hAttr
    simp only [List.mem_cons, List.not_mem_nil, or_false] at hPlace
    rcases hPlace with rfl | rfl
    all_goals cases hKids
    · exact .inl ⟨⟨⟨1⟩, rfl, rfl⟩, ⟨⟨2⟩, rfl, rfl⟩⟩
    · exact .inr ⟨⟨⟨2⟩, rfl, rfl⟩, ⟨⟨7⟩, rfl, rfl⟩⟩
  named := by
    intro id tag hAttr hTag
    have hPlace : id ∈ [⟨3⟩, ⟨7⟩, ⟨12⟩, ⟨20⟩] := mem_places hAttr
    simp only [List.mem_cons, List.not_mem_nil, or_false] at hPlace
    rcases hPlace with rfl | rfl | rfl | rfl
    all_goals
      cases hTag
      refine ⟨rfl, ?_⟩
      rintro val ⟨⟩
    rfl

theorem evaluate_sound_drawnDisplay :
    drawnDisplay.WellModed ∧
      drawnDisplay.isConstant ⟨20⟩ = .ok true ∧
        ∃ result next,
          (Machine.evaluate drawnDisplay ⟨20⟩).run.run {} = .ok (result, next) ∧
            match result with
            | .ok value => drawnDisplay.HasPrim ⟨20⟩ value.prim
            | .error error => error.IsOfValues := by
  have hConstant : drawnDisplay.isConstant ⟨20⟩ = .ok true := by
    rfl
  exact ⟨drawnDisplay_wellModed, hConstant, drawnDisplay_wellModed.evaluate_sound hConstant {}⟩

end SyntaxTree

end Algol68
