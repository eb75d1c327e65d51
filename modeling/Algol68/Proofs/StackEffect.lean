import Mathlib.Data.List.Fold
import Mathlib.Data.List.MinMax
import Algol68.Proofs.Paths

/-
  The stack along the paths through generated code.

  Whichever way a function is run through, it leaves as many
  bytes on the stack as a value of the mode of its node has,
  if the clauses of the tree are of the modes of their parts.

  Main declarations:
    * `SyntaxTree.Conforms.functions_push_values`
-/

------ Control Paths

namespace Algol68

open List

namespace Stmt

mutual

/-
  The steps of a control path through a statement. Branches
  are taken either way and loops any number of times.
-/
def Passes : Stmt → List Stmt → Prop
  | .branch _ _ yes no, steps => PassesOf yes steps ∨ PassesOf no steps
  | .branchOnly _ yes, steps => steps = [] ∨ PassesOf yes steps
  | .switch _ arms otherwise, steps => PassesArm arms steps ∨ PassesOf otherwise steps
  | .loop _ body, steps => ∃ rounds : List (List Stmt), steps = rounds.flatten ∧
        ∀ round ∈ rounds, PassesOf body round
  | .block body, steps => PassesOf body steps
  | stmt, steps => steps = [stmt]

/- The steps of a control path through statements. -/
def PassesOf : List Stmt → List Stmt → Prop
  | [], steps => steps = []
  | stmt :: rest, steps => ∃ first others, steps = first ++ others ∧ Passes stmt first ∧
        PassesOf rest others

/- The steps of a control path through one of the arms. -/
def PassesArm : List (List Stmt) → List Stmt → Prop
  | [], _ => False
  | arm :: rest, steps => PassesOf arm steps ∨ PassesArm rest steps

end

@[simp] theorem passesOf_nil : PassesOf [] steps ↔ steps = [] := by
  simp [PassesOf]

theorem passesOf_cons : PassesOf (stmt :: rest) steps ↔ ∃ first others, steps = first ++ others ∧
        Passes stmt first ∧ PassesOf rest others := by
  simp [PassesOf]

@[simp] theorem passesOf_singleton : PassesOf [stmt] steps ↔ Passes stmt steps := by
  simp [passesOf_cons]

/- A path through two lists of statements is a path through both. -/
theorem passesOf_append :
    PassesOf (first ++ second) steps ↔ ∃ before after, steps = before ++ after ∧
        PassesOf first before ∧ PassesOf second after := by
  induction first generalizing steps with
  | nil => simp
  | cons stmt rest ih =>
    simp only [cons_append, passesOf_cons, ih]
    constructor
    · rintro ⟨head, _, rfl, hHead, before, after, rfl, hRest, hAfter⟩
      exact ⟨head ++ before, after, by simp, ⟨head, before, rfl, hHead, hRest⟩, hAfter⟩
    · rintro ⟨_, after, rfl, ⟨head, before, rfl, hHead, hRest⟩, hAfter⟩
      exact ⟨head, before ++ after, by simp, hHead, before, after, rfl, hRest, hAfter⟩

theorem passesArm_iff : PassesArm arms steps ↔ ∃ arm ∈ arms, PassesOf arm steps := by
  induction arms with
  | nil => simp [PassesArm]
  | cons arm rest ih => simp [PassesArm, ih]

variable {step : Stmt}

mutual

/- A path has only steps that are inside what it passes. -/
theorem mem_within_of_passes (stmt : Stmt) {steps : List Stmt} (hPasses : Passes stmt steps)
    (hStep : step ∈ steps) : step ∈ within stmt := by
  cases stmt with
  | branch node guard yes no =>
    simp only [within, mem_cons, mem_append]
    rcases hPasses with hYes | hNo
    · exact .inr (.inl (mem_withinOf_of_passesOf yes hYes hStep))
    · exact .inr (.inr (mem_withinOf_of_passesOf no hNo hStep))
  | branchOnly guard yes =>
    rcases hPasses with rfl | hYes
    · cases hStep
    · exact mem_cons_of_mem _ (mem_withinOf_of_passesOf yes hYes hStep)
  | switch sel arms otherwise =>
    simp only [within, mem_cons, mem_append]
    rcases hPasses with hArm | hOtherwise
    · exact .inr (.inl (mem_withinArms_of_passesArm arms hArm hStep))
    · exact .inr (.inr (mem_withinOf_of_passesOf otherwise hOtherwise hStep))
  | loop header body =>
    rcases hPasses with ⟨rounds, rfl, hRounds⟩
    rcases mem_flatten.mp hStep with ⟨round, hRound, hStep⟩
    exact mem_cons_of_mem _ (mem_withinOf_of_passesOf body (hRounds round hRound) hStep)
  | block body => exact mem_cons_of_mem _ (mem_withinOf_of_passesOf body hPasses hStep)
  | _ =>
    rw [show steps = _ from hPasses] at hStep
    exact hStep

theorem mem_withinOf_of_passesOf (body : List Stmt) {steps : List Stmt}
    (hPasses : PassesOf body steps) (hStep : step ∈ steps) : step ∈ withinOf body := by
  cases body with
  | nil =>
    rw [passesOf_nil.mp hPasses] at hStep
    cases hStep
  | cons stmt rest =>
    rcases passesOf_cons.mp hPasses with ⟨first, others, rfl, hFirst, hOthers⟩
    rw [withinOf_cons]
    rcases mem_append.mp hStep with hEarly | hLate
    · exact mem_append_left _ (mem_within_of_passes stmt hFirst hEarly)
    · exact mem_append_right _ (mem_withinOf_of_passesOf rest hOthers hLate)

theorem mem_withinArms_of_passesArm (arms : List (List Stmt)) {steps : List Stmt}
    (hPasses : PassesArm arms steps) (hStep : step ∈ steps) : step ∈ withinArms arms := by
  cases arms with
  | nil => exact False.elim hPasses
  | cons arm rest =>
    rw [withinArms]
    rcases hPasses with hArm | hRest
    · exact mem_append_left _ (mem_withinOf_of_passesOf arm hArm hStep)
    · exact mem_append_right _ (mem_withinArms_of_passesArm rest hRest hStep)

end

end Stmt

------ Stacks

/- The bytes of the value of a node; a void one has none. -/
def SyntaxTree.valueSize (tree : SyntaxTree) (id : NodeId) : Walk Nat := do
  match ← tree.mode? id with
  | some mode => tree.modes.byteSize mode
  | none => pure 0

/- The height of the stack and the heights that were marked. -/
structure Stack where
  level : Nat
  marks : Temp → Nat

variable {tree : SyntaxTree}

namespace Stack

/- Push a number of bytes. -/
def grow (stack : Stack) (size : Nat) : Stack := { stack with level := stack.level + size }

/- Mark the height of the stack. -/
def save (stack : Stack) (mark : Temp) : Stack :=
  { stack with
    marks := Function.update stack.marks mark stack.level }

/- Go back to a height that was marked. -/
def reset (stack : Stack) (mark : Temp) : Stack := { stack with level := stack.marks mark }

/-
  The stack after one step. An item that is called leaves its
  value, and the body of a routine its result.
-/
def step (tree : SyntaxTree) (stack : Stack) : Stmt → Walk Stack
  | .push mode _ _ => do
    pure (stack.grow (← tree.modes.byteSize mode))
  | .pushUnion _ => pure (stack.grow 8)
  | .padStack size => pure (stack.grow size)
  | .call _ site => do
    pure (stack.grow (← tree.valueSize site.node))
  | .executeUnit _ result => do
    pure (stack.grow (← tree.modes.byteSize result))
  | .saveStack mark => pure (stack.save mark)
  | .resetStack mark => pure (stack.reset mark)
  | _ => pure stack

/- The stack after the steps of a path. -/
def after (tree : SyntaxTree) (stack : Stack) (steps : List Stmt) : Walk Stack :=
  steps.foldlM (step tree) stack

variable {stack : Stack}

theorem after_append (hSteps : stack.after tree steps = .ok mid) :
    stack.after tree (steps ++ others) = mid.after tree others := by
  simp only [after, foldlM_append] at hSteps ⊢
  rw [hSteps]
  rfl

/- Steps of a unit leave the stack alone. -/
theorem after_eq_of_isInner (hSteps : ∀ step ∈ steps, Stmt.isInner step = true) :
    stack.after tree steps = .ok stack := by
  induction steps with
  | nil => rfl
  | cons step rest ih =>
    have hStep : stack.step tree step = .ok stack := by
      have hInner := hSteps step mem_cons_self
      cases step <;> first | rfl | cases hInner
    simp only [after, foldlM_cons, hStep]
    exact ih fun other hOther => hSteps other (mem_cons_of_mem _ hOther)

end Stack

namespace Stmt

/- Along every path, statements leave a stack as described. -/
def Leaves (tree : SyntaxTree) (body : List Stmt) (stack : Stack) (post : Stack → Prop) : Prop :=
  ∀ steps, PassesOf body steps → ∃ last, stack.after tree steps = .ok last ∧ post last

namespace Leaves

theorem nil (hPost : post stack) : Leaves tree [] stack post := by
  intro steps hSteps
  rw [passesOf_nil.mp hSteps]
  exact ⟨stack, rfl, hPost⟩

theorem append (hFirst : Leaves tree first stack mid)
    (hSecond : ∀ next, mid next → Leaves tree second next post) :
    Leaves tree (first ++ second) stack post := by
  intro steps hSteps
  rcases passesOf_append.mp hSteps with ⟨before, after, rfl, hBefore, hAfter⟩
  rcases hFirst before hBefore with ⟨next, hNext, hMid⟩
  rw [Stack.after_append hNext]
  exact hSecond next hMid after hAfter

theorem mono (hFirst : Leaves tree first stack post) (hWeaker : ∀ last, post last → weaker last) :
    Leaves tree first stack weaker := by
  intro steps hSteps
  rcases hFirst steps hSteps with ⟨last, hLast, hPost⟩
  exact ⟨last, hLast, hWeaker last hPost⟩

theorem step_cons {next : Stack} (hPasses : Passes stmt = fun steps => steps = [stmt])
    (hStep : stack.step tree stmt = .ok next) (hRest : Leaves tree rest next post) :
    Leaves tree (stmt :: rest) stack post := by
  intro steps hSteps
  rcases passesOf_cons.mp hSteps with ⟨_, others, rfl, hFirst, hOthers⟩
  rw [hPasses] at hFirst
  subst hFirst
  have hAfter : stack.after tree [stmt] = .ok next := by simp [Stack.after, hStep]
  rw [Stack.after_append hAfter]
  exact hRest others hOthers

theorem of_inner (hInner : AreInner first) (hPost : post stack) : Leaves tree first stack post := by
  intro steps hSteps
  refine ⟨stack, Stack.after_eq_of_isInner ?_, hPost⟩
  intro step hStep
  exact hInner step (mem_withinOf_of_passesOf first hSteps hStep)

theorem branch {guard : Expr} (hFirst : Leaves tree first stack post)
    (hSecond : Leaves tree second stack post) :
    Leaves tree [.branch node guard first second] stack post := by
  intro steps hSteps
  rw [passesOf_singleton] at hSteps
  rcases hSteps with hYes | hNo
  · exact hFirst steps hYes
  · exact hSecond steps hNo

theorem branchOnly {guard : Expr} (hFirst : Leaves tree first stack post) (hPost : post stack) :
    Leaves tree [.branchOnly guard first] stack post := by
  intro steps hSteps
  rw [passesOf_singleton] at hSteps
  rcases hSteps with rfl | hYes
  · exact ⟨stack, rfl, hPost⟩
  · exact hFirst steps hYes

theorem switch (hArms : ∀ arm ∈ arms, Leaves tree arm stack post)
    (hSecond : Leaves tree second stack post) :
    Leaves tree [.switch sel arms second] stack post := by
  intro steps hSteps
  rw [passesOf_singleton] at hSteps
  rcases hSteps with hArm | hOtherwise
  · rcases passesArm_iff.mp hArm with ⟨arm, hMem, hArm⟩
    exact hArms arm hMem steps hArm
  · exact hSecond steps hOtherwise

theorem block (hFirst : Leaves tree first stack post) : Leaves tree [.block first] stack post := by
  intro steps hSteps
  rw [passesOf_singleton] at hSteps
  exact hFirst steps hSteps

/- What every round keeps holds after a loop. -/
theorem loop (hRound : ∀ next, post next → Leaves tree first next post) (hPost : post stack) :
    Leaves tree [.loop header first] stack post := by
  intro steps hSteps
  rw [passesOf_singleton] at hSteps
  rcases hSteps with ⟨rounds, rfl, hRounds⟩
  induction rounds generalizing stack with
  | nil => exact ⟨stack, rfl, hPost⟩
  | cons round rest ih =>
    rw [forall_mem_cons] at hRounds
    rcases hRound stack hPost round hRounds.1 with ⟨next, hNext, hKept⟩
    rw [flatten_cons, Stack.after_append hNext]
    exact ih hKept hRounds.2

end Leaves

end Stmt

------ Sizes of Modes

namespace ModeTable

variable {table : ModeTable} {size : Nat}

theorem byteSize_void (hVoid : table.isVoid mode = .ok true) : table.byteSize mode = .ok 0 := by
  rcases Walk.bind_eq_ok.mp hVoid with ⟨kind, hKind, hSame⟩
  rw [byteSize, byteSizeWithin, hKind, Walk.ok_bind, eq_of_beq (Except.ok.inj hSame)]
  rfl

theorem byteSize_struct (hKind : table.kind mode = .ok (.struct fields))
    (hSize : table.byteSize mode = .ok size) :
    ∃ sizes, List.Forall₂ (fun field size => table.byteSize field.mode = .ok size)
        fields sizes ∧ size = sizes.sum := by
  rw [byteSize, byteSizeWithin, hKind, Walk.ok_bind] at hSize
  rcases Walk.bind_eq_ok.mp hSize with ⟨sizes, hSizes, hSum⟩
  cases hSum
  rw [Walk.mapM_eq_ok] at hSizes
  exact ⟨sizes, hSizes.imp fun _ _ => byteSizeWithin_mono (fun _ _ => id) (Nat.le_succ _), rfl⟩

/- A union takes a tag and the bytes of any alternative. -/
theorem byteSize_union (hKind : table.kind mode = .ok (.union alternatives))
    (hSize : table.byteSize mode = .ok size) (hAlternative : alternative ∈ alternatives)
    (hPart : table.byteSize alternative = .ok part) : 8 + part ≤ size := by
  rw [byteSize, byteSizeWithin, hKind, Walk.ok_bind] at hSize
  rcases Walk.bind_eq_ok.mp hSize with ⟨sizes, hSizes, hMax⟩
  cases hMax
  rw [Walk.mapM_eq_ok] at hSizes
  rcases Walk.exists_of_forall₂ hSizes.flip hAlternative with ⟨found, hFound, hFoundSize⟩
  have hSame := byteSizeWithin_mono (fun _ _ => id) (Nat.le_succ _) hFoundSize
  rw [show table.byteSizeWithin (table.size + 1) alternative = _
    from hPart, Except.ok.injEq] at hSame
  rw [hSame]
  exact Nat.add_le_add_left ((le_max_of_le' 0 hFound le_rfl).trans_eq foldl_eq_foldr.symm) 8

end ModeTable

------ Trees of Fitting Modes

variable {id : NodeId}

namespace SyntaxTree

/- Whether a node is a choice or goes on with one. -/
def IsChoice (tree : SyntaxTree) (id : NodeId) : Prop :=
  ∃ attr, tree.attr id = .ok attr ∧ attr ∈ [Attribute.conditionalClause, .elifPart, .caseClause,
      .ousePart]

/-
  Clauses have the modes of what they end in: of the last item of a serial clause, which declares
  nothing, of the branches and alternatives of a choice, of the fields of a display.
-/
structure IsModed (tree : SyntaxTree) : Prop where
  serial : ∀ id kids last, tree.attr id = .ok .serialClause →
      tree.children id = .ok kids → kids.getLast? = some last → tree.mode? last = tree.mode? id ∧
          ∀ attr, tree.attr last = .ok attr → attr.isDeclaration = false
  closed : ∀ id serial, tree.attr id = .ok .closedClause → tree.sub? id = .ok (some serial) →
      tree.mode? serial = tree.mode? id
  branch : ∀ id position attr part serial, tree.IsChoice id → tree.HasPart id position attr part →
      attr ∈ [Attribute.thenPart, .elsePart, .outPart] → tree.sub? part = .ok (some serial) →
          tree.mode? serial = tree.mode? id
  continuation : ∀ id attr part, tree.IsChoice id → tree.HasPart id 2 attr part →
      attr ∈ [Attribute.elifPart, .ousePart] → tree.mode? part = tree.mode? id
  alternative : ∀ id attr part kids, tree.attr id = .ok attr →
    attr ∈ [Attribute.caseClause, .ousePart] → tree.child? id 1 = .ok (some part) →
        tree.children part = .ok kids → ∀ kid ∈ kids, tree.mode? kid = tree.mode? id
  display : ∀ id mode fields kids, tree.attr id = .ok .collateralClause →
      tree.mode? id = .ok (some mode) → tree.modes.kind mode = .ok (.struct fields) →
          tree.children id = .ok kids → List.Forall₂ (fun kid field =>
                tree.mode? kid = .ok (some field.mode))
              kids fields
  collateral : ∀ id mode kids, tree.attr id = .ok .collateralClause →
      tree.mode? id = .ok (some mode) → tree.modes.isVoid mode = .ok true →
          tree.children id = .ok kids → ∀ kid ∈ kids, Planner.givesNothing tree kid = .ok true
  loop : ∀ id, tree.attr id = .ok .loopClause → Planner.givesNothing tree id = .ok true
  call : ∀ id callee tag params result, tree.attr id = .ok .call →
      tree.sub? id = .ok (some callee) → tree.tag? callee = .ok (some tag) → tag.kind = .procedure →
            tree.modes.kind tag.mode = .ok (.proc params result) → tree.mode? id = .ok (some result)

theorem valueSize_eq_of_mode?_eq (hMode : tree.mode? id = tree.mode? other) :
    tree.valueSize id = tree.valueSize other := by
  rw [valueSize, valueSize, hMode]

theorem valueSize_of_givesNothing (hNothing : Planner.givesNothing tree id = .ok true) :
    tree.valueSize id = .ok 0 := by
  rcases Walk.bind_eq_ok.mp hNothing with ⟨mode, hMode, hVoid⟩
  rw [valueSize, hMode, Walk.ok_bind]
  cases mode with
  | none => rfl
  | some mode => exact ModeTable.byteSize_void hVoid

theorem Conforms.valueSize_ends (hTree : tree.Conforms) {node : Node}
    (hNode : tree.node id = .ok node) : (tree.valueSize id).Ends := by
  apply Walk.Ends.bind ⟨_, mode?_eq hNode⟩
  rintro (_ | mode) hMode
  · exact .of_pure
  · exact hTree.modes.byteSize_ends (hTree.inRange.mode?_lt hMode)

end SyntaxTree

------ Units and Items

namespace Stmt

/- Statements push bytes and do nothing else to the stack. -/
def Adds (tree : SyntaxTree) (body : List Stmt) (size : Nat) : Prop :=
  ∀ stack, Leaves tree body stack (· = stack.grow size)

/- Statements push bytes, and mark no other height than the one they start from. -/
def Pushes (tree : SyntaxTree) (body : List Stmt) (size : Nat) : Prop :=
  ∀ stack, Leaves tree body stack fun last => last.level = stack.level + size ∧
      ∀ mark, last.marks mark = stack.marks mark ∨ last.marks mark = stack.level

theorem Adds.pushes (hAdds : Adds tree first size) : Pushes tree first size := by
  intro stack
  apply (hAdds stack).mono
  rintro _ rfl
  exact ⟨rfl, fun _ => .inl rfl⟩

theorem Adds.append (hFirst : Adds tree first size) (hSecond : Adds tree second more) :
    Adds tree (first ++ second) (size + more) := by
  intro stack
  apply (hFirst stack).append
  rintro _ rfl
  apply (hSecond _).mono
  simp [Stack.grow, Nat.add_assoc]

theorem Adds.of_inner (hInner : AreInner first) : Adds tree first 0 := fun _ => .of_inner hInner rfl

theorem Adds.of_step (hPasses : Passes stmt = fun steps => steps = [stmt])
    (hStep : ∀ stack : Stack, stack.step tree stmt = .ok (stack.grow size)) :
    Adds tree [stmt] size :=
  fun stack => .step_cons hPasses (hStep stack) (.nil rfl)

theorem Adds.of_push (hSize : tree.modes.byteSize mode = .ok size) (form : PushForm)
    (val : Expr) : Adds tree [.push mode form val] size := by
  apply of_step rfl
  simp [Stack.step, hSize]

theorem Pushes.of_adds_append (hFirst : Adds tree first 0) (hSecond : Pushes tree second size) :
    Pushes tree (first ++ second) size := by
  intro stack
  apply (hFirst stack).append
  rintro _ rfl
  exact hSecond stack

end Stmt

namespace Emission

open Inline Stmt

variable {scope : Scope} {item : Item}

theorem executeUnit_adds (tree : SyntaxTree) (id : NodeId) :
    Gives scope False (executeUnit tree id) fun body => Adds tree body 0 :=
  (executeUnit_gives tree scope id).mono fun _ => .of_inner

theorem pushValue_adds (hSize : tree.modes.byteSize mode = .ok size) (id : NodeId) :
    Gives scope False (pushValue tree mode id) fun push => Adds tree [push] size := by
  apply (yieldUnit_local id).any_bind
  intro val
  apply Gives.of_lift
  intro push hPush
  rcases pushOf_eq hPush with ⟨form, rfl⟩
  exact .of_push hSize form val

/- A unit whose value is pushed adds the bytes of its mode. -/
theorem executeValue_adds (hSize : tree.valueSize id = .ok size) :
    Gives scope False (executeValue tree id) fun body => Adds tree body size := by
  apply (executeUnit_adds tree id).bind
  intro body hBody
  apply Gives.lift_bind
  intro mode hMode
  rw [SyntaxTree.valueSize, hMode, Walk.ok_bind] at hSize
  cases mode with
  | none =>
    cases hSize
    exact .of_pure hBody
  | some mode =>
    apply Gives.lift_bind
    intro isVoid hVoid
    split
    · rename_i hYes
      subst hYes
      cases (ModeTable.byteSize_void hVoid).symm.trans hSize
      exact .of_pure hBody
    · apply (pushValue_adds hSize id).bind
      intro push hPush
      apply Gives.of_pure
      simpa using hBody.append hPush

theorem executeInit_adds (object : ModeId) (reference : Temp) (init : Option NodeId) :
    Gives scope False (executeInit tree object reference init) fun body => Adds tree body 0 := by
  cases init with
  | none => exact .of_pure (.of_inner .nil)
  | some init =>
    apply (executeUnit_adds tree init).bind
    intro body hBody
    apply (yieldUnit_local init).any_bind
    intro val
    apply Gives.lift_bind
    intro storage _
    apply Gives.lift_bind
    intro store hStore
    exact .of_pure (hBody.append (.of_inner (storeOf_inner hStore)))

/- The bytes that an item leaves. -/
def itemSize (tree : SyntaxTree) (last : Bool) (item : Item) : Walk Nat :=
  match item.kind with
  | .inline => if last then tree.valueSize item.site.node else pure 0
  | .call _ => tree.valueSize item.site.node
  | .declaration | .allocation => pure 0

theorem executeItem_adds (hSize : itemSize tree last item = .ok size) :
    Gives scope False (executeItem tree last item) fun body => Adds tree body size := by
  rcases item with ⟨site, kind⟩
  cases kind with
  | inline =>
    cases last with
    | true => exact executeValue_adds hSize
    | false =>
      cases hSize
      exact executeUnit_adds tree site.node
  | call func =>
    apply Gives.of_pure
    apply Adds.of_step rfl
    have hVal : tree.valueSize site.node = .ok size := hSize
    simp [Stack.step, hVal]
  | declaration =>
    cases hSize
    exact .of_pure (.of_step rfl fun _ => rfl)
  | allocation =>
    cases hSize
    apply Gives.lift_bind
    intro init _
    apply Gives.lift_bind
    rintro ⟨tag, entry, object⟩ _
    apply Gives.lift_bind
    intro bytes _
    apply (executeInit_adds object _ init).bind
    intro body hBody
    apply Gives.of_pure
    intro stack
    exact .block (.step_cons rfl rfl (.step_cons rfl rfl (hBody stack)))

------ Clauses

variable {items : List Item}

/-
  Items from a height that was marked. Each but the last is dropped, so only the last one counts.
-/
theorem executeItems_leaves (mark : Temp)
    (hSizes : ∀ item ∈ items, (itemSize tree false item).Ends)
    (hLast : items.getLast? = some last) (hSize : itemSize tree true last = .ok size) :
    Gives scope False (executeItems tree mark items) fun body =>
      ∀ stack : Stack, stack.marks mark = stack.level →
        Leaves tree body stack (· = stack.grow size) := by
  induction items with
  | nil => cases hLast
  | cons item rest ih =>
    cases rest with
    | nil =>
      cases hLast
      apply (branch_gives (executeItem_adds hSize)).mono
      exact fun body hBody stack _ => hBody stack
    | cons other others =>
      rcases hSizes item mem_cons_self with ⟨dropped, hDropped⟩
      apply (branch_gives (executeItem_adds hDropped)).bind
      intro body hBody
      apply (ih (fun later hLater => hSizes later (mem_cons_of_mem _ hLater)) hLast).bind
      intro more hMore
      apply Gives.of_pure
      intro stack hMark
      apply (hBody stack).append
      rintro _ rfl
      have hReset : (stack.grow dropped).reset mark = stack := by
        simp [Stack.reset, Stack.grow, hMark]
      apply Leaves.step_cons rfl rfl
      rw [hReset]
      exact hMore stack hMark

theorem openFrame_adds (id : NodeId) (site : Site) (opensFrame : Bool) :
    Adds tree (openFrame id site opensFrame) 0 := by
  intro stack
  cases opensFrame with
  | false => exact .nil rfl
  | true => exact .step_cons rfl rfl (.step_cons rfl rfl (.step_cons rfl rfl (.nil rfl)))

theorem closeFrame_adds (id : NodeId) (opensFrame : Bool) :
    Adds tree (closeFrame id opensFrame) 0 := by
  intro stack
  cases opensFrame with
  | false => exact .nil rfl
  | true => exact .step_cons rfl rfl (.nil rfl)

theorem executeSerial_pushes (hSizes : ∀ item ∈ plan.items, (itemSize tree false item).Ends)
    (hLast : plan.items.getLast? = some last) (hSize : itemSize tree true last = .ok size) :
    Gives scope False (executeSerial tree plan) fun body => Pushes tree body size := by
  apply (executeItems_leaves _ hSizes hLast hSize).bind
  intro body hBody
  apply Gives.of_pure
  rw [append_assoc]
  apply Pushes.of_adds_append (openFrame_adds _ _ _)
  intro stack
  apply Leaves.step_cons rfl rfl
  have hMark : (stack.save (stackMark plan.site.node)).marks
      (stackMark plan.site.node) = stack.level := by
    simp [Stack.save]
  apply (hBody _ hMark).append
  rintro _ rfl
  apply (closeFrame_adds _ _ _).mono
  rintro _ rfl
  refine ⟨rfl, ?_⟩
  intro mark
  by_cases hSame : mark = stackMark plan.site.node
  · subst hSame
    exact .inr hMark
  · left
    simp [Stack.grow, Stack.save, hSame]

theorem itemSizes_end (hTree : tree.Conforms)
    (hKids : tree.children parent = .ok (items.map fun item => item.site.node))
    (hItem : item ∈ items) (last : Bool) : (itemSize tree last item).Ends := by
  rcases SyntaxTree.exists_node_of_child hKids (mem_map_of_mem hItem) with ⟨node, hNode⟩
  have hSize := hTree.valueSize_ends hNode
  unfold itemSize
  split
  · split
    · exact hSize
    · exact .of_pure
  · exact hSize
  · exact .of_pure
  · exact .of_pure

theorem itemSize_eq_valueSize (hPlain : item.kind.declares = false) :
    itemSize tree true item = tree.valueSize item.site.node := by
  rcases item with ⟨site, kind⟩
  cases kind with
  | inline | call => rfl
  | declaration | allocation => cases hPlain

/- An item whose node declares nothing. -/
theorem declares_eq_false (hItem : item.IsOf tree calls start)
    (hNode : ∀ attr, tree.attr item.site.node = .ok attr → attr.isDeclaration = false) :
    item.kind.declares = false := by
  rcases item with ⟨site, kind⟩
  have hSuits := hItem.suits
  cases kind with
  | inline | call => rfl
  | declaration =>
    rcases hSuits with ⟨attr, hAttr, hDeclares⟩
    cases (hNode attr hAttr).symm.trans hDeclares
  | allocation => cases hNode _ hSuits

variable (hTree : tree.Conforms) (hModed : tree.IsModed)

include hTree hModed

/- A serial clause pushes the bytes of its mode. -/
theorem executeSerialClause_pushes (hPlan : plan.IsOf tree calls start)
    (hSize : tree.valueSize plan.site.node = .ok size) :
    Gives scope False (executeSerial tree plan) fun body => Pushes tree body size := by
  cases hLast : plan.items.getLast? with
  | none => exact absurd (getLast?_eq_none_iff.mp hLast) hPlan.nonempty
  | some last =>
    have hLastKid : (plan.items.map fun item => item.site.node).getLast? = some last.site.node := by
      rw [getLast?_map, hLast]
      rfl
    rcases hModed.serial _ _ _ hPlan.attr hPlan.children hLastKid with ⟨hMode, hDeclares⟩
    have hItem := hPlan.items last (mem_of_getLast? hLast)
    apply executeSerial_pushes (fun item hItem =>
        itemSizes_end hTree hPlan.children hItem false) hLast
    rw [itemSize_eq_valueSize (declares_eq_false hItem hDeclares),
      SyntaxTree.valueSize_eq_of_mode?_eq hMode]
    exact hSize

/- A serial clause in a part of a choice has its mode. -/
theorem executePart_pushes (hPlan : plan.IsPart tree calls start id pos attr)
    (hChoice : tree.IsChoice id) (hAttr : attr ∈ [Attribute.thenPart, .elsePart, .outPart])
    (hSize : tree.valueSize id = .ok size) :
    Gives scope False (executeSerial tree plan) fun body => Pushes tree body size := by
  rcases hPlan with ⟨hSerial, part, hPart, hSub⟩
  have hMode := hModed.branch id pos attr part _ hChoice hPart hAttr hSub
  apply executeSerialClause_pushes hTree hModed hSerial
  rw [SyntaxTree.valueSize_eq_of_mode?_eq hMode]
  exact hSize

omit hTree hModed in
/- A guard leaves nothing, and what it decides pushes. -/
theorem guarded_pushes {rest : List Stmt → Expr → Inline.Emission}
    (hRest : ∀ body val, Gives scope False (rest body val) fun whole =>
      ∃ last, whole = body ++ last ∧ Pushes tree last size) :
    Gives scope False (do rest (← executeUnit tree id) (← yieldUnit tree id)) fun body =>
      Pushes tree body size := by
  apply (executeUnit_adds tree id).bind
  intro body hBody
  apply (yieldUnit_local id).any_bind
  intro val
  apply (hRest body val).mono
  rintro _ ⟨last, rfl, hLast⟩
  exact .of_adds_append hBody hLast

omit hTree hModed

/- Every alternative pushes the bytes of the clause. -/
theorem executeArms_adds (hSizes : ∀ item ∈ items, itemSize tree true item = .ok size) :
    Gives scope False (executeArms tree items) fun arms => ∀ arm ∈ arms, Adds tree arm size := by
  induction items with
  | nil => exact .of_pure (by simp)
  | cons item rest ih =>
    apply (branch_gives (executeItem_adds (hSizes item mem_cons_self))).bind
    intro arm hArm
    apply (ih fun later hLater => hSizes later (mem_cons_of_mem _ hLater)).bind
    intro arms hArms
    exact .of_pure (forall_mem_cons.mpr ⟨hArm, hArms⟩)

theorem executeAlternatives_adds (hModed : tree.IsModed)
    (hBranches : Branches.AreOf tree calls start id (.numbered items))
    (hSize : tree.valueSize id = .ok size) :
    Gives scope False (executeArms tree items) fun arms => ∀ arm ∈ arms, Adds tree arm size := by
  apply executeArms_adds
  intro item hItem
  have hArms : tree.HasArms calls start id items := hBranches.parts
  rcases hArms.children with ⟨part, hPart, hKids⟩
  have hClause : ∃ attr, tree.attr id = .ok attr ∧ attr ∈ [Attribute.caseClause, .ousePart] :=
    hBranches.attr.elim (fun hAttr => ⟨_, hAttr, mem_cons_self⟩)
      fun hAttr => ⟨_, hAttr, mem_cons_of_mem _ mem_cons_self⟩
  rcases hClause with ⟨attr, hAttr, hCase⟩
  have hMode := hModed.alternative id attr part _ hAttr hCase
    hPart hKids item.site.node (mem_map_of_mem hItem)
  rw [itemSize_eq_valueSize (hArms.plain item hItem), SyntaxTree.valueSize_eq_of_mode?_eq hMode]
  exact hSize

theorem isChoice_of_areOf {branches : Branches} (hBranches : branches.AreOf tree calls start id) :
    tree.IsChoice id := by
  rcases hBranches.attr with hAttr | hAttr
  · exact ⟨_, hAttr, by cases branches <;> simp [Branches.kind, ChoiceKind.clause]⟩
  · exact ⟨_, hAttr, by cases branches <;> simp [Branches.kind, ChoiceKind.more]⟩

theorem executeSelect_pushes (hTree : tree.Conforms) (hModed : tree.IsModed) {rest : ChoicePlan}
    (hBranches : branches.AreOf tree calls start id) (hSize : tree.valueSize id = .ok size)
    (hNothing : rest = .nothing → size = 0)
    (hRest : Gives scope False (executeChoice tree rest) fun body => Pushes tree body size) :
    Gives scope False (executeChoice tree (.select selector branches rest)) fun body =>
      Pushes tree body size := by
  refine guarded_pushes fun body value => ?_
  cases branches with
  | guarded yes =>
    apply (branch_gives (executePart_pushes hTree hModed hBranches.parts
      (isChoice_of_areOf hBranches) (by simp) hSize)).bind
    intro yes hYes
    apply (branch_gives hRest).bind
    intro no hNo
    refine .of_pure ⟨_, rfl, fun stack => ?_⟩
    cases rest with
    | nothing =>
      rw [hNothing rfl] at hYes ⊢
      exact .branchOnly (hYes stack) ⟨rfl, fun _ => .inl rfl⟩
    | otherwise | select => exact .branch (hYes stack) (hNo stack)
  | numbered items =>
    apply (executeAlternatives_adds hModed hBranches hSize).bind
    intro arms hArms
    apply (branch_gives hRest).bind
    intro otherwise hOtherwise
    exact .of_pure ⟨_, rfl, fun stack =>
      .switch (fun arm hArm => (hArms arm hArm).pushes stack) (hOtherwise stack)⟩

theorem executeChoice_pushes (hTree : tree.Conforms) (hModed : tree.IsModed)
    (hPlan : plan.IsOf tree calls start id) (hSize : tree.valueSize id = .ok size) :
    Gives scope False (executeChoice tree plan) fun body => Pushes tree body size := by
  induction hPlan with
  | only hBranches hNothing =>
    cases hSize.symm.trans (SyntaxTree.valueSize_of_givesNothing hNothing)
    exact executeSelect_pushes hTree hModed hBranches hSize (fun _ => rfl)
      (.of_pure fun stack => .nil ⟨rfl, fun _ => .inl rfl⟩)
  | @last _ _ branches _ hBranches hLast =>
    exact executeSelect_pushes hTree hModed hBranches hSize nofun
      (executePart_pushes hTree hModed hLast (isChoice_of_areOf hBranches)
        (by cases branches <;> simp [Branches.kind, ChoiceKind.last]) hSize)
  | @more _ _ _ branches _ hBranches hPart hRest ih =>
    have hMode := hModed.continuation _ _ _ (isChoice_of_areOf hBranches) hPart
      (by cases branches <;> simp [Branches.kind, ChoiceKind.more])
    refine executeSelect_pushes hTree hModed hBranches hSize ?_ (ih ?_)
    · rintro rfl
      cases hRest
    · rw [SyntaxTree.valueSize_eq_of_mode?_eq hMode]
      exact hSize

theorem inOrder_adds_zero {emit : α → Inline.Emission} {items : List α}
    (hEmit : ∀ item ∈ items, Gives scope False (emit item) fun body => Adds tree body 0) :
    Gives scope False (inOrder emit items) fun body => Adds tree body 0 := by
  induction items with
  | nil => exact .of_pure (.of_inner .nil)
  | cons item rest ih =>
    apply (hEmit item mem_cons_self).bind
    intro first hFirst
    apply (ih fun later hLater => hEmit later (mem_cons_of_mem _ hLater)).bind
    intro others hOthers
    exact .of_pure (hFirst.append hOthers)

/-
  A stack as a loop keeps it: back at the height where the
  loop began, which is the only one that was marked since.
-/
structure KeptFrom (mark : Temp) (stack next : Stack) : Prop where
  level : next.level = stack.level
  marked : next.marks mark = stack.level
  marks : ∀ other, next.marks other = stack.marks other ∨ next.marks other = stack.level

/- Every round of a loop goes back to where it began. -/
theorem loop_pushes (hBefore : Adds tree before 0) (hBody : Pushes tree body size)
    (hRefresh : Adds tree refresh 0) :
    Pushes tree [.saveStack mark, .loop header
          (before ++ body ++ .resetStack mark :: refresh)] 0 := by
  intro stack
  apply Leaves.step_cons rfl rfl
  have hStart : KeptFrom mark stack (stack.save mark) := by
    refine ⟨rfl, by simp [Stack.save], ?_⟩
    intro other
    by_cases hSame : other = mark
    · exact .inr (by simp [Stack.save, hSame])
    · exact .inl (by simp [Stack.save, hSame])
  have hLoop : Leaves tree [.loop header (before ++ body ++ .resetStack mark :: refresh)]
      (stack.save mark) (KeptFrom mark stack) := by
    refine .loop ?_ hStart
    intro next hNext
    rw [append_assoc]
    apply (hBefore next).append
    rintro _ rfl
    apply (hBody next).append
    rintro after ⟨-, hMarks⟩
    have hAfter : ∀ other, after.marks other = stack.marks other ∨
          after.marks other = stack.level := by
      intro other
      rcases hMarks other with hSame | hLevel
      · rw [hSame]
        exact hNext.marks other
      · exact .inr (hLevel.trans hNext.level)
    have hMarked : after.marks mark = stack.level := by
      rcases hMarks mark with hSame | hLevel
      · exact hSame.trans hNext.marked
      · exact hLevel.trans hNext.level
    apply Leaves.step_cons rfl rfl
    apply (hRefresh _).mono
    rintro _ rfl
    exact ⟨hMarked, hMarked, hAfter⟩
  apply hLoop.mono
  exact fun last hLast => ⟨hLast.level, hLast.marks⟩

theorem executeLimit_adds (header : LoopHeader) (limit : Option NodeId) :
    Gives scope False (executeLimit tree header limit) fun body => Adds tree body 0 := by
  cases limit with
  | none => exact .of_pure (.of_inner .nil)
  | some limit =>
    apply (yieldUnit_local limit).any_bind
    intro val
    exact .of_pure (.of_inner (.single rfl rfl))

theorem executeLoop_pushes (hTree : tree.Conforms) (hModed : tree.IsModed)
    (hPlan : plan.IsOf tree calls start) :
    Gives scope False (executeLoop tree id plan) fun body => Pushes tree body 0 := by
  rcases SyntaxTree.exists_node_of_children hPlan.children with ⟨node, hNode, -⟩
  rcases hTree.valueSize_ends hNode with ⟨size, hSize⟩
  have hRefresh : Adds tree (if plan.needsInitialisation then
        [Stmt.initialiseFrame plan.body.site] else []) 0 := by
    split
    · exact .of_step rfl fun _ => rfl
    · exact .of_inner .nil
  apply Gives.lift_bind
  intro counter _
  apply (inOrder_adds_zero fun bound _ => executeUnit_adds tree bound).bind
  intro bounds hBounds
  apply (boundValue_local plan.start).any_bind
  intro first
  apply (boundValue_local plan.step).any_bind
  intro step
  apply (executeLimit_adds _ plan.limit).bind
  intro limit hLimit
  apply (branch_gives (executeSerialClause_pushes hTree hModed hPlan hSize)).bind
  intro body hBody
  have hFetch : Adds tree (counter.toList.map fun entry =>
        Stmt.fetch entry.1 "A68_INT" entry.2) 0 := by
    cases counter with
    | none => exact .of_inner .nil
    | some entry => exact .of_step rfl fun _ => rfl
  have hSet : Adds tree (counter.toList.map fun entry => Stmt.setCounter entry.1
          ((plan.header id).temp "count")) 0 := by
    cases counter with
    | none => exact .of_inner .nil
    | some entry => exact .of_step rfl fun _ => rfl
  have hTemps : Adds tree [.compute ((plan.header id).temp "from") first,
        .compute ((plan.header id).temp "by") step] 0 :=
    .of_inner (.cons (.single rfl rfl) (.single rfl rfl))
  have hBefore := (((hBounds.append hTemps).append hLimit).append
    (openFrame_adds id plan.body.site plan.opensFrame)).append hFetch
  apply Gives.of_pure
  rw [append_assoc _ _ (closeFrame id plan.opensFrame)]
  apply Pushes.of_adds_append hBefore
  intro stack
  apply (loop_pushes hSet hBody hRefresh stack).append
  intro next hNext
  apply (closeFrame_adds id plan.opensFrame next).mono
  rintro _ rfl
  exact hNext

/- Arguments are pushed one after the other. -/
theorem pushArguments_adds (hTree : tree.Conforms)
    (hArgs : ∀ arg ∈ args, tree.mode? arg.1 = .ok (some arg.2)) :
    Gives scope False (pushArguments tree args) fun body => ∃ size, Adds tree body size := by
  induction args with
  | nil => exact .of_pure ⟨0, .of_inner .nil⟩
  | cons arg rest ih =>
    rcases arg with ⟨id, mode⟩
    have hMode := hArgs (id, mode) mem_cons_self
    rcases hTree.modes.byteSize_ends (hTree.inRange.mode?_lt hMode) with ⟨size, hSize⟩
    apply (pushValue_adds hSize id).bind
    intro push hPush
    apply (ih fun later hLater => hArgs later (mem_cons_of_mem _ hLater)).bind
    rintro others ⟨more, hOthers⟩
    exact .of_pure ⟨size + more, hPush.append hOthers⟩

/- Arguments are dropped before the routine gives its result. -/
theorem executeRoutineCall_pushes (hTree : tree.Conforms) {call : RoutineCall}
    (hArgs : ∀ arg ∈ call.arguments, tree.mode? arg.1 = .ok (some arg.2))
    (hSize : tree.modes.byteSize call.result = .ok size) :
    Gives scope False (executeRoutineCall tree id call) fun body => Pushes tree body size := by
  apply (inOrder_adds_zero fun arg _ => executeUnit_adds tree arg).bind
  intro body hBody
  apply (pushArguments_adds hTree hArgs).bind
  rintro pushes ⟨bytes, hPushes⟩
  apply Gives.of_pure
  rw [append_assoc]
  apply Pushes.of_adds_append hBody
  intro stack
  apply Leaves.step_cons rfl rfl
  apply (hPushes _).append
  rintro _ rfl
  have hRes : ∀ next : Stack,
      next.step tree (.executeUnit call.body call.result) = .ok (next.grow size) := by
    simp [Stack.step, hSize]
  iterate 4 apply Leaves.step_cons rfl rfl
  apply Leaves.step_cons rfl (hRes _)
  apply Leaves.step_cons rfl rfl
  apply Leaves.nil
  have hMark : ((stack.save (stackMark id)).grow bytes).marks (stackMark id) = stack.level := by
    simp [Stack.save, Stack.grow]
  refine ⟨congrArg (· + size) hMark, ?_⟩
  intro mark
  by_cases hSame : mark = stackMark id
  · subst hSame
    exact .inr hMark
  · exact .inl (by simp [Stack.save, Stack.grow, Stack.reset, hSame])

/- A tag, a value and padding fill a union. -/
theorem executeInjection_adds {injection : Injection}
    (hPart : tree.modes.byteSize injection.mode = .ok part) (hFits : 8 + part ≤ whole)
    (hPadding : injection.padding = whole - (8 + part)) :
    Gives scope False (executeInjection tree injection) fun body => Adds tree body whole := by
  apply (executeUnit_adds tree injection.operand).bind
  intro body hBody
  apply (pushValue_adds hPart injection.operand).bind
  intro push hPush
  have hTag : Adds tree [.pushUnion injection.alternative] 8 := .of_step rfl fun _ => rfl
  have hRest : Adds tree (if 0 < injection.padding then
        [Stmt.padStack injection.padding] else [])
      injection.padding := by
    split
    · exact .of_step rfl fun _ => rfl
    · rename_i hNone
      rw [Nat.eq_zero_of_not_pos hNone]
      exact .of_inner .nil
  have hAll := hBody.append (hTag.append (hPush.append hRest))
  have hWhole : 0 + (8 + (part + injection.padding)) = whole := by omega
  rw [hWhole] at hAll
  exact .of_pure hAll

------ Functions

theorem valueSize_eq_of_mode (hMode : tree.mode? id = .ok (some mode)) :
    tree.valueSize id = tree.modes.byteSize mode := by
  rw [SyntaxTree.valueSize, hMode]
  rfl

/- Members are pushed one after the other. -/
theorem inOrder_adds_sum {fields : List Field}
    (hModes : List.Forall₂ (fun member field => tree.mode? member = .ok (some field.mode))
      members fields)
    (hSizes : List.Forall₂ (fun field size => tree.modes.byteSize field.mode = .ok size)
      fields sizes) :
    Gives scope False (inOrder (executeValue tree) members)
      fun body => Adds tree body sizes.sum := by
  induction hModes generalizing sizes with
  | nil =>
    cases hSizes
    exact .of_pure (.of_inner .nil)
  | cons hMode _ ih =>
    cases hSizes with
    | cons hSize hRest =>
      apply (executeValue_adds ((valueSize_eq_of_mode hMode).trans hSize)).bind
      intro first hFirst
      apply (ih hRest).bind
      intro others hOthers
      exact .of_pure (hFirst.append hOthers)

/- The last of the members of a void collateral leaves nothing. -/
theorem itemSize_of_givesNothing (hNothing : Planner.givesNothing tree item.site.node = .ok true) :
    itemSize tree true item = .ok 0 := by
  have hSize := SyntaxTree.valueSize_of_givesNothing hNothing
  rcases item with ⟨site, kind⟩
  cases kind with
  | inline | call => exact hSize
  | declaration | allocation => rfl

/- The code of a node pushes the bytes of its mode. -/
theorem Drawn.pushes (hDrawn : Drawn tree calls id writer) (hTree : tree.Conforms)
    (hModed : tree.IsModed) (hSize : tree.valueSize id = .ok size) :
    Gives scope False writer.execute fun body => Pushes tree body size := by
  cases hDrawn with
  | serial hPlan hNode _ =>
    rw [← hNode] at hSize
    exact executeSerialClause_pushes hTree hModed hPlan hSize
  | closed hAttr hPlan hSub _ =>
    have hMode := hModed.closed id _ hAttr hSub
    rw [← SyntaxTree.valueSize_eq_of_mode?_eq hMode] at hSize
    exact executeSerialClause_pushes hTree hModed hPlan hSize
  | @display mode members hAttr hMode hStruct hMembers _ =>
    rcases Walk.bind_eq_ok.mp hStruct with ⟨kind, hKind, hFields⟩
    cases kind with
    | struct fields =>
      rw [valueSize_eq_of_mode hMode] at hSize
      rcases ModeTable.byteSize_struct hKind hSize with ⟨sizes, hSizes, rfl⟩
      have hModes := hModed.display id mode fields members hAttr hMode hKind hMembers
      exact (inOrder_adds_sum hModes hSizes).mono fun _ hAdds => hAdds.pushes
    | _ => cases hFields
  | @collateral mode plan hAttr hMode hVoid hPlan hNode _ _ =>
    rw [valueSize_eq_of_mode hMode, ModeTable.byteSize_void hVoid, Except.ok.injEq] at hSize
    subst hSize
    have hKids := hPlan.children
    rw [hNode] at hKids
    cases hLast : plan.items.getLast? with
    | none => exact absurd (getLast?_eq_none_iff.mp hLast) hPlan.nonempty
    | some last =>
      have hNothing := hModed.collateral id mode _ hAttr hMode hVoid hKids last.site.node
        (mem_map_of_mem (mem_of_getLast? hLast))
      exact executeSerial_pushes (fun item hItem => itemSizes_end hTree hPlan.children hItem false)
        hLast (itemSize_of_givesNothing hNothing)
  | choice _ _ hPlan _ => exact executeChoice_pushes hTree hModed hPlan hSize
  | loop hAttr hPlan _ =>
    have hNothing := SyntaxTree.valueSize_of_givesNothing (hModed.loop id hAttr)
    cases hSize.symm.trans hNothing
    exact executeLoop_pushes hTree hModed hPlan
  | routineCall hAttr hCallee hTag hProc hKind hArgs =>
    have hMode := hModed.call id _ _ _ _ hAttr hCallee hTag hProc hKind
    rw [valueSize_eq_of_mode hMode] at hSize
    exact executeRoutineCall_pushes hTree (fun arg hArg => (hArgs arg hArg).2) hSize
  | injection _ hMode hKind hMem hWhole hPart hPadding _ _ =>
    rw [valueSize_eq_of_mode hMode, hWhole, Except.ok.injEq] at hSize
    subst hSize
    exact (executeInjection_adds hPart (ModeTable.byteSize_union hKind hWhole hMem hPart)
      hPadding).mono fun _ hAdds => hAdds.pushes
  | constant hUnit hPush =>
    have hMode := SyntaxTree.mode?_eq hUnit.node
    rw [hUnit.moded] at hMode
    rw [valueSize_eq_of_mode hMode] at hSize
    rcases pushOf_eq hPush with ⟨form, rfl⟩
    exact .of_pure (Adds.of_push hSize form _).pushes
  | value _ => exact (executeValue_adds hSize).mono fun _ hAdds => hAdds.pushes

end Emission

namespace SyntaxTree

open Generator

variable {run : Run} {attr : Attribute}

theorem exists_node_of_recorded (hRec : run.IsRecorded tree)
    (hEntry : (id, name) ∈ run.context.compiled) : ∃ node, tree.node id = .ok node := by
  rcases hRec.ledger.named hEntry with ⟨attr, hAttr, -⟩ | ⟨node, _, _, hUnit, -⟩
  · rcases Walk.bind_eq_ok.mp hAttr with ⟨node, hNode, -⟩
    exact ⟨node, hNode⟩
  · exact ⟨node, hUnit.node⟩

theorem leaves_of_hasFunction (hTree : tree.Conforms) (hModed : tree.IsModed)
    (hSize : tree.valueSize id = .ok size) (hOf : run.HasFunction tree id func) (stack : Stack) :
    Stmt.Leaves tree func.body stack fun last => last.level = stack.level + size := by
  rcases hOf with ⟨writer, hDrawn, before, declared, next, -, -, hBody, -⟩
  have hPushes := (hDrawn.pushes hTree hModed hSize).of_run hBody
  exact (hPushes.1 stack).mono fun _ hLast => hLast.1

/-
  Whatever the options, every function is that of a node that was compiled, every such node other
  than a constant has one, and along every control path the function of a node pushes exactly the
  bytes of a value of the node.
-/
theorem Conforms.functions_push_values
    (hTree : tree.Conforms)
    (hModed : tree.IsModed)
    (options : Options) :
    ∃ run, tree.CompilesTo options run ∧
      (∀ function, .function function ∈ run.context.output →
        ∃ id, (id, function.name) ∈ run.context.compiled ∧ run.HasFunction tree id function) ∧
      (∀ id name, (id, name) ∈ run.context.compiled →
        (∃ node mode, IsConstantUnit tree id node mode) ∨
          ∃ function,
            .function function ∈ run.context.output ∧
              function.name = name ∧ run.HasFunction tree id function) ∧
      ∀ id name, (id, name) ∈ run.context.compiled →
        ∀ function, .function function ∈ run.context.output →
          run.HasFunction tree id function →
            ∃ size, tree.valueSize id = .ok size ∧
              ∀ steps, Stmt.PassesOf function.body steps →
                ∀ stack : Stack, ∃ last,
                  stack.after tree steps = .ok last ∧ last.level = stack.level + size := by
  rcases hTree.exists_compilesTo options with ⟨run, hRun⟩
  rcases hRun.compiles hTree.forest with ⟨hCompiles, hDrawn⟩
  refine ⟨run, hRun, hDrawn.functions, hDrawn.nodes, ?_⟩
  intro id name hEntry function _ hOf
  rcases exists_node_of_recorded hCompiles.isRecorded hEntry with
    ⟨node, hNode⟩
  rcases hTree.valueSize_ends hNode with ⟨size, hSize⟩
  exact ⟨size, hSize, fun steps hSteps stack =>
    leaves_of_hasFunction hTree hModed hSize hOf stack steps hSteps⟩

/- A choice between two numbers, one after an assignation. -/
def steppedChoice : SyntaxTree where
  nodes := Figure.nodes [.unit .conditionalClause ⟨1⟩
      [.ifPart (.ident ⟨3⟩ ⟨0⟩),
        .branch .thenPart ⟨1⟩ [.voided (.assign ⟨8⟩ ⟨1⟩ (.number "1")), .number "2"],
        .branch .elsePart ⟨1⟩ [.valueOf ⟨1⟩ ⟨8⟩ ⟨1⟩]]]
  tags := ⟨#[{ name := "b", mode := ⟨3⟩, kind := .identifier },
      { name := "x", mode := ⟨8⟩, kind := .var }]⟩
  root := some ⟨0⟩

/- It has three serial clauses, and other clauses than the choice it is none of. -/
theorem attr_steppedChoice (hAttr : steppedChoice.attr id = .ok attr) :
    attr ∉ [.closedClause, .elifPart, .caseClause, .ousePart, .collateralClause, .loopClause,
        .call] ∧ (attr = .conditionalClause → id = ⟨0⟩) ∧
      (attr = .serialClause → id = ⟨2⟩ ∨ id = ⟨5⟩ ∨ id = ⟨12⟩) ∧
      (attr ∈ [.thenPart, .elsePart, .outPart] → id = ⟨4⟩ ∨ id = ⟨11⟩) := by
  rcases Walk.bind_eq_ok.mp hAttr with ⟨node, hNode, -⟩
  rcases id with ⟨number⟩
  have hRange : number < 15 := Store.lt_size_of_fetch hNode
  have hAll := Attribute.mem_all attr
  clear hNode
  -- A check of every number and every attribute.
  revert hAttr; revert hAll; revert attr; revert hRange; revert number
  decide +kernel

/- Its branches and their last items are of its mode. -/
theorem isModed_steppedChoice : steppedChoice.IsModed where
  serial := by
    intro id kids last hAttr hKids hLast
    rcases (attr_steppedChoice hAttr).2.2.1 rfl with rfl | rfl | rfl
    all_goals
      cases hKids
      cases hLast
      refine ⟨rfl, ?_⟩
      rintro _ ⟨⟩
      rfl
  branch := by
    rintro id pos attr part serial ⟨clause, hClause, hChoice⟩ hPart hAttr hSerial
    have hNone := attr_steppedChoice hClause
    rcases hNone.2.1 (by grind) with rfl
    rcases (attr_steppedChoice hPart.attr).2.2.2 hAttr with rfl | rfl
    all_goals
      cases hSerial
      rfl
  continuation := fun _ _ _ _ hPart hAttr => absurd (by grind) (attr_steppedChoice hPart.attr).1
  closed := fun _ _ hAttr => absurd (by simp) (attr_steppedChoice hAttr).1
  alternative := fun _ _ _ _ hAttr hCase => absurd (by grind) (attr_steppedChoice hAttr).1
  display := fun _ _ _ _ hAttr => absurd (by simp) (attr_steppedChoice hAttr).1
  collateral := fun _ _ _ hAttr => absurd (by simp) (attr_steppedChoice hAttr).1
  loop := fun _ hAttr => absurd (by simp) (attr_steppedChoice hAttr).1
  call := fun _ _ _ _ _ hAttr => absurd (by simp) (attr_steppedChoice hAttr).1

theorem functions_push_values_steppedChoice :
    steppedChoice.Conforms ∧ steppedChoice.IsModed ∧
      ∃ run, steppedChoice.CompilesTo { level := 3 } run ∧
        (∀ function, .function function ∈ run.context.output →
          ∃ id, (id, function.name) ∈ run.context.compiled ∧
            run.HasFunction steppedChoice id function) ∧
        (∀ id name, (id, name) ∈ run.context.compiled →
          (∃ node mode,
            IsConstantUnit steppedChoice id node mode) ∨
            ∃ function,
              .function function ∈ run.context.output ∧
                function.name = name ∧ run.HasFunction steppedChoice id function) ∧
        ∀ id name, (id, name) ∈ run.context.compiled →
          ∀ function, .function function ∈ run.context.output →
            run.HasFunction steppedChoice id function →
              ∃ size, steppedChoice.valueSize id = .ok size ∧
                ∀ steps, Stmt.PassesOf function.body steps →
                  ∀ stack : Stack, ∃ last,
                    stack.after steppedChoice steps = .ok last ∧
                      last.level = stack.level + size := by
  have hTree : steppedChoice.Conforms := conforms_of_isOrderly (by decide +kernel)
  exact ⟨hTree, isModed_steppedChoice, hTree.functions_push_values isModed_steppedChoice _⟩

end SyntaxTree

end Algol68
