import Algol68.Inline
import Algol68.Proofs.Links

/-
  The statements that generated code is made of.

  The statements of a unit compute temporaries and store values. They do not touch the stack or
  the frames, and lead to no other node.
-/

------ Statements Within Statements

namespace Algol68

open List hiding after

namespace Stmt

mutual

/- A statement and all statements inside it. -/
def within : Stmt → List Stmt
  | .branch node guard yes no => .branch node guard yes no :: (withinOf yes ++ withinOf no)
  | .branchOnly guard yes => .branchOnly guard yes :: withinOf yes
  | .switch selector arms otherwise =>
    .switch selector arms otherwise :: (withinArms arms ++ withinOf otherwise)
  | .loop header body => .loop header body :: withinOf body
  | .block body => .block body :: withinOf body
  | stmt => [stmt]

/- Statements and all statements inside them. -/
def withinOf : List Stmt → List Stmt
  | [] => []
  | stmt :: rest => within stmt ++ withinOf rest

/- The statements of arms and all statements inside them. -/
def withinArms : List (List Stmt) → List Stmt
  | [] => []
  | arm :: rest => withinOf arm ++ withinArms rest

end

@[simp] theorem withinOf_nil : withinOf [] = [] := rfl

@[simp] theorem withinOf_cons (stmt : Stmt) (rest : List Stmt) :
    withinOf (stmt :: rest) = within stmt ++ withinOf rest :=
  rfl

@[simp] theorem withinOf_append (first second : List Stmt) :
    withinOf (first ++ second) = withinOf first ++ withinOf second := by
  induction first with
  | nil => rfl
  | cons stmt rest ih => rw [cons_append, withinOf_cons, ih, withinOf_cons, append_assoc]

theorem mem_withinArms : stmt ∈ withinArms arms ↔ ∃ arm ∈ arms, stmt ∈ withinOf arm := by
  induction arms with
  | nil => simp [withinArms]
  | cons arm rest ih => simp [withinArms, ih]

/- All statements of a list, and those inside, are of a kind. -/
def AllOf (holds : Stmt → Prop) (body : List Stmt) : Prop := ∀ stmt ∈ withinOf body, holds stmt

namespace AllOf

variable {guard : Expr}

theorem nil : AllOf holds [] := by
  intro stmt hStmt
  cases hStmt

theorem append (hFirst : AllOf holds first) (hSecond : AllOf holds second) :
    AllOf holds (first ++ second) := by
  intro stmt hStmt
  rw [withinOf_append] at hStmt
  rcases mem_append.mp hStmt with hLeft | hRight
  · exact hFirst stmt hLeft
  · exact hSecond stmt hRight

theorem cons (hStmt : AllOf holds [stmt]) (hSecond : AllOf holds second) :
    AllOf holds (stmt :: second) :=
  hStmt.append hSecond

theorem mono (hFirst : AllOf holds first) (hWeaker : ∀ stmt, holds stmt → weaker stmt) :
    AllOf weaker first :=
  fun stmt hStmt => hWeaker stmt (hFirst stmt hStmt)

theorem single (hWithin : within stmt = [stmt]) (hStmt : holds stmt) : AllOf holds [stmt] := by
  intro other hOther
  rw [withinOf_cons, hWithin] at hOther
  rcases mem_singleton.mp hOther with rfl
  exact hStmt

theorem branch (hBranch : holds (.branch node guard first second)) (hFirst : AllOf holds first)
    (hSecond : AllOf holds second) : AllOf holds [.branch node guard first second] := by
  intro stmt hStmt
  simp only [withinOf_cons, within, withinOf_nil, append_nil, mem_cons, mem_append] at hStmt
  rcases hStmt with rfl | hLeft | hRight
  · exact hBranch
  · exact hFirst stmt hLeft
  · exact hSecond stmt hRight

theorem branchOnly (hBranch : holds (.branchOnly guard first)) (hFirst : AllOf holds first) :
    AllOf holds [.branchOnly guard first] := by
  intro stmt hStmt
  simp only [withinOf_cons, within, withinOf_nil, append_nil, mem_cons] at hStmt
  rcases hStmt with rfl | hLeft
  · exact hBranch
  · exact hFirst stmt hLeft

theorem switch (hSwitch : holds (.switch sel arms second)) (hArms : ∀ arm ∈ arms, AllOf holds arm)
    (hSecond : AllOf holds second) : AllOf holds [.switch sel arms second] := by
  intro stmt hStmt
  simp only [withinOf_cons, within, withinOf_nil, append_nil, mem_cons, mem_append,
    mem_withinArms] at hStmt
  rcases hStmt with rfl | ⟨arm, hArm, hLeft⟩ | hRight
  · exact hSwitch
  · exact hArms arm hArm stmt hLeft
  · exact hSecond stmt hRight

theorem loop (hLoop : holds (.loop header first)) (hFirst : AllOf holds first) :
    AllOf holds [.loop header first] := by
  intro stmt hStmt
  simp only [withinOf_cons, within, withinOf_nil, append_nil, mem_cons] at hStmt
  rcases hStmt with rfl | hLeft
  · exact hLoop
  · exact hFirst stmt hLeft

theorem block (hBlock : holds (.block first)) (hFirst : AllOf holds first) :
    AllOf holds [.block first] := by
  intro stmt hStmt
  simp only [withinOf_cons, within, withinOf_nil, append_nil, mem_cons] at hStmt
  rcases hStmt with rfl | hLeft
  · exact hBlock
  · exact hFirst stmt hLeft

end AllOf

end Stmt

------ What Passes Give

variable {id : NodeId}

/- What the later passes over a unit read of a context, bookings aside. -/
structure Scope where
  checked : Bool
  hasher : Hasher
  folded : Folded

namespace Context

def scope (context : Context) : Scope where
  checked := context.options.checked
  hasher := context.options.hasher
  folded := context.folded

/- The context with other bookings. -/
def booked (context : Context) (bookings : Bookings) : Context :=
  { context with
    bookings := bookings }

variable {ctx other : Context} (hScope : ctx.scope = other.scope)

include hScope

theorem checked_congr : ctx.options.checked = other.options.checked := congrArg Scope.checked hScope

theorem folded_congr : ctx.folded = other.folded := congrArg Scope.folded hScope

theorem hasher_congr : ctx.options.hasher = other.options.hasher := congrArg Scope.hasher hScope

end Context

namespace Inline

variable {tree : SyntaxTree} {scope : Scope} {still : Prop} {α β : Type}

/-
  Whatever a step gives is as described. It reads nothing of the context but its scope and its
  bookings, and changes nothing but the bookings, which it keeps if `still` holds.
-/
def Gives (scope : Scope) (still : Prop) (step : Context.Task α) (post : α → Prop) : Prop :=
  ∀ before, ∃ result : Walk (α × Bookings),
    (∀ ctx : Context, ctx.scope = scope → step.run (ctx.booked before) =
        (fun found => (found.1, ctx.booked found.2)) <$> result) ∧
      ∀ value after, result = .ok (value, after) → post value ∧ (still → after = before)

variable {step : Context.Task α} {rest : α → Context.Task β}

namespace Gives

theorem of_pure (hPost : post val) : Gives scope still (pure val) post := by
  intro before
  refine ⟨.ok (val, before), fun _ _ => rfl, ?_⟩
  intro value after hSame
  cases hSame
  exact ⟨hPost, fun _ => rfl⟩

theorem mono (hStep : Gives scope still step strong) (hPost : ∀ val, strong val → post val) :
    Gives scope still step post := by
  intro before
  rcases hStep before with ⟨result, hRun, hResult⟩
  refine ⟨result, hRun, ?_⟩
  intro value after hSame
  rcases hResult value after hSame with ⟨hStrong, hStill⟩
  exact ⟨hPost value hStrong, hStill⟩

theorem bind (hStep : Gives scope still step post)
    (hRest : ∀ val, post val → Gives scope still (rest val) after) :
    Gives scope still (step >>= rest) after := by
  intro before
  rcases hStep before with ⟨result, hRun, hResult⟩
  cases result with
  | error fault =>
    refine ⟨.error fault, ?_, nofun⟩
    intro ctx hScope
    rw [StateT.run_bind, hRun ctx hScope]
    rfl
  | ok found =>
    rcases hResult found.1 found.2 rfl with ⟨hPost, hStill⟩
    rcases hRest found.1 hPost found.2 with ⟨last, hLast, hAfter⟩
    refine ⟨last, ?_, ?_⟩
    · intro ctx hScope
      rw [StateT.run_bind, hRun ctx hScope]
      exact hLast ctx hScope
    · intro value bookings hSame
      rcases hAfter value bookings hSame with ⟨hVal, hMore⟩
      exact ⟨hVal, fun hBoth => (hMore hBoth).trans (hStill hBoth)⟩

theorem any_bind (hStep : Gives scope still step fun _ => True)
    (hRest : ∀ val, Gives scope still (rest val) after) : Gives scope still (step >>= rest) after :=
  hStep.bind fun val _ => hRest val

theorem of_lift {walk : Walk α} (hWalk : ∀ val, walk = .ok val → post val) :
    Gives scope still (liftM walk) post := by
  cases hVal : walk with
  | ok val => exact of_pure (hWalk val hVal)
  | error fault => exact fun _ => ⟨.error fault, fun _ _ => rfl, nofun⟩

theorem lift_bind {walk : Walk α}
    (hRest : ∀ val, walk = .ok val → Gives scope still (rest val) after) :
    Gives scope still (liftM walk >>= rest) after :=
  (of_lift fun _ hVal => hVal).bind hRest

/- What is read of the context is in its scope or its bookings. -/
theorem get_bind {rest : Context → Context.Task β}
    (hSame : ∀ ctx other : Context, ctx.scope = other.scope → ctx.bookings = other.bookings →
      rest ctx = rest other)
    (hRest : ∀ ctx : Context, ctx.scope = scope → Gives scope still (rest ctx) after) :
    Gives scope still (get >>= rest) after := by
  intro before
  by_cases hSome : ∃ ctx : Context, ctx.scope = scope
  · rcases hSome with ⟨ctx, hScope⟩
    rcases hRest (ctx.booked before) hScope before with ⟨result, hRun, hResult⟩
    refine ⟨result, ?_, hResult⟩
    intro other hOther
    rw [hSame (ctx.booked before) (other.booked before) (hScope.trans hOther.symm) rfl] at hRun
    exact hRun other hOther
  · exact ⟨.error .unbounded, fun ctx hScope => absurd ⟨ctx, hScope⟩ hSome, nofun⟩

theorem of_violation (tree : SyntaxTree) (id : NodeId) (invariant : Invariant) :
    Gives scope still (liftM (tree.violation id invariant : Walk α)) post := by
  apply of_lift
  intro val hVal
  rcases Walk.bind_eq_ok.mp hVal with ⟨node, -, hThrow⟩
  cases hThrow

theorem mapM {items : List α} {step : α → Context.Task β}
    (hStep : ∀ item ∈ items, Gives scope still (step item) post) :
    Gives scope still (items.mapM step) fun values => ∀ value ∈ values, post value := by
  induction items with
  | nil => exact .of_pure nofun
  | cons item rest ih =>
    rw [List.mapM_cons]
    apply (hStep item List.mem_cons_self).bind
    intro value hVal
    apply (ih fun other hOther => hStep other (List.mem_cons_of_mem _ hOther)).bind
    intro values hVals
    exact .of_pure (List.forall_mem_cons.mpr ⟨hVal, hVals⟩)

theorem of_booking (change : Bookings → Bookings) :
    Gives scope False (modify fun ctx => { ctx with bookings := change ctx.bookings })
      fun _ => True :=
  fun before => ⟨.ok (⟨⟩, change before), fun _ _ => rfl, fun _ _ _ => ⟨trivial, False.elim⟩⟩

/- What a run changes is the bookings. -/
theorem of_run {ctx next : Context} (hStep : Gives ctx.scope still step post)
    (hRun : step.run ctx = .ok (value, next)) :
    post value ∧ next = ctx.booked next.bookings ∧ (still → next = ctx) := by
  rcases hStep ctx.bookings with ⟨result, hSame, hResult⟩
  have hFound := (hSame ctx rfl).symm.trans hRun
  cases result with
  | error fault => cases hFound
  | ok found =>
    cases hFound
    rcases hResult found.1 found.2 rfl with ⟨hPost, hStill⟩
    refine ⟨hPost, rfl, ?_⟩
    intro hBoth
    rw [hStill hBoth]
    rfl

end Gives

/- What is kept by appending holds of emissions in order. -/
theorem inOrder_gives (hNil : good [])
    (hAppend : ∀ {first second}, good first → good second → good (first ++ second))
    (hEmit : ∀ item ∈ items, Gives scope False (emit item) good) :
    Gives scope False (inOrder emit items) good := by
  induction items with
  | nil => exact .of_pure hNil
  | cons item rest ih =>
    apply (hEmit item List.mem_cons_self).bind
    intro first hFirst
    apply (ih fun other hOther => hEmit other (List.mem_cons_of_mem _ hOther)).bind
    intro others hOthers
    exact .of_pure (hAppend hFirst hOthers)

theorem branch_gives (hEmission : Gives scope False emission post) :
    Gives scope False (branch emission) post := by
  refine .get_bind (fun ctx other _ hBookings => by rw [hBookings]) fun ctx _ => ?_
  apply hEmission.bind
  intro body hBody
  exact (Gives.of_booking fun bookings => bookings.take _).any_bind fun _ => .of_pure hBody

end Inline

------ Arrays in Code

/- The array that a value is kept in, if it is complex. -/
def Value.array? : Value → Option String
  | .complex re im => some (pairName re im)
  | _ => none

namespace Expr

mutual

/- The arrays that an expression refers to. -/
def arrays : Expr → List String
  | .constant folded => folded.array?.toList
  | .apply _ operands => arraysOf operands
  | .toReal operand => arrays operand
  | .sameName _ left right => arrays left ++ arrays right
  | .choose _ guard yes no => arrays guard ++ (arrays yes ++ arrays no)
  | _ => []

/- The arrays that expressions refer to. -/
def arraysOf : List Expr → List String
  | [] => []
  | expr :: rest => arrays expr ++ arraysOf rest

end

theorem mem_arraysOf : array ∈ arraysOf ops ↔ ∃ op ∈ ops, array ∈ op.arrays := by
  induction ops with
  | nil => simp [arraysOf]
  | cons op rest ih => simp [arraysOf, ih]

end Expr

/- The arrays of the constants of a function. -/
def Folded.arrays (folded : Folded) : List String :=
  folded.filterMap fun entry => entry.2.bind Value.array?

/- A constant that was found has its array among them. -/
theorem Folded.mem_arrays {folded : Folded} (hFound : folded.lookup id = some (some value))
    (hArray : value.array? = some array) : array ∈ folded.arrays := by
  induction folded with
  | nil => cases hFound
  | cons entry rest ih =>
    rcases entry with ⟨other, found⟩
    rw [List.lookup_cons] at hFound
    split at hFound
    · cases hFound
      simp [arrays, hArray]
    · have hRest := ih hFound
      simp only [arrays, List.filterMap_cons] at hRest ⊢
      split
      · exact hRest
      · exact List.mem_cons_of_mem _ hRest

------ What Units Yield

namespace Inline

/- An expression refers to arrays of constants found before. -/
def Refers (scope : Scope) (expr : Expr) : Prop :=
  ∀ array ∈ expr.arrays, array ∈ scope.folded.arrays

theorem refers_of_none (hNone : expr.arrays = []) : Refers scope expr := by
  intro array hArray
  rw [hNone] at hArray
  cases hArray

theorem refers_apply (hOps : ∀ op ∈ ops, Refers scope op) :
    Refers scope (.apply rendering ops) := by
  intro array hArray
  rcases Expr.mem_arraysOf.mp hArray with ⟨op, hOp, hMem⟩
  exact hOps op hOp array hMem

theorem refers_sameName (hLeft : Refers scope left) (hRight : Refers scope right) :
    Refers scope (.sameName same left right) := by
  intro array hArray
  rcases List.mem_append.mp hArray with hFirst | hSecond
  · exact hLeft array hFirst
  · exact hRight array hSecond

theorem refers_choose {guard : Expr} (hGuard : Refers scope guard) (hYes : Refers scope yes)
    (hNo : Refers scope no) : Refers scope (.choose id guard yes no) := by
  intro array hArray
  rcases List.mem_append.mp hArray with hFirst | hRest
  · exact hGuard array hFirst
  · rcases List.mem_append.mp hRest with hSecond | hThird
    · exact hYes array hSecond
    · exact hNo array hThird

theorem valueOf_refers (hVal : valueOf tree mode ptr = .ok value) : Refers scope value := by
  rcases Walk.bind_eq_ok.mp hVal with ⟨kind, -, hVal⟩
  split at hVal
  · cases hVal
    exact refers_of_none rfl
  · split at hVal
    · cases hVal
      exact refers_of_none rfl
    · cases hVal
      exact refers_of_none rfl

theorem yieldConstant_gives : Gives scope still (yieldConstant tree id) (Refers scope) := by
  refine .get_bind (fun ctx other hScope _ => by rw [Context.folded_congr hScope]) ?_
  rintro ctx rfl
  split
  · rename_i found hFound
    apply Gives.of_pure
    intro array hArray
    exact Folded.mem_arrays hFound (Option.mem_toList.mp hArray)
  · exact .of_violation _ _ _
  · exact .of_violation _ _ _

theorem yieldPointer_gives (ptr : Pointer) :
    Gives scope still (yieldPointer tree ptr) fun _ => True := by
  refine .get_bind ?_ fun ctx _ => .lift_bind fun owner _ => .of_pure trivial
  intro ctx other hScope hBookings
  rw [Context.ownerOf, Context.ownerOf, hBookings, Context.hasher_congr hScope]

theorem yieldAddress_gives : Gives scope still (yieldAddress tree id) fun _ => True := by
  apply Gives.lift_bind
  intro attr _
  split
  · exact .lift_bind fun named _ => yieldPointer_gives named.pointer
  · exact .lift_bind fun elem _ => yieldPointer_gives elem.pointer
  · exact .lift_bind fun component _ => yieldPointer_gives component.pointer
  · exact .of_violation _ _ _

theorem valueOf_gives (mode : ModeId) (ptr : Temp) :
    Gives scope still (liftM (valueOf tree mode ptr)) (Refers scope) :=
  .of_lift fun _ hVal => valueOf_refers hVal

theorem yieldDereferencing_gives :
    Gives scope still (yieldDereferencing tree id) (Refers scope) := by
  apply Gives.lift_bind
  intro op _
  apply Gives.lift_bind
  intro mode _
  apply Gives.lift_bind
  intro attr _
  split
  · exact .lift_bind fun named _ => (yieldPointer_gives _).any_bind (valueOf_gives mode)
  · exact yieldAddress_gives.any_bind (valueOf_gives mode)
  · exact yieldAddress_gives.any_bind (valueOf_gives mode)
  · exact (Gives.of_violation _ _ _).any_bind (valueOf_gives mode)

theorem yieldPart_gives : Gives scope still (yieldPart tree id) (Refers scope) := by
  apply yieldAddress_gives.any_bind
  intro ptr
  apply Gives.lift_bind
  intro mode _
  apply Gives.lift_bind
  rintro (_ | target) _
  · exact valueOf_gives mode ptr
  · exact .of_pure (refers_of_none rfl)

section Parts

variable {unit : NodeId → Context.Task Expr}
variable (hUnit : ∀ kid, Gives scope still (unit kid) (Refers scope))

include hUnit

theorem yieldOperation_gives : Gives scope still (yieldOperation tree unit id) (Refers scope) := by
  refine .get_bind (fun ctx other hScope _ => by rw [Context.checked_congr hScope]) fun ctx _ => ?_
  apply Gives.lift_bind
  intro operation _
  split
  · exact .of_pure (refers_of_none rfl)
  · apply (Gives.mapM fun kid _ => hUnit kid).bind
    intro ops hOps
    exact .of_pure (refers_apply hOps)

theorem yieldWidening_gives : Gives scope still (yieldWidening tree unit id) (Refers scope) := by
  apply Gives.lift_bind
  rintro ⟨op, isComplex⟩ _
  cases isComplex with
  | true => exact .of_pure (refers_of_none rfl)
  | false =>
    apply (hUnit op).bind
    intro inner hInner
    exact .of_pure hInner

theorem yieldShape_gives (node : Node) :
    Gives scope still (yieldShape tree unit id node) (Refers scope) := by
  have hOnly : Gives scope still (do unit (← childOf tree id 0)) (Refers scope) :=
    .lift_bind fun kid _ => hUnit kid
  unfold yieldShape
  split
  case h_1 =>
    apply Gives.lift_bind
    intro named _
    apply (yieldPointer_gives named.pointer).any_bind
    intro ptr
    exact .lift_bind fun mode _ => valueOf_gives mode ptr
  case h_2 => exact yieldDereferencing_gives
  case h_3 | h_4 => exact yieldPart_gives
  case h_5 | h_6 | h_7 => exact yieldOperation_gives hUnit
  case h_8 => exact .lift_bind fun builtin _ => .of_pure (refers_of_none rfl)
  case h_9 | h_10 | h_11 => exact hOnly
  case h_12 => exact yieldWidening_gives hUnit
  case h_13 =>
    apply Gives.lift_bind
    intro relation _
    apply (hUnit relation.left).bind
    intro left hLeft
    apply (hUnit relation.right).bind
    intro right hRight
    exact .of_pure (refers_sameName hLeft hRight)
  case h_14 => exact .of_pure (refers_of_none rfl)
  case h_15 | h_16 =>
    apply Gives.lift_bind
    intro choice _
    apply (hUnit choice.guard).bind
    intro guard hGuard
    apply (hUnit choice.yes).bind
    intro yes hYes
    apply (hUnit choice.no).bind
    intro no hNo
    exact .of_pure (refers_choose hGuard hYes hNo)
  case h_17 => exact .lift_bind fun display _ => .of_pure (refers_of_none rfl)
  case h_18 =>
    apply Gives.lift_bind
    rintro ⟨destination, source⟩ _
    exact yieldAddress_gives.any_bind fun ptr => .of_pure (refers_of_none rfl)
  case h_19 =>
    apply Gives.lift_bind
    intro kid _
    apply (hUnit kid).bind
    intro inner _
    exact .of_pure (refers_of_none rfl)
  case h_20 => exact .of_violation _ _ _

end Parts

theorem yieldWithin_gives : Gives scope still (yieldWithin tree fuel id) (Refers scope) := by
  induction fuel generalizing id with
  | zero => exact fun _ => ⟨.error .unbounded, fun _ _ => rfl, nofun⟩
  | succ fuel ih =>
    apply Gives.lift_bind
    intro node _
    apply Gives.lift_bind
    intro isFolded _
    split
    · exact yieldConstant_gives
    · exact yieldShape_gives (fun _ => ih) node

/- What units yield is as described, and so is what uses it. -/
structure Yields (tree : SyntaxTree) (scope : Scope) (good : Expr → Prop) : Prop where
  yielded : ∀ id, Gives scope False (yieldUnit tree id) good
  apply : ∀ rendering operands, (∀ operand ∈ operands, good operand) →
      good (.apply rendering operands)

theorem yields_arrays (tree : SyntaxTree) (scope : Scope) : Yields tree scope (Refers scope) :=
  ⟨fun _ => yieldWithin_gives, fun _ _ => refers_apply⟩

theorem yields_any (tree : SyntaxTree) (scope : Scope) : Yields tree scope fun _ => True :=
  ⟨fun _ => yieldWithin_gives.mono fun _ _ => trivial, fun _ _ _ => trivial⟩

theorem yieldedAll_gives (hYields : Yields tree scope good) {ids : List NodeId} :
    Gives scope False (ids.mapM (yieldUnit tree)) fun values => ∀ value ∈ values, good value :=
  .mapM fun id _ => hYields.yielded id

end Inline

------ The Statements of Units

/-
  A statement that computes temporaries or stores a value. A
  conditional one is such a statement if those inside it are.
-/
def Stmt.isInner : Stmt → Bool
  | .fetch _ _ _ | .deref _ _ _ | .checkInitialised _ _
  | .element _ _ _ _ | .component _ _ _ | .field _ _ _ _
  | .compute _ _ | .computeInto _ _ _ | .checkMath _ _
  | .setPair _ _ _ | .initialiseField _ _ _
  | .setField _ _ _ _ | .store _ _ _ | .branch _ _ _ _ => true
  | _ => false

/- All statements of a list, and those inside, are inner ones. -/
abbrev Stmt.AreInner : List Stmt → Prop := Stmt.AllOf fun stmt => stmt.isInner = true

/- The expressions that a statement evaluates. -/
def Stmt.operands : Stmt → List Expr
  | .element _ _ _ indices => indices
  | .compute _ value | .push _ _ value => [value]
  | .computeInto _ _ operands => operands
  | .setPair _ re im => re :: im.toList
  | .setField _ _ _ value => [value]
  | .store _ _ value => [value]
  | .branch _ guard _ _ | .branchOnly guard _ => [guard]
  | .switch selector _ _ => [selector]
  | _ => []

/- The arrays that a function refers to. -/
def Function.arrays (function : Function) : List String :=
  (Stmt.withinOf function.body).flatMap fun stmt => Expr.arraysOf stmt.operands

/- Whether a statement stores a value in an object. -/
def Stmt.isStore : Stmt → Bool
  | .store _ _ _ => true
  | _ => false

/- They are inner ones whose expressions are as described, and stores are among them if so. -/
abbrev Stmt.AreInnerOf (good : Expr → Prop) (stores : Prop) : List Stmt → Prop :=
  Stmt.AllOf fun stmt => stmt.isInner = true ∧ (∀ operand ∈ stmt.operands, good operand) ∧
      (stmt.isStore = true → stores)

theorem Stmt.AllOf.areInner (hBody : Stmt.AreInnerOf good stores body) : Stmt.AreInner body :=
  hBody.mono fun _ hStmt => hStmt.1

variable (tree : SyntaxTree)

namespace SyntaxTree

open Inline

/- A unit is an index of a slice. -/
def IndexOf (id kid : NodeId) : Prop :=
  tree.attr id = .ok .slice ∧ ∃ element, elementOf tree id = .ok element ∧ kid ∈ element.indices

/- The units that the passes over a unit go through next. -/
def PartOf (id : NodeId) (attr : Attribute) (kid : NodeId) : Prop :=
  match attr with
  | .slice | .selection => tree.IndexOf id kid
  | .dereferencing => ∃ operand, childOf tree id 0 = .ok operand ∧ tree.IndexOf operand kid
  | .formula | .monadicFormula | .call =>
    ∃ checked operation, operationOf tree checked id = .ok operation ∧ kid ∈ operation.operands
  | .cast | .closedClause | .serialClause | .voiding => childOf tree id 0 = .ok kid
  | .widening => ∃ isComplex, wideningOf tree id = .ok (kid, isComplex)
  | .identityRelation =>
    ∃ relation, relationOf tree id = .ok relation ∧ (kid = relation.left ∨ kid = relation.right)
  | .conditionalClause | .elifPart => ∃ choice, choiceOf tree id = .ok choice ∧
      (kid = choice.guard ∨ kid = choice.yes ∨ kid = choice.no)
  | .collateralClause => ∃ display, displayOf tree id = .ok display ∧ kid ∈ display.members
  | .assignation => ∃ destination source, assignationOf tree id = .ok (destination, source) ∧
      (kid = source ∨ tree.IndexOf destination kid)
  | _ => False

/- The units that the passes over a unit come to. -/
def Inlines : NodeId → NodeId → Prop :=
  Relation.ReflTransGen fun id kid => ∃ attr, tree.attr id = .ok attr ∧ tree.PartOf id attr kid

end SyntaxTree

namespace Inline

open Stmt

/- The parts of a unit give what is described. -/
abbrev PartsGive (tree : SyntaxTree) (scope : Scope) (unit : NodeId → Emission) (id : NodeId)
    (attr : Attribute) (post : List Stmt → Prop) : Prop :=
  ∀ kid, tree.PartOf id attr kid → Gives scope False (unit kid) post

variable {store : Stmt} {tree : SyntaxTree}

variable {unit : NodeId → Emission}

theorem areInnerOf_all (hWithin : stmt.within = [stmt]) (hInner : stmt.isInner = true)
    (hOther : stmt.isStore = false) (hAll : ∀ op ∈ stmt.operands, good op) :
    AreInnerOf good stores [stmt] :=
  .single hWithin ⟨hInner, hAll, by simp [hOther]⟩

theorem areInnerOf_single (hWithin : stmt.within = [stmt]) (hInner : stmt.isInner = true)
    (hOther : stmt.isStore = false) (hNone : stmt.operands = []) :
    AreInnerOf good stores [stmt] := by
  refine areInnerOf_all hWithin hInner hOther ?_
  rw [hNone]
  exact nofun

theorem areInnerOf_one (hWithin : stmt.within = [stmt]) (hInner : stmt.isInner = true)
    (hOther : stmt.isStore = false) (hOne : stmt.operands = [val]) (hVal : good val) :
    AreInnerOf good stores [stmt] := by
  refine areInnerOf_all hWithin hInner hOther ?_
  rw [hOne]
  exact forall_mem_singleton.mpr hVal

theorem checkInitialised_inner (hCheck : checkInitialised tree checked ptr mode = .ok check) :
    AreInnerOf good stores check := by
  unfold checkInitialised at hCheck
  split at hCheck
  · rcases Walk.bind_eq_ok.mp hCheck with ⟨isPrimitive, -, hCheck⟩
    split at hCheck
    · rcases Walk.bind_eq_ok.mp hCheck with ⟨name, -, hCheck⟩
      cases hCheck
      exact areInnerOf_single rfl rfl rfl rfl
    · cases hCheck
      exact .nil
  · cases hCheck
    exact .nil

theorem checkInitialised_bind {rest : List Stmt → Emission}
    (hRest : ∀ check, AreInnerOf good stores check →
      Gives scope False (rest check) post) :
    Gives scope False (do
        let check ← checkInitialised tree (← get).options.checked ptr mode
        rest check)
      post :=
  .get_bind (fun ctx other hScope _ => by rw [Context.checked_congr hScope])
    fun ctx _ => .lift_bind fun check hCheck => hRest check (checkInitialised_inner hCheck)

theorem executePointer_gives
    (hStatements : ∀ temp, Gives scope False (statements temp) (AreInnerOf good stores)) :
    Gives scope False (executePointer tree ptr statements) (AreInnerOf good stores) := by
  refine .get_bind ?_ fun ctx _ => ?_
  · intro ctx other hScope hBookings
    simp only [Context.signedIn?, Context.ownerOf, hBookings, Context.hasher_congr hScope]
  · apply Gives.lift_bind
    rintro (_ | booking) _
    · apply Gives.lift_bind
      intro owner _
      apply (hStatements _).bind
      intro body hBody
      exact (Gives.of_booking (·.signIn ptr.address .execute owner)).any_bind
        fun _ => .of_pure hBody
    · exact .of_pure .nil

theorem executeNamed_gives (named : Named) :
    Gives scope False (executeNamed tree named) (AreInnerOf good stores) := by
  apply executePointer_gives
  intro temp
  cases named.object with
  | none => exact .of_pure (areInnerOf_single rfl rfl rfl rfl)
  | some object =>
    apply checkInitialised_bind
    intro check hCheck
    exact .of_pure (.cons (areInnerOf_single rfl rfl rfl rfl) hCheck)

theorem executeElement_gives (hYields : Yields tree scope good)
    (hUnit : ∀ elem, elementOf tree id = .ok elem →
      ∀ kid ∈ elem.indices, Gives scope False (unit kid) (AreInnerOf good stores)) :
    Gives scope False (executeElement tree unit id) (AreInnerOf good stores) := by
  apply Gives.lift_bind
  intro elem hElem
  apply executePointer_gives
  intro temp
  apply Gives.lift_bind
  intro base _
  apply (executeNamed_gives base).bind
  intro first hFirst
  apply (inOrder_gives .nil .append (hUnit elem hElem)).bind
  intro others hOthers
  apply Gives.lift_bind
  intro again _
  apply (yieldPointer_gives again.pointer).any_bind
  intro row
  apply (yieldedAll_gives hYields).bind
  intro indices hIndices
  exact .of_pure ((hFirst.append hOthers).append (areInnerOf_all rfl rfl rfl hIndices))

theorem executeComponent_gives :
    Gives scope False (executeComponent tree id) (AreInnerOf good stores) := by
  apply Gives.lift_bind
  intro component _
  apply executePointer_gives
  intro temp
  apply Gives.lift_bind
  intro base _
  apply (executeNamed_gives base).bind
  intro first hFirst
  apply Gives.lift_bind
  intro again _
  apply (yieldPointer_gives again.pointer).any_bind
  intro object
  split
  · exact .of_pure (hFirst.append (areInnerOf_single rfl rfl rfl rfl))
  · apply Gives.lift_bind
    intro offset _
    exact .of_pure (hFirst.append (areInnerOf_single rfl rfl rfl rfl))

variable (hYields : Yields tree scope good)

include hYields

theorem executeAddress_gives
    (hUnit : ∀ kid, tree.IndexOf id kid → Gives scope False (unit kid) (AreInnerOf good stores)) :
    Gives scope False (executeAddress tree unit id) (AreInnerOf good stores) := by
  apply Gives.lift_bind
  intro attr hAttr
  split
  · apply Gives.lift_bind
    intro named _
    exact executeNamed_gives named
  · exact executeElement_gives hYields fun elem hElem kid hKid =>
      hUnit kid ⟨hAttr, elem, hElem, hKid⟩
  · exact executeComponent_gives
  · exact .of_violation _ _ _

theorem executeDereferencing_gives
    (hUnit : PartsGive tree scope unit id .dereferencing (AreInnerOf good stores)) :
    Gives scope False (executeDereferencing tree unit id) (AreInnerOf good stores) := by
  have hObj : ∀ op mode, childOf tree id 0 = .ok op → Gives scope False (do
          let body ← executeAddress tree unit op
          let ptr ← yieldAddress tree op
          let check ← checkInitialised tree (← get).options.checked ptr mode
          pure (body ++ check))
        (AreInnerOf good stores) := by
    intro op mode hOp
    apply (executeAddress_gives hYields fun kid hKid => hUnit kid ⟨op, hOp, hKid⟩).bind
    intro body hBody
    apply yieldAddress_gives.any_bind
    intro ptr
    apply checkInitialised_bind
    intro check hCheck
    exact .of_pure (hBody.append hCheck)
  apply Gives.lift_bind
  intro op hOp
  apply Gives.lift_bind
  intro mode _
  apply Gives.lift_bind
  intro attr _
  split
  · apply Gives.lift_bind
    intro named _
    exact executeNamed_gives named
  · exact hObj op mode hOp
  · exact hObj op mode hOp
  · exact .of_violation _ _ _

theorem executeOperation_gives
    (hUnit : PartsGive tree scope unit id .formula (AreInnerOf good stores)) :
    Gives scope False (executeOperation tree unit id) (AreInnerOf good stores) := by
  refine .get_bind (fun ctx other hScope _ => by rw [Context.checked_congr hScope]) fun ctx _ => ?_
  apply Gives.lift_bind
  intro operation hOperation
  apply (inOrder_gives .nil .append fun kid hKid => hUnit kid ⟨_, operation, hOperation, hKid⟩).bind
  intro body hBody
  cases operation.result with
  | none => exact .of_pure hBody
  | some res =>
    apply (yieldedAll_gives hYields).bind
    intro ops hOps
    have hPlain : ∀ rendering, Gives scope False
      (pure (body ++ [.compute res.temp (.apply rendering ops),
            .checkMath res.temp operation.builtin.name]))
        (AreInnerOf good stores) := by
      intro rendering
      have hApply := hYields.apply rendering ops hOps
      exact .of_pure (hBody.append (.cons (areInnerOf_one rfl rfl rfl rfl hApply)
          (areInnerOf_single rfl rfl rfl rfl)))
    cases operation.builtin.signature.rendering with
    | out func => exact .of_pure (hBody.append (areInnerOf_all rfl rfl rfl hOps))
    | infixOp op | prefixOp | call | constant => exact hPlain _

theorem executeWidening_gives
    (hUnit : PartsGive tree scope unit id .widening (AreInnerOf good stores)) :
    Gives scope False (executeWidening tree unit id) (AreInnerOf good stores) := by
  apply Gives.lift_bind
  rintro ⟨op, isComplex⟩ hWidening
  apply (hUnit op ⟨isComplex, hWidening⟩).bind
  intro body hBody
  cases isComplex with
  | false => exact .of_pure hBody
  | true =>
    apply (hYields.yielded op).bind
    intro re hRe
    exact .of_pure (hBody.append (areInnerOf_one rfl rfl rfl rfl hRe))

theorem executeChoice_gives
    (hUnit : PartsGive tree scope unit id .conditionalClause (AreInnerOf good stores)) :
    Gives scope False (executeChoice tree unit id) (AreInnerOf good stores) := by
  apply Gives.lift_bind
  intro choice hChoice
  apply (hUnit choice.guard ⟨choice, hChoice, .inl rfl⟩).bind
  intro body hBody
  apply (hYields.yielded choice.guard).bind
  intro guard hGuard
  apply (branch_gives (hUnit choice.yes ⟨choice, hChoice, .inr (.inl rfl)⟩)).bind
  intro yes hYes
  apply (branch_gives (hUnit choice.no ⟨choice, hChoice, .inr (.inr rfl)⟩)).bind
  intro no hNo
  exact .of_pure (hBody.append (.branch ⟨rfl, List.forall_mem_singleton.mpr hGuard, nofun⟩
    hYes hNo))

omit hYields

theorem fillFields_inner (hVals : ∀ val ∈ vals, good val)
    (hFilled : fillFields tree mode temp index fields vals = .ok filled) :
    AreInnerOf good stores filled := by
  induction fields generalizing index vals filled with
  | nil =>
    cases hFilled
    exact .nil
  | cons field rest ih =>
    cases vals with
    | nil =>
      cases hFilled
      exact .nil
    | cons val others =>
      rcases Walk.bind_eq_ok.mp hFilled with ⟨storage, -, hFilled⟩
      rcases Walk.bind_eq_ok.mp hFilled with ⟨offset, -, hFilled⟩
      rcases Walk.bind_eq_ok.mp hFilled with ⟨more, hMore, hFilled⟩
      cases hFilled
      have hRest : ∀ other ∈ others, good other := fun other hOther =>
          hVals other (mem_cons_of_mem _ hOther)
      have hFirst := hVals val mem_cons_self
      exact .cons (areInnerOf_single rfl rfl rfl rfl) (.cons (areInnerOf_one rfl rfl rfl rfl hFirst)
          (ih hRest hMore))

theorem executeDisplay_gives (hYields : Yields tree scope good)
    (hUnit : PartsGive tree scope unit id .collateralClause (AreInnerOf good stores)) :
    Gives scope False (executeDisplay tree unit id) (AreInnerOf good stores) := by
  apply Gives.lift_bind
  intro display hDisplay
  apply (inOrder_gives .nil .append fun kid hKid => hUnit kid ⟨display, hDisplay, hKid⟩).bind
  intro body hBody
  apply (yieldedAll_gives hYields).bind
  intro values hVals
  split
  · exact .of_pure (hBody.append (areInnerOf_all rfl rfl rfl hVals))
  · apply Gives.lift_bind
    intro fields _
    apply Gives.lift_bind
    intro filled hFilled
    exact .of_pure (hBody.append (fillFields_inner hVals hFilled))

theorem storeOf_innerOf (hStores : stores) (hVal : good val)
    (hStore : storeOf tree mode place val = .ok store) : AreInnerOf good stores [store] := by
  have hForm : ∀ form, AreInnerOf good stores [.store place form val] :=
    fun form => .single rfl ⟨rfl, forall_mem_singleton.mpr hVal, fun _ => hStores⟩
  unfold storeOf at hStore
  split at hStore
  · cases hStore
    exact hForm _
  · rcases Walk.bind_eq_ok.mp hStore with ⟨isPrimitive, -, hStore⟩
    split at hStore
    · cases hStore
      exact hForm _
    · rcases Walk.bind_eq_ok.mp hStore with ⟨size, -, hStore⟩
      cases hStore
      exact hForm _

theorem storeOf_inner (hStore : storeOf tree mode place val = .ok store) : AreInner [store] := by
  have hInner : AreInnerOf (fun _ => True) True [store] := storeOf_innerOf trivial trivial hStore
  exact hInner.areInner

theorem executeAssignation_gives (hYields : Yields tree scope good) (hStores : stores)
    (hUnit : PartsGive tree scope unit id .assignation (AreInnerOf good stores)) :
    Gives scope False (executeAssignation tree unit id) (AreInnerOf good stores) := by
  apply Gives.lift_bind
  rintro ⟨destination, source⟩ hParts
  apply (hUnit source ⟨destination, source, hParts, .inl rfl⟩).bind
  intro first hFirst
  apply (executeAddress_gives hYields fun kid hKid =>
    hUnit kid ⟨destination, source, hParts, .inr hKid⟩).bind
  intro second hSecond
  apply yieldAddress_gives.any_bind
  intro ptr
  apply (hYields.yielded source).bind
  intro val hVal
  apply Gives.lift_bind
  intro mode _
  apply Gives.lift_bind
  intro store hStore
  exact .of_pure ((hFirst.append hSecond).append (storeOf_innerOf hStores hVal hStore))

theorem executeShape_gives (hYields : Yields tree scope good) (node : Node)
    (hStores : node.attr = .assignation → stores)
    (hUnit : PartsGive tree scope unit id node.attr (AreInnerOf good stores)) :
    Gives scope False (executeShape tree unit id node) (AreInnerOf good stores) := by
  have hOnly (hUnit : PartsGive tree scope unit id .cast (AreInnerOf good stores)) :
      Gives scope False (do unit (← childOf tree id 0)) (AreInnerOf good stores) := by
    apply Gives.lift_bind
    intro kid hKid
    exact hUnit kid hKid
  have hObj (hUnit : PartsGive tree scope unit id .slice (AreInnerOf good stores)) :
      Gives scope False (do
        let body ← executeAddress tree unit id
        let _ ← modeOf tree id
        pure body)
      (AreInnerOf good stores) := by
    apply (executeAddress_gives hYields hUnit).bind
    intro body hBody
    apply Gives.lift_bind
    intro mode _
    exact .of_pure hBody
  unfold executeShape
  generalize node.attr = attr at hStores hUnit ⊢
  split
  · apply Gives.lift_bind
    intro named _
    exact executeNamed_gives named
  · exact executeDereferencing_gives hYields hUnit
  · exact hObj hUnit
  · exact hObj hUnit
  · exact executeOperation_gives hYields hUnit
  · exact executeOperation_gives hYields hUnit
  · exact executeOperation_gives hYields hUnit
  · apply Gives.lift_bind
    intro builtin _
    have hApply := hYields.apply builtin.signature.rendering [] nofun
    exact .of_pure (areInnerOf_one rfl rfl rfl rfl hApply)
  · exact hOnly hUnit
  · exact hOnly hUnit
  · exact hOnly hUnit
  · exact hOnly hUnit
  · exact executeWidening_gives hYields hUnit
  · apply Gives.lift_bind
    intro relation hRel
    apply (hUnit relation.left ⟨relation, hRel, .inl rfl⟩).bind
    intro left hLeft
    apply (hUnit relation.right ⟨relation, hRel, .inr rfl⟩).bind
    intro right hRight
    exact .of_pure (hLeft.append hRight)
  · exact .of_pure .nil
  · exact executeChoice_gives hYields hUnit
  · exact executeChoice_gives hYields hUnit
  · exact executeDisplay_gives hYields hUnit
  · exact executeAssignation_gives hYields (hStores rfl) hUnit
  · exact .of_violation _ _ _

/-
  Whatever a unit is, its statements are inner ones, with the expressions of what its parts
  yield. Stores are among them if it has assignations.
-/
theorem executeWithin_gives (hYields : Yields tree scope good)
    (hStores : ∀ kid, tree.Inlines id kid → tree.attr kid = .ok .assignation → stores) :
    Gives scope False (executeWithin tree fuel id) (AreInnerOf good stores) := by
  induction fuel generalizing id with
  | zero => exact fun _ => ⟨.error .unbounded, fun _ _ => rfl, nofun⟩
  | succ fuel ih =>
    apply Gives.lift_bind
    intro node hNode
    apply Gives.lift_bind
    intro isFolded _
    split
    · exact .of_pure .nil
    · have hAttr := SyntaxTree.attr_eq hNode
      refine executeShape_gives hYields node (fun hSame => hStores id .refl (hSame ▸ hAttr)) ?_
      intro kid hPart
      exact ih fun lower hLower => hStores lower (.head ⟨node.attr, hAttr, hPart⟩ hLower)

theorem executeUnit_gives (tree : SyntaxTree) (scope : Scope) (id : NodeId) :
    Gives scope False (executeUnit tree id) AreInner :=
  (executeWithin_gives (yields_any tree scope) fun _ _ _ => trivial).mono fun _ hBody =>
    hBody.areInner

end Inline

end Algol68
