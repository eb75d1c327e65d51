import Algol68.Proofs.Frames

/-
  Two compilations side by side.

  Checks are written into functions and nowhere else, so that two compilations that differ in
  whether they write them go through alike states. Inside a function the constants are the same as
  well. Where the checks do not differ either, the two agree exactly, in bookings and faults too.
-/

------ Agreement

namespace Algol68

namespace Walk

variable {α β : Type}

/-
  Two walks that both have a result have related ones. If the
  agreement is exact they have the same fault otherwise.
-/
def Agree (exact : Prop) (post : α → α → Prop) : Walk α → Walk α → Prop
  | .ok first, .ok second => post first second
  | .error first, .error second => exact → first = second
  | _, _ => ¬ exact

namespace Agree

variable {second : Walk α}

theorem of_ok (hFirst : first = .ok left) (hSecond : second = .ok right)
    (hAgree : Agree exact post first second) : post left right := by
  subst hFirst hSecond
  exact hAgree

theorem of_eq (hSame : first = second) (hPost : ∀ val, post val val) :
    Agree exact post first second := by
  subst hSame
  cases first with
  | ok val => exact hPost val
  | error fault => exact fun _ => rfl

/- Results are related, if there are any. -/
theorem of_not_exact (hExact : ¬ exact)
    (hPost : ∀ left right, first = .ok left → second = .ok right → post left right) :
    Agree exact post first second := by
  cases first with
  | ok left =>
    cases second with
    | ok right => exact hPost left right rfl rfl
    | error _ => exact hExact
  | error _ =>
    cases second with
    | ok _ => exact hExact
    | error _ => exact fun hYes => absurd hYes hExact

theorem mono (hAgree : Agree exact post first second)
    (hPost : ∀ left right, post left right → weak left right) : Agree exact weak first second := by
  cases first with
  | ok left =>
    cases second with
    | ok right => exact hPost left right hAgree
    | error _ => exact hAgree
  | error _ => cases second <;> exact hAgree

theorem bind {left : α → Walk β} (hFirst : Agree exact mid first second)
    (hRest : ∀ val other, mid val other → Agree exact post (left val) (right other)) :
    Agree exact post (first >>= left) (second >>= right) := by
  cases first with
  | ok val =>
    cases second with
    | ok other => exact hRest val other hFirst
    | error fault =>
      cases hLeft : left val with
      | ok _ => simpa [hLeft, Agree] using hFirst
      | error _ =>
        simp only [ok_bind, hLeft]
        exact fun hYes => absurd hYes hFirst
  | error fault =>
    cases second with
    | ok other =>
      cases hRight : right other with
      | ok _ => simpa [hRight, Agree] using hFirst
      | error _ =>
        simp only [ok_bind, hRight]
        exact fun hYes => absurd hYes hFirst
    | error other => exact hFirst

end Agree

end Walk

namespace Step

variable {σ α β : Type}

/- From related states a step gives the same answer, and leads to related states. -/
def Agrees (exact : Prop) (before after : σ → σ → Prop) (step : Step σ α) : Prop :=
  ∀ left right, before left right → Walk.Agree exact (fun first second =>
        first.1 = second.1 ∧ after first.2 second.2)
      (step.run left) (step.run right)

theorem read_agree {walk : Walk α} {rest other : α → Step σ β}
    (hRest : ∀ val, Walk.Agree exact post ((rest val).run left) ((other val).run right)) :
    Walk.Agree exact post ((liftM walk >>= rest).run left) ((liftM walk >>= other).run right) := by
  cases walk with
  | ok val => exact hRest val
  | error fault => exact fun _ => rfl

theorem lift_agree (hAgree : Walk.Agree exact post first second) (left right : σ) :
    Walk.Agree exact (fun val other => post val.1 other.1 ∧ val.2 = left ∧ other.2 = right)
      ((liftM first : Step σ α).run left) ((liftM second : Step σ α).run right) := by
  apply hAgree.bind
  intro val other hPost
  exact ⟨hPost, rfl, rfl⟩

variable {rest : α → Step σ β}

namespace Agrees

theorem of_pure (val : α) : Agrees exact before before (pure val) :=
  fun _ _ hBefore => ⟨rfl, hBefore⟩

theorem of_lift (walk : Walk α) : Agrees exact before before (liftM walk) := by
  intro left right hBefore
  cases walk with
  | ok val => exact ⟨rfl, hBefore⟩
  | error fault => exact fun _ => rfl

theorem of_throw (fault : Fault) : Agrees exact before after (throw fault : Step σ α) :=
  fun _ _ _ _ => rfl

theorem of_modify (hChange : ∀ left right, before left right → after (change left) (change right)) :
    Agrees exact before after (modify change) :=
  fun left right hBefore => ⟨rfl, hChange left right hBefore⟩

theorem bind (hStep : Agrees exact before mid step)
    (hRest : ∀ val, Agrees exact mid after (rest val)) :
    Agrees exact before after (step >>= rest) := by
  intro left right hBefore
  apply (hStep left right hBefore).bind
  rintro ⟨val, next⟩ ⟨other, last⟩ ⟨hSame, hNext⟩
  cases hSame
  exact hRest val next last hNext

theorem lift_bind {walk : Walk α} (hRest : ∀ val, Agrees exact before after (rest val)) :
    Agrees exact before after (liftM walk >>= rest) :=
  (of_lift walk).bind hRest

variable {rest : σ → Step σ α}

theorem get_bind (hRest : ∀ left right, before left right → Walk.Agree exact (fun first second =>
          first.1 = second.1 ∧ after first.2 second.2)
        ((rest left).run left) ((rest right).run right)) :
    Agrees exact before after (get >>= rest) :=
  hRest

theorem read_bind (hSame : ∀ left right, before left right → rest left = rest right)
    (hRest : ∀ state, Agrees exact before after (rest state)) :
    Agrees exact before after (get >>= rest) := by
  apply get_bind
  intro left right hBefore
  rw [hSame left right hBefore]
  exact hRest right left right hBefore

theorem forM {visit : α → Step σ PUnit} {members : List α}
    (hVisit : ∀ member, Agrees exact before before (visit member)) :
    Agrees exact before before (members.forM visit) := by
  induction members with
  | nil => exact of_pure _
  | cons first rest ih => exact (hVisit first).bind fun _ => ih

end Agrees

end Step

------ Alike Contexts

/-
  Two pieces of code that differ at most in what functions do.
  If the agreement is exact they do not differ.
-/
inductive Fragment.Alike (exact : Prop) : Fragment → Fragment → Prop
  | function {first second : Function} (hName : first.name = second.name)
      (hSource : first.source = second.source) (hLine : first.line = second.line)
      (hExact : exact → first = second) :
      Alike exact (.function first) (.function second)

variable {left : Context}

namespace Context

/-
  Two contexts that differ at most in their functions, in the checks that are written, and in a
  tier that admits clauses. Inside a function they have the same constants.
-/
structure Alike (exact inside : Prop) (left right : Context) : Prop where
  checked : exact → left.options.checked = right.options.checked
  hasher : exact → left.options.hasher = right.options.hasher
  tier : min left.tier Tier.clauses = min right.tier Tier.clauses
  names : left.uniqueNames = right.uniqueNames
  machine : left.machine = right.machine
  output : List.Forall₂ (Fragment.Alike exact) left.output right.output
  globals : left.globals = right.globals
  diagnostics : left.diagnostics = right.diagnostics
  compiled : left.compiled = right.compiled
  bookings : inside → exact → left.bookings = right.bookings
  folded : inside → left.folded = right.folded
  declarations : inside → exact → left.declarations = right.declarations

namespace Alike

variable (hAlike : left.Alike exact inside right)

include hAlike

theorem errorCount_eq : left.errorCount = right.errorCount := errorCount_congr hAlike.diagnostics

theorem hasName_eq (name : String) : left.hasName name = right.hasName name :=
  congrArg (List.contains · name) hAlike.names

theorem report (diag : Diagnostic) : (left.report diag).Alike exact inside (right.report diag) :=
  { hAlike with
    diagnostics := congrArg (· ++ [diag]) hAlike.diagnostics }

theorem takeName (name : String) :
    (left.takeName name).Alike exact inside (right.takeName name) := by
  unfold Context.takeName
  rw [hAlike.hasName_eq name]
  split
  · exact hAlike
  · exact { hAlike with
      names := congrArg (name :: ·) hAlike.names }

theorem addGlobal (entry : Global) :
    (left.addGlobal entry).Alike exact inside (right.addGlobal entry) :=
  { hAlike with
    globals := congrArg (· ++ [entry]) hAlike.globals }

theorem beginFunction : left.beginFunction.Alike exact True right.beginFunction :=
  { hAlike with
    bookings := fun _ _ => rfl
    folded := fun _ => rfl
    declarations := fun _ _ => rfl }

theorem recordCompiled (node : NodeId) (func : String) :
    (left.recordCompiled node func).Alike exact inside (right.recordCompiled node func) :=
  { hAlike with
    compiled := congrArg (· ++ [(node, func)]) hAlike.compiled }

end Alike

/- A task that goes alike in alike contexts. -/
abbrev Task.IsFair {α : Type} (exact inside : Prop) (task : Task α) : Prop :=
  Step.Agrees exact (Alike exact inside) (Alike exact inside) task

theorem reportAt_fair (tree : SyntaxTree) (id : NodeId) (cause : Cause) :
    (reportAt tree id cause).IsFair exact inside := by
  apply Step.Agrees.lift_bind
  intro node
  exact .of_modify fun left right hAlike => hAlike.report _

theorem runMachine_fair (run : Machine.Run α) : (runMachine run).IsFair exact inside := by
  apply Step.Agrees.get_bind
  intro left right hAlike
  rw [hAlike.machine]
  apply (Step.Agrees.of_lift _ left right hAlike).bind
  rintro ⟨⟨res, machine⟩, next⟩ ⟨other, last⟩ ⟨hSame, -⟩
  cases hSame
  exact ⟨rfl, { hAlike with machine := rfl }⟩

theorem definePair_fair (re im : Float) : (definePair re im).IsFair exact inside := by
  apply Step.Agrees.of_modify
  intro left right hAlike
  dsimp only
  rw [hAlike.hasName_eq]
  split
  · exact hAlike
  · exact (hAlike.takeName _).addGlobal _

/- A constant has the same value in alike contexts. -/
theorem fold_fair (tree : SyntaxTree) (id : NodeId) : (fold tree id).IsFair exact inside := by
  apply (runMachine_fair _).bind
  rintro (error | val)
  · exact (reportAt_fair tree id _).bind fun _ => .of_pure none
  · dsimp only
    split
    · cases val with
      | complex re im => exact (definePair_fair re im).bind fun _ => .of_pure _
      | _ => exact .of_pure _
    · exact (reportAt_fair tree id _).bind fun _ => .of_pure none

end Context

------ Declaring

namespace Inline

open Context Step

variable {tree : SyntaxTree} {id : NodeId}

theorem declareConstant_fair (id : NodeId) : (declareConstant tree id).IsFair exact True := by
  apply Agrees.read_bind
  · intro left right hAlike
    rw [hAlike.folded trivial]
  intro ctx
  split
  · exact .of_pure ()
  · apply (fold_fair tree id).bind
    intro val
    apply Agrees.of_modify
    intro first second hNext
    exact { hNext with
      folded := fun hInside => congrArg ((id, val) :: ·) (hNext.folded hInside) }

theorem declareName_fair (storage declarator : String) :
    (declareName storage declarator).IsFair exact True := by
  apply Agrees.of_modify
  intro left right hAlike
  exact { hAlike with
    declarations := fun hInside hExact => congrArg (·.add storage declarator)
        (hAlike.declarations hInside hExact) }

theorem declarePointer_meets (ptr : Pointer) (ctx : Context) :
    Step.Meets False (declarePointer tree ptr) ctx fun _ next => ∃ declarations bookings,
      next = { ctx with declarations := declarations, bookings := bookings } := by
  apply Step.Meets.get_bind
  apply Step.Meets.walk_bind False.elim
  rintro (_ | booking) _
  · exact ⟨_, _, rfl⟩
  · exact ⟨_, _, rfl⟩

/- The same addresses are booked. -/
theorem declarePointer_fair (ptr : Pointer) : (declarePointer tree ptr).IsFair exact True := by
  by_cases hExact : exact
  · apply Agrees.read_bind
    · intro left right hAlike
      rw [Context.signedIn?, Context.signedIn?, hAlike.hasher hExact,
        hAlike.bookings trivial hExact]
    intro ctx
    apply Agrees.lift_bind
    rintro (_ | booking)
    · apply (declareName_fair _ _).bind
      intro _
      apply Agrees.of_modify
      intro first second hNext
      exact { hNext with
        bookings := fun hInside hExact => congrArg (Bookings.signIn · ptr.address .declare
            ptr.node) (hNext.bookings hInside hExact) }
    · exact .of_pure ()
  · intro left right hAlike
    apply Walk.Agree.of_not_exact hExact
    rintro ⟨_, first⟩ ⟨_, second⟩ hFirst hSecond
    rcases (declarePointer_meets ptr left).of_run hFirst with ⟨_, _, rfl⟩
    rcases (declarePointer_meets ptr right).of_run hSecond with ⟨_, _, rfl⟩
    exact ⟨rfl, { hAlike with
      bookings := fun _ hYes => absurd hYes hExact
      declarations := fun _ hYes => absurd hYes hExact }⟩

theorem operationOf_agree (hExact : ¬ exact) (checked other : Bool) (id : NodeId) :
    Walk.Agree exact (fun first second => first.operands = second.operands)
      (operationOf tree checked id) (operationOf tree other id) := by
  apply Walk.Agree.of_not_exact hExact
  intro first second hFirst hSecond
  have hSame := (operands_of_operationOf hFirst).symm.trans (operands_of_operationOf hSecond)
  exact (Prod.mk.inj (Except.ok.inj hSame)).2

/- A result may be declared in one context and not in another. -/
theorem declareOperation_fair (hUnit : ∀ id, (unit id).IsFair exact True) (id : NodeId) :
    (declareOperation tree unit id).IsFair exact True := by
  by_cases hExact : exact
  · apply Agrees.read_bind
    · intro left right hAlike
      rw [hAlike.checked hExact]
    intro ctx
    apply Agrees.lift_bind
    intro operation
    apply (Agrees.forM hUnit).bind
    intro _
    cases operation.result with
    | some res => exact declareName_fair _ _
    | none => exact .of_pure ()
  · apply Agrees.get_bind
    intro left right hAlike
    apply (lift_agree (operationOf_agree hExact _ _ id) left right).bind
    rintro ⟨operation, _⟩ ⟨other, _⟩ ⟨hSame, rfl, rfl⟩
    dsimp only at hSame ⊢
    rw [hSame]
    apply (Agrees.forM hUnit _ _ hAlike).bind
    rintro ⟨_, next⟩ ⟨_, last⟩ ⟨-, hNext⟩
    have hDeclares : ∀ first second : Declarations, Context.Alike exact True
          { next with declarations := first }
          { last with declarations := second } :=
      fun _ _ => { hNext with
        declarations := fun _ hYes => absurd hYes hExact }
    cases operation.result with
    | none | some =>
      cases other.result with
      | none | some => exact ⟨rfl, hDeclares _ _⟩

theorem guides_fair (tree : SyntaxTree) : Guides tree (Task.IsFair exact True) fun _ => True where
  done := .of_pure ()
  read := .of_lift
  bind := fun hFirst hRest => hFirst.bind fun _ => hRest
  lift_bind := fun {_ walk _} hRest => by
    cases walk with
    | ok val => exact hRest val rfl
    | error fault => exact fun _ _ _ _ => rfl
  name := declareName_fair
  pointer := declarePointer_fair
  constant := fun id _ => declareConstant_fair id
  operation := fun _ hUnit => declareOperation_fair (fun kid => hUnit kid trivial) _
  child := fun _ _ _ _ _ => trivial
  children := fun _ _ _ _ _ _ => trivial

end Inline

------ Functions

namespace Context

open Emission Step

/- Code is written alike if the same constants are folded, and only bookings change. -/
theorem execute_agree {step : Inline.Emission} (hLocal : ∀ scope, Local scope step)
    (hAlike : left.Alike exact True right) :
    Walk.Agree exact (fun first second => (exact → first.1 = second.1) ∧
        ∃ bookings others, first.2 = left.booked bookings ∧ second.2 = right.booked others)
      (step.run left) (step.run right) := by
  by_cases hExact : exact
  · have hScope : right.scope = left.scope := by
      simp [scope, hAlike.checked hExact, hAlike.folded trivial, hAlike.hasher hExact]
    rcases hLocal left.scope left.bookings with ⟨result, hRun, -⟩
    have hFirst : step.run left = _ := hRun left rfl
    have hSecond := hRun right hScope
    rw [hAlike.bookings trivial hExact] at hSecond
    rw [hFirst, show step.run right = _ from hSecond]
    cases result with
    | ok found => exact ⟨fun _ => rfl, found.2, found.2, rfl, rfl⟩
    | error fault => exact fun _ => rfl
  · apply Walk.Agree.of_not_exact hExact
    intro first second hFirst hSecond
    exact ⟨fun hYes => absurd hYes hExact, _, _, ((hLocal left.scope).of_run hFirst).2.1,
      ((hLocal right.scope).of_run hSecond).2.1⟩

/- A function is added on both sides. -/
theorem writeFunction_agree (id : NodeId) (hLocal : ∀ scope, Local scope writer.execute)
    (hAlike : left.Alike exact True right) :
    Walk.Agree exact (fun first second => first.2.errorCount = left.errorCount ∧
        Alike exact False first.2 second.2)
      ((writeFunction tree id name writer).run left)
      ((writeFunction tree id name writer).run right) := by
  apply read_agree
  intro source
  apply read_agree
  intro node
  apply (execute_agree hLocal hAlike).bind
  rintro ⟨body, _⟩ ⟨other, _⟩ ⟨hSame, bookings, others, rfl, rfl⟩
  refine ⟨rfl, { hAlike with
    output := List.rel_append hAlike.output (.cons (.function rfl rfl rfl ?_) .nil)
    bookings := False.elim
    folded := False.elim
    declarations := False.elim }⟩
  intro hExact
  cases hSame hExact
  simp [booked, hAlike.declarations trivial hExact]

/- Functions differ at most in their declarations and in their statements. -/
theorem emitFunction_agrees (tree : SyntaxTree) (id : NodeId) (name : String)
    (hWriter : writer.declare.IsFair exact True) (hLocal : ∀ scope, Local scope writer.execute) :
    Agrees exact (Alike exact inside) (Alike exact False) (emitFunction tree id name writer) := by
  intro start other hStart
  apply (hWriter _ _ hStart.beginFunction).bind
  rintro ⟨_, left⟩ ⟨_, right⟩ ⟨-, hAlike⟩
  change Walk.Agree exact _
    ((if start.errorCount < left.errorCount then pure none
      else do
        writeFunction tree id name writer
        keepWritten start name : Task (Option String)).run left)
    ((if other.errorCount < right.errorCount then pure none
      else do
        writeFunction tree id name writer
        keepWritten other name : Task (Option String)).run right)
  rw [← hStart.errorCount_eq, ← hAlike.errorCount_eq]
  split
  · exact ⟨rfl, { hAlike with
      bookings := False.elim
      folded := False.elim
      declarations := False.elim }⟩
  · rename_i hErrs
    apply (writeFunction_agree id hLocal hAlike).bind
    rintro ⟨_, first⟩ ⟨_, second⟩ ⟨hFirst, hNext⟩
    have hLess : first.errorCount ≤ start.errorCount := hFirst.trans_le (Nat.le_of_not_lt hErrs)
    have hMore : second.errorCount ≤ other.errorCount := by
      rw [← hStart.errorCount_eq, ← hNext.errorCount_eq]
      exact hLess
    have hLeft : keepWritten start name first = _ := keepWritten_run hLess
    have hRight : keepWritten other name second = _ := keepWritten_run hMore
    dsimp only
    rw [hLeft, hRight]
    exact ⟨rfl, hNext⟩

end Context

end Algol68
