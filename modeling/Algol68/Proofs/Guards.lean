import Algol68.Proofs.Functions
import Algol68.Proofs.Temporaries

/-
  Running the code of a unit.

  The guard of a conditional is asked by a statement, which
  takes a branch, and asked again where the value is wanted.
  As long as it reads the same both times, the value is that of
  the branch that was taken, and nothing is read that was not
  given a value on the way.

  Main declarations:
    * `SyntaxTree.Conforms.guards_asked_again`
-/

------ States

namespace Algol68

open List hiding after

/-
  What generated code runs on. Expressions look through the
  temporaries and have no effects of their own.
-/
structure Runtime where
  Datum : Type
  Memory : Type
  /- What is found through a temporary with some contents. -/
  look : Expr → Datum → Memory → Datum
  /- The value of any other expression from its operands. -/
  build : Expr → List Datum → Datum
  holds : Datum → Bool
  /- What a statement gives, and the memory that it leaves. -/
  perform : Stmt → List Datum → Memory → Datum × Memory

/- The contents of the temporaries, and all other contents. -/
structure Runtime.State (runtime : Runtime) where
  temps : Temp → runtime.Datum
  memory : runtime.Memory

/- Something that happens when code is run. -/
inductive Runtime.Moment (runtime : Runtime)
  /- A temporary is looked through. -/
  | read (leaf : Expr)
  /- A conditional asks its guard, for a branch or for a value. -/
  | ask (forValue : Bool) (node : NodeId) (guard : Expr) (state : runtime.State)
  /- A statement is done. -/
  | act (stmt : Stmt)

variable {runtime : Runtime}

namespace Expr

mutual

/- The value of an expression. -/
def evaluate (state : runtime.State) : Expr → runtime.Datum
  | .temp name => runtime.look (.temp name) (state.temps name) state.memory
  | .value pointer => runtime.look (.value pointer) (state.temps pointer) state.memory
  | .content pointer => runtime.look (.content pointer) (state.temps pointer) state.memory
  | .reference pointer => runtime.look (.reference pointer) (state.temps pointer) state.memory
  | .apply rendering operands =>
    runtime.build (.apply rendering operands) (evaluateAll state operands)
  | .toReal operand => runtime.build (.toReal operand) [evaluate state operand]
  | .sameName same left right =>
    runtime.build (.sameName same left right) [evaluate state left, evaluate state right]
  | .choose _ guard yes no =>
    if runtime.holds (evaluate state guard) then evaluate state yes else evaluate state no
  | expr => runtime.build expr []

/- The values of expressions. -/
def evaluateAll (state : runtime.State) : List Expr → List runtime.Datum
  | [] => []
  | expr :: rest => evaluate state expr :: evaluateAll state rest

end

/- The answer of a guard. -/
def holdsIn (state : runtime.State) (guard : Expr) : Bool := runtime.holds (guard.evaluate state)

mutual

/- What happens when an expression is evaluated. -/
def moments (state : runtime.State) : Expr → List runtime.Moment
  | .blank | .constant _ | .nil => []
  | .apply _ operands => momentsOf state operands
  | .toReal operand => moments state operand
  | .sameName _ left right => moments state left ++ moments state right
  | .choose node guard yes no =>
    moments state guard ++ .ask true node guard state ::
      if guard.holdsIn state then moments state yes else moments state no
  | leaf => [.read leaf]

/- What happens when expressions are evaluated. -/
def momentsOf (state : runtime.State) : List Expr → List runtime.Moment
  | [] => []
  | expr :: rest => moments state expr ++ momentsOf state rest

end

/- What an expression looks through temporaries with. -/
def leaves (state : runtime.State) (expr : Expr) : List Expr :=
  (expr.moments state).filterMap fun
    | .read leaf => some leaf
    | _ => none

theorem mem_leaves {expr : Expr} : leaf ∈ expr.leaves state ↔ .read leaf ∈ expr.moments state := by
  rw [leaves, mem_filterMap]
  constructor
  · rintro ⟨moment, hMoment, hLeaf⟩
    split at hLeaf
    · cases hLeaf
      exact hMoment
    · cases hLeaf
  · exact fun hMoment => ⟨_, hMoment, rfl⟩

end Expr

namespace Stmt

variable (state : runtime.State)

/- A statement without others inside gives what it computes. -/
def performIn (stmt : Stmt) : runtime.State :=
  let done := runtime.perform stmt (stmt.reads.map state.temps ++
      Expr.evaluateAll state stmt.operands) state.memory
  { temps := fun temp => if temp ∈ stmt.targets then done.1 else state.temps temp
    memory := done.2 }

mutual

/- The state behind a statement, and what happens before. -/
def run (state : runtime.State) : Stmt → runtime.State × List runtime.Moment
  | .branch node guard yes no =>
    let taken := if guard.holdsIn state then runAll state yes else runAll state no
    (taken.1, guard.moments state ++ .ask false node guard state :: taken.2)
  | stmt =>
    (stmt.performIn state, stmt.reads.map (fun temp => .read (.temp temp)) ++
        Expr.momentsOf state stmt.operands ++ [.act stmt])

/- The state behind statements, and what happens before. -/
def runAll (state : runtime.State) : List Stmt → runtime.State × List runtime.Moment
  | [] => (state, [])
  | stmt :: rest =>
    let first := run state stmt
    let others := runAll first.1 rest
    (others.1, first.2 ++ others.2)

end

theorem runAll_append (first second : List Stmt) :
    runAll state (first ++ second) = ((runAll (runAll state first).1 second).1,
        (runAll state first).2 ++ (runAll (runAll state first).1 second).2) := by
  induction first generalizing state with
  | nil => rw [nil_append, runAll, nil_append]
  | cons stmt rest ih => rw [cons_append, runAll, ih, runAll, append_assoc]

theorem runAll_singleton (state : runtime.State) (stmt : Stmt) :
    runAll state [stmt] = run state stmt := by
  rw [runAll, runAll, append_nil]

end Stmt

------ Paths that are Run

variable {state : runtime.State} {choices : Choices}

namespace Runtime

/- What happens to temporaries. -/
def Moment.events : runtime.Moment → List Event
  | .read leaf => leaf.temps.map .use
  | .ask _ _ _ _ => []
  | .act stmt => stmt.targets.map .assign ++ stmt.effects

/- A guard answers as it may. -/
def Moment.Follows (choices : Choices) : runtime.Moment → Prop
  | .ask _ node guard state => choices node guard (guard.holdsIn state)
  | _ => True

/- What happens to temporaries all along. -/
def eventsOf (moments : List runtime.Moment) : List Event := moments.flatMap Moment.events

@[simp] theorem eventsOf_nil : eventsOf ([] : List runtime.Moment) = [] := rfl

@[simp] theorem eventsOf_cons (moment : runtime.Moment) (rest : List runtime.Moment) :
    eventsOf (moment :: rest) = moment.events ++ eventsOf rest :=
  flatMap_cons

@[simp] theorem eventsOf_append (first second : List runtime.Moment) :
    eventsOf (first ++ second) = eventsOf first ++ eventsOf second :=
  flatMap_append

end Runtime

open Algol68.Runtime

namespace Expr

mutual

/- What is read for a value may be read for it. -/
theorem exists_uses {expr : Expr}
    (hFollows : ∀ moment ∈ expr.moments state, moment.Follows choices) :
    ∃ uses, expr.Uses choices uses ∧ eventsOf (expr.moments state) = uses.map .use := by
  cases expr
  case apply rendering ops =>
    rw [moments] at hFollows ⊢
    simp only [Uses]
    exact exists_usesOf hFollows
  case toReal op =>
    rw [moments] at hFollows ⊢
    simp only [Uses]
    exact exists_uses hFollows
  case sameName same left right =>
    rw [moments] at hFollows ⊢
    rw [forall_mem_append] at hFollows
    rcases exists_uses hFollows.1 with ⟨first, hFirst, hLeft⟩
    rcases exists_uses hFollows.2 with ⟨second, hSecond, hRight⟩
    simp only [Uses]
    exact ⟨first ++ second, ⟨first, second, hFirst, hSecond, rfl⟩, by simp [hLeft, hRight]⟩
  case choose node guard yes no =>
    rw [moments] at hFollows ⊢
    rw [forall_mem_append, forall_mem_cons] at hFollows
    rcases hFollows with ⟨hGuard, hAnswer, hTaken⟩
    rcases exists_uses hGuard with ⟨first, hFirst, hLeft⟩
    rw [Moment.Follows] at hAnswer
    simp only [Uses]
    cases hHolds : guard.holdsIn state with
    | true =>
      rw [hHolds] at hAnswer
      simp only [hHolds, if_true] at hTaken ⊢
      rcases exists_uses hTaken with ⟨second, hSecond, hRight⟩
      exact ⟨first ++ second, ⟨first, second, hFirst, .inl ⟨hAnswer, hSecond⟩, rfl⟩,
        by simp [hLeft, hRight, Moment.events]⟩
    | false =>
      rw [hHolds] at hAnswer
      simp only [hHolds, Bool.false_eq_true, if_false] at hTaken ⊢
      rcases exists_uses hTaken with ⟨second, hSecond, hRight⟩
      exact ⟨first ++ second, ⟨first, second, hFirst, .inr ⟨hAnswer, hSecond⟩, rfl⟩,
        by simp [hLeft, hRight, Moment.events]⟩
  all_goals
    simp only [moments, Uses]
    exact ⟨_, rfl, by simp [Moment.events, temps]⟩

theorem exists_usesOf {ops : List Expr}
    (hFollows : ∀ moment ∈ momentsOf state ops, moment.Follows choices) :
    ∃ uses, UsesOf choices ops uses ∧ eventsOf (momentsOf state ops) = uses.map .use := by
  cases ops with
  | nil =>
    simp only [momentsOf, UsesOf]
    exact ⟨_, rfl, rfl⟩
  | cons expr rest =>
    rw [momentsOf] at hFollows ⊢
    rw [forall_mem_append] at hFollows
    rcases exists_uses hFollows.1 with ⟨first, hFirst, hLeft⟩
    rcases exists_usesOf hFollows.2 with ⟨others, hOthers, hRight⟩
    simp only [UsesOf]
    exact ⟨first ++ others, ⟨first, others, hFirst, hOthers, rfl⟩, by simp [hLeft, hRight]⟩

end

mutual

/- A value depends only on what is found through temporaries. -/
theorem evaluate_congr {expr : Expr}
    (hSame : ∀ leaf, .read leaf ∈ expr.moments state → leaf.evaluate other = leaf.evaluate state) :
    expr.evaluate other = expr.evaluate state := by
  cases expr
  case apply rendering ops =>
    rw [moments] at hSame
    rw [evaluate, evaluate, evaluateAll_congr hSame]
  case toReal op =>
    rw [moments] at hSame
    rw [evaluate, evaluate, evaluate_congr hSame]
  case sameName same left right =>
    rw [moments] at hSame
    rw [evaluate, evaluate, evaluate_congr fun leaf hLeaf =>
        hSame leaf (mem_append_left _ hLeaf),
      evaluate_congr fun leaf hLeaf => hSame leaf (mem_append_right _ hLeaf)]
  case choose node guard yes no =>
    rw [moments] at hSame
    have hGuard : guard.evaluate other = guard.evaluate state := evaluate_congr fun leaf hLeaf =>
        hSame leaf (mem_append_left _ hLeaf)
    have hTaken : ∀ leaf, .read leaf ∈ (if guard.holdsIn state
        then moments state yes else moments state no) → leaf.evaluate other = leaf.evaluate state :=
      fun leaf hLeaf => hSame leaf (mem_append_right _ (mem_cons_of_mem _ hLeaf))
    rw [evaluate, evaluate, hGuard]
    unfold holdsIn at hTaken
    split
    · rename_i hHolds
      rw [if_pos hHolds] at hTaken
      exact evaluate_congr hTaken
    · rename_i hHolds
      rw [if_neg hHolds] at hTaken
      exact evaluate_congr hTaken
  case temp name => exact hSame _ (by simp [moments])
  case value ptr => exact hSame _ (by simp [moments])
  case content ptr => exact hSame _ (by simp [moments])
  case reference ptr => exact hSame _ (by simp [moments])
  all_goals rw [evaluate, evaluate] <;> simp

theorem evaluateAll_congr {operands : List Expr}
    (hSame : ∀ leaf, .read leaf ∈ momentsOf state operands →
      leaf.evaluate other = leaf.evaluate state) :
    evaluateAll other operands = evaluateAll state operands := by
  cases operands with
  | nil => rw [evaluateAll, evaluateAll]
  | cons expr rest =>
    rw [momentsOf] at hSame
    rw [evaluateAll, evaluateAll, evaluate_congr fun leaf hLeaf =>
        hSame leaf (mem_append_left _ hLeaf),
      evaluateAll_congr fun leaf hLeaf => hSame leaf (mem_append_right _ hLeaf)]

end

end Expr

namespace Stmt

theorem run_of_isSimple (hSimple : stmt.isSimple = true) :
    run state stmt = (stmt.performIn state, stmt.reads.map (fun temp => .read (.temp temp)) ++
        Expr.momentsOf state stmt.operands ++ [.act stmt]) := by
  unfold run
  split
  · cases hSimple
  · rfl

theorem runs_run_of_isSimple (hSimple : stmt.isSimple = true)
    (hFollows : ∀ moment ∈ (run state stmt).2, moment.Follows choices) :
    Runs allowed choices stmt (eventsOf (run state stmt).2) := by
  rw [run_of_isSimple hSimple] at hFollows ⊢
  rw [forall_mem_append, forall_mem_append] at hFollows
  rcases Expr.exists_usesOf hFollows.1.2 with ⟨uses, hUses, hEvents⟩
  have hReads : eventsOf (stmt.reads.map fun temp => (.read (.temp temp) : runtime.Moment)) =
        stmt.reads.map .use := by
    rw [eventsOf, flatMap_map]
    exact flatMap_pure_eq_map _ _
  refine (runs_of_isSimple hSimple).mpr ⟨uses, hUses, ?_⟩
  simp [hReads, hEvents, Moment.events]

mutual

/- What happens when a statement of a unit is run. -/
theorem runs_run {state : runtime.State} {stmt : Stmt} (hInner : AreInner [stmt])
    (hFollows : ∀ moment ∈ (run state stmt).2, moment.Follows choices) :
    Runs allowed choices stmt (eventsOf (run state stmt).2) := by
  cases stmt
  case branch node guard yes no =>
    have hYes : AreInner yes := fun stmt hStmt => hInner stmt (by simp [within, hStmt])
    have hNo : AreInner no := fun stmt hStmt => hInner stmt (by simp [within, hStmt])
    rw [run] at hFollows ⊢
    rw [forall_mem_append, forall_mem_cons] at hFollows
    rcases hFollows with ⟨hGuard, hAnswer, hTaken⟩
    rcases Expr.exists_uses hGuard with ⟨uses, hUses, hEvents⟩
    rw [Moment.Follows] at hAnswer
    rw [Runs]
    cases hHolds : guard.holdsIn state with
    | true =>
      rw [hHolds] at hAnswer
      simp only [hHolds, if_true] at hTaken ⊢
      exact ⟨uses, _, hUses, .inl ⟨hAnswer, runsOf_runAll hYes hTaken⟩,
        by simp [hEvents, Moment.events]⟩
    | false =>
      rw [hHolds] at hAnswer
      simp only [hHolds, Bool.false_eq_true, if_false] at hTaken ⊢
      exact ⟨uses, _, hUses, .inr ⟨hAnswer, runsOf_runAll hNo hTaken⟩,
        by simp [hEvents, Moment.events]⟩
  all_goals first
    | exact runs_run_of_isSimple rfl hFollows
    | exact absurd (hInner _ mem_cons_self) Bool.false_ne_true

theorem runsOf_runAll {state : runtime.State} {body : List Stmt} (hInner : AreInner body)
    (hFollows : ∀ moment ∈ (runAll state body).2, moment.Follows choices) :
    RunsOf allowed choices body (eventsOf (runAll state body).2) := by
  cases body with
  | nil => simp [runAll]
  | cons stmt rest =>
    have hFirst : AreInner [stmt] := fun inner hInside => hInner inner (mem_append_left _
        (by simpa using hInside))
    have hRest : AreInner rest := fun inner hInside =>
      hInner inner (mem_append_right _ hInside)
    rw [runAll] at hFollows ⊢
    rw [forall_mem_append] at hFollows
    exact runsOf_cons.mpr ⟨_, _, runs_run hFirst hFollows.1,
      runsOf_runAll hRest hFollows.2, eventsOf_append _ _⟩

end

end Stmt

------ Guards that are Asked Again

namespace Runtime

variable {moments : List runtime.Moment}

/-
  What a guard finds through temporaries when it is asked is
  found there as well when its conditional asks again.
-/
def Moment.Steady : runtime.Moment → runtime.Moment → Prop
  | .ask _ node guard earlier, .ask _ other _ later =>
    node = other → ∀ leaf ∈ guard.leaves earlier, leaf.evaluate later = leaf.evaluate earlier
  | _, _ => True

instance [DecidableEq runtime.Datum] (first second : runtime.Moment) :
    Decidable (first.Steady second) :=
  match first, second with
  | .ask _ _ _ _, .ask _ _ _ _ => inferInstanceAs
      (Decidable (_ = _ → ∀ leaf ∈ Expr.leaves _ _, _ = _))
  | .ask _ _ _ _, .read _ | .ask _ _ _ _, .act _
  | .read _, _ | .act _, _ => inferInstanceAs (Decidable True)

/- Guards find the same whenever they are asked. -/
abbrev AreSteady (moments : List runtime.Moment) : Prop := moments.Pairwise Moment.Steady

/- The answers that were given. -/
def choicesOf (moments : List runtime.Moment) : Choices :=
  fun node guard answer => ∃ forValue state, .ask forValue node guard state ∈ moments ∧
      guard.holdsIn state = answer

theorem follows_choicesOf : ∀ moment ∈ moments, moment.Follows (choicesOf moments) := by
  intro moment hMoment
  cases moment with
  | ask forValue node guard state => exact ⟨forValue, state, hMoment, rfl⟩
  | read leaf | act => trivial

/- A guard that finds the same gives the same answer. -/
theorem AreSteady.agree (hSteady : AreSteady moments) {guard : Expr}
    (hFirst : .ask first node guard earlier ∈ moments)
    (hSecond : .ask second node guard later ∈ moments) :
    guard.holdsIn earlier = guard.holdsIn later := by
  let agrees : runtime.Moment → runtime.Moment → Prop :=
    fun one two => ∀ first second earlier later, one = .ask first node guard earlier →
        two = .ask second node guard later → guard.holdsIn earlier = guard.holdsIn later
  have hPairs : moments.Pairwise agrees := by
    refine hSteady.imp ?_
    rintro _ _ hSame first second earlier later rfl rfl
    refine congrArg runtime.holds (Expr.evaluate_congr ?_).symm
    exact fun leaf hLeaf => hSame rfl leaf (Expr.mem_leaves.mpr hLeaf)
  refine List.Pairwise.forall_of_forall_of_flip ?_ hPairs
    (hPairs.imp ?_) hFirst hSecond _ _ _ _ rfl rfl
  · rintro moment - first second earlier later rfl hSame
    cases hSame
    rfl
  · exact fun hOne first second earlier later hTwo hThree =>
      (hOne second first later earlier hThree hTwo).symm

theorem AreSteady.areSettled (hSteady : AreSteady moments) (tree : SyntaxTree) (id : NodeId) :
    (choicesOf moments).AreSettled tree id := by
  rintro node guard - ⟨⟨_, _, hFirst, hYes⟩, _, _, hSecond, hNo⟩
  rw [← hSteady.agree hFirst hSecond, hYes] at hNo
  cases hNo

/- What happens when statements are run from a state and a value is evaluated behind them. -/
def State.trail (state : runtime.State) (body : List Stmt) (value : Expr) : List runtime.Moment :=
  (Stmt.runAll state body).2 ++ value.moments (Stmt.runAll state body).1

/-
  A guard that is asked for a value was asked for a branch
  before, and gives the answer that it gave then.
-/
def Recalls (before after : List runtime.Moment) : Prop :=
  ∀ node guard later, .ask true node guard later ∈ after →
    ∃ earlier, .ask false node guard earlier ∈ before ∧ guard.holdsIn earlier = guard.holdsIn later

/- The answers of a guard for branches and for values. -/
def Agree (before after : List runtime.Moment) : Prop :=
  ∀ node guard earlier later, .ask false node guard earlier ∈ before →
      .ask true node guard later ∈ after → guard.holdsIn earlier = guard.holdsIn later

theorem Agree.recalls (hAgree : Agree before after) (hPart : Agree less fewer → Recalls less fewer)
    (hBefore : less ⊆ before) (hAfter : fewer ⊆ after) : Recalls before fewer := by
  intro node guard later hAsk
  have hSome : Agree less fewer := fun node guard earlier later hFirst hSecond =>
      hAgree node guard earlier later (hBefore hFirst) (hAfter hSecond)
  rcases hPart hSome node guard later hAsk with ⟨earlier, hEarlier, hSame⟩
  exact ⟨earlier, hBefore hEarlier, hSame⟩

theorem Recalls.append (hFirst : Recalls before first) (hSecond : Recalls before second) :
    Recalls before (first ++ second) := by
  intro node guard later hAsk
  rcases mem_append.mp hAsk with hLeft | hRight
  · exact hFirst node guard later hLeft
  · exact hSecond node guard later hRight

end Runtime

variable {tree : SyntaxTree} {id : NodeId}

namespace Inline

open Algol68.Runtime

variable {value : Expr}

theorem IsThrough.recalls (hVal : IsThrough temp value) :
    Recalls moments (value.moments later) := by
  cases hVal <;> simp [Recalls, Expr.moments]

theorem Builds.moments_eq (hVal : Builds tree id parts values value) (later : runtime.State) :
    value.moments later = Expr.momentsOf later values := by
  cases hVal <;> simp [Expr.moments, Expr.momentsOf]

/-
  The statements of units ask the guards that their values ask,
  wherever the statements start and the values are wanted.
-/
def Foresees (runtime : Runtime) (body : List Stmt) (values : List Expr) : Prop :=
  ∀ start later : runtime.State, Agree (Stmt.runAll start body).2 (Expr.momentsOf later values) →
    Recalls (Stmt.runAll start body).2 (Expr.momentsOf later values)

theorem Foresees.of_recalls
    (hVal : ∀ moments (later : runtime.State), Recalls moments (value.moments later)) :
    Foresees runtime body [value] := by
  intro start later _
  simpa [Expr.momentsOf] using hVal _ later

theorem Foresees.append (hFirst : Foresees runtime first [value])
    (hSecond : Foresees runtime second vals) :
    Foresees runtime (first ++ second) (value :: vals) := by
  intro start later hAgree
  rw [Stmt.runAll_append] at hAgree ⊢
  have hVal := hFirst start later
  simp only [Expr.momentsOf, append_nil] at hVal hAgree ⊢
  exact (hAgree.recalls hVal (subset_append_left _ _) (subset_append_left _ _)).append
    (hAgree.recalls (hSecond _ later) (subset_append_right _ _) (subset_append_right _ _))

theorem InTurn.foresees (hPart : ∀ {kid before body after value}, part kid before body after value →
        Foresees runtime body [value]) (hCode : InTurn part parts before body after values) :
    Foresees runtime body values := by
  induction hCode with
  | nil => simp [Foresees, Recalls, Expr.momentsOf]
  | cons hFirst _ ih => exact (hPart hFirst).append ih

/- The branch that was taken asks what the part taken asks. -/
theorem Foresees.choose {guard : Expr} (hGuard : Foresees runtime body [guard])
    (hYes : Foresees runtime first [yes]) (hNo : Foresees runtime second [no]) :
    Foresees runtime (body ++ [.branch id guard first second]) [.choose id guard yes no] := by
  intro start later hAgree
  rw [Stmt.runAll_append, Stmt.runAll_singleton, Stmt.run] at hAgree ⊢
  have hAsked := hGuard start later
  generalize Stmt.runAll start body = done at hAgree hAsked ⊢
  have hSame : guard.holdsIn done.1 = guard.holdsIn later := hAgree id guard done.1 later (by simp)
      (by simp [Expr.momentsOf, Expr.moments])
  have hFirst := hYes done.1 later
  have hSecond := hNo done.1 later
  simp only [Expr.momentsOf, Expr.moments, List.append_nil] at hAgree hAsked hFirst hSecond ⊢
  refine (hAgree.recalls hAsked (by simp) (by simp)).append ?_
  rintro node asked found (_ | ⟨_, hFound⟩)
  · exact ⟨done.1, by simp, hSame⟩
  · revert node asked found
    cases hHolds : guard.holdsIn later with
    | true =>
      simp only [hSame, hHolds, if_true] at hAgree ⊢
      exact hAgree.recalls hFirst (fun _ hAct => by simp [hAct]) fun _ hAct => by simp [hAct]
    | false =>
      simp only [hSame, hHolds, Bool.false_eq_true, if_false] at hAgree ⊢
      exact hAgree.recalls hSecond (fun _ hAct => by simp [hAct]) fun _ hAct => by simp [hAct]

theorem ShapeCode.foresees
    (hPart : ∀ {kid before body after value}, part kid before body after value →
        Foresees runtime body [value])
    (hCode : ShapeCode tree ctx part id before body after value) :
    Foresees runtime body [value] := by
  cases hCode with
  | name _ _ _ hVal => exact .of_recalls fun _ _ => hVal.recalls
  | object _ hReads => exact .of_recalls fun _ _ => hReads.through.recalls
  | inPlace hCode hVal =>
    intro start later
    have hParts := hCode.foresees hPart start later
    rw [← hVal.moments_eq] at hParts
    simpa [Expr.momentsOf] using hParts
  | enclosed _ _ hCode hVal =>
    rcases hVal with rfl | rfl
    · exact hPart hCode
    · exact .of_recalls (by simp [Recalls, Expr.moments])
  | kept => exact .of_recalls fun _ _ => IsThrough.whole.recalls
  | choice _ _ _ hGuard hYes hNo => exact (hPart hGuard).choose (hPart hYes) (hPart hNo)
  | assignation => exact .of_recalls fun _ _ => IsThrough.reference.recalls

theorem CodeWithin.foresees (hCode : CodeWithin tree ctx fuel id before body after value) :
    Foresees runtime body [value] := by
  induction fuel generalizing id before body after value with
  | zero => exact hCode.elim
  | succ fuel ih =>
    rcases hCode with ⟨rfl, rfl, -, constant, rfl⟩ | hShape
    · exact .of_recalls (by simp [Recalls, Expr.moments])
    · exact hShape.foresees fun hKid => ih hKid

------ Units in a Function of Their Own

/- Nothing is known before the first unit of a function. -/
theorem CodeWithin.trail_tidy (hTree : tree.IsRegular) (hDecl : AreDeclared tree ctx)
    (hCode : CodeWithin tree ctx fuel id ctx.bookings body after value)
    (hInner : Stmt.AreInner body) (hSteady : AreSteady (state.trail body value)) :
    Event.Tidy (fun _ => False) (fun _ => False) (eventsOf (state.trail body value)) := by
  have hFollows : ∀ moment ∈ state.trail body value,
      moment.Follows (choicesOf (state.trail body value)) :=
    follows_choicesOf
  rcases List.forall_mem_append.mp hFollows with ⟨hBody, hVal⟩
  rcases Expr.exists_uses hVal with ⟨uses, hUses, hEvents⟩
  have hRuns : Stmt.RunsOf (fun _ => True) (choicesOf (state.trail body value)) body _ :=
    Stmt.runsOf_runAll hInner hBody
  have hTidy := hCode.tidy hTree hDecl (hSteady.areSettled tree id) (fun _ => False) _
    (fun _ hBooked => Booked.not_start hDecl hBooked) hRuns
  rw [State.trail, eventsOf_append, hEvents]
  refine hTidy.append (.of_uses (fun temp hTemp => ?_) nofun)
  exact .inr ⟨value, List.mem_singleton_self _, uses, hUses, hTemp⟩

end Inline

namespace SyntaxTree

open Inline Emission Algol68.Runtime

theorem Conforms.exists_code (hTree : tree.Conforms)
    (hBasic : tree.isBasic id tier = .ok true) (start : Context) :
    ∃ ctx, (declareUnit tree id).run start.beginFunction = .ok ((), ctx) ∧
      AreDeclared tree ctx ∧ ctx.options.checked = start.options.checked ∧
      (ctx.errorCount = start.errorCount → ∃ body after value,
          (executeUnit tree id).run ctx = .ok (body, ctx.booked after) ∧
          (yieldUnit tree id).run (ctx.booked after) = .ok (value, ctx.booked after) ∧
          Code tree ctx id ctx.bookings body after value) := by
  have hModes : True → tree.modes.IsSound := fun _ => hTree.modes
  have hRegular := hTree.toIsRegular
  rcases Walk.Meets.answer (declareInlined hRegular hModes
    (.unit hBasic) _ _ (Context.beginFunction_declaring start fun _ _ => True)) with
    ⟨⟨⟨⟩, ctx⟩, hDeclare, hDeclaring, -, hReady⟩
  have hDecl : AreDeclared tree ctx := hDeclaring.booked
  refine ⟨ctx, hDeclare, hDecl, hDeclaring.checked, fun hCount => ?_⟩
  rcases exists_writtenUnit hRegular hModes (hReady hCount _ (.refl _)) with ⟨value, hWritten⟩
  rcases Walk.Meets.answer (hWritten.writes _ (.start hDecl))
    with ⟨⟨body, _⟩, hExec, after, rfl, hReaches, hCode⟩
  exact ⟨body, after, value, hExec, hWritten.yields _ le_rfl _ hReaches.executing, hCode⟩

/-
  In a function of its own, the code of a basic unit is run from any state and its value is then
  evaluated. If guards find the same whenever they are asked, no temporary is read before it is
  given a value, and every guard of the value answers as it did where a branch was taken.
-/
theorem Conforms.guards_asked_again
    (hTree : tree.Conforms)
    {id : NodeId}
    {tier : Nat}
    (hBasic : tree.isBasic id tier = .ok true)
    (start : Context) :
    ∃ context,
      (declareUnit tree id).run start.beginFunction = .ok ((), context) ∧
      (context.errorCount = start.errorCount →
        ∃ body next value,
          (executeUnit tree id).run context = .ok (body, next) ∧
          (yieldUnit tree id).run next = .ok (value, next) ∧
          ∀ (runtime : Runtime) (state : runtime.State),
            AreSteady (state.trail body value) →
            (∀ early temp late,
              eventsOf (state.trail body value) = early ++ .use temp :: late →
              .assign temp ∈ early) ∧
            Recalls (Stmt.runAll state body).2 (value.moments (Stmt.runAll state body).1)) := by
  rcases hTree.exists_code hBasic start with ⟨context, hDeclare, hDeclared, -, hWritten⟩
  refine ⟨context, hDeclare, fun hCount => ?_⟩
  rcases hWritten hCount with ⟨body, after, value, hExecute, hYield, hCode⟩
  refine ⟨body, _, value, hExecute, hYield, ?_⟩
  intro runtime state hSteady
  have hInner : Stmt.AreInner body := ((executeUnit_gives tree _ id).of_run hExecute).1
  have hTidy := hCode.trail_tidy hTree.toIsRegular hDeclared hInner hSteady
  refine ⟨fun early temp late hEvents =>
    (hTidy.used early temp late hEvents).resolve_left not_false, ?_⟩
  have hForesees := hCode.foresees state (Stmt.runAll state body).1
  simp only [Expr.momentsOf, List.append_nil] at hForesees
  refine hForesees fun node guard earlier later hFirst hSecond => ?_
  exact hSteady.agree (List.mem_append_left _ hFirst) (List.mem_append_right _ hSecond)

/- The code of a unit in a function of its own, and how many problems its constants have. -/
def codeAlone (tree : SyntaxTree) (id : NodeId)
    (start : Context) : Walk (Nat × List Stmt × Expr) := do
  let declared ← (declareUnit tree id).run start.beginFunction
  let written ← (executeUnit tree id).run declared.2
  let value ← (yieldUnit tree id).run written.2
  pure (declared.2.errorCount, written.1, value.1)

/- Truth values and addresses of variables are numbers. -/
def words : Runtime where
  Datum := Nat
  Memory := Nat → Nat
  look
    | .value _, address, memory => memory address
    | _, datum, _ => datum
  build
    | .constant (.bool true), _ => 1
    | _, _ => 0
  holds datum := datum != 0
  perform
    | .deref _ _ slot, _, memory => (slot.tag.number, memory)
    | .store _ _ _, address :: datum :: _, memory => (0, Function.update memory address datum)
    | _, _, memory => (0, memory)

/- `IF b THEN target := FALSE ELSE c := TRUE FI`. -/
def flagged (target : TagId) : SyntaxTree where
  nodes := Figure.nodes [.unit .conditionalClause ⟨10⟩
      [.ifPart (.valueOf ⟨3⟩ ⟨10⟩ ⟨0⟩),
        .branch .thenPart ⟨10⟩ [.assign ⟨10⟩ target (.denoter ⟨3⟩ "FALSE")],
        .branch .elsePart ⟨10⟩ [.assign ⟨10⟩ ⟨2⟩ (.denoter ⟨3⟩ "TRUE")]]]
  modes := ModeTable.standardTable
  tags := ⟨#[{ name := "b", mode := ⟨10⟩, kind := .var },
      { name := "d", mode := ⟨10⟩, kind := .var },
      { name := "c", mode := ⟨10⟩, kind := .var }]⟩
  root := some ⟨0⟩

instance : DecidableEq words.Datum := inferInstanceAs (DecidableEq Nat)

/- The first variable is true and the others are false. -/
def wordsAtStart : words.State where
  temps := fun _ => (0 : Nat)
  memory := fun address : Nat => if address = 0 then (1 : Nat) else (0 : Nat)

/- Whether guards find the same, and what happens. -/
def runAlone (tree : SyntaxTree) (id : NodeId) : Walk (Nat × Bool × List Event) :=
  (fun code => (code.1, decide (AreSteady (wordsAtStart.trail code.2.1 code.2.2)),
      eventsOf (wordsAtStart.trail code.2.1 code.2.2))) <$>
    tree.codeAlone id (.ofOptions { level := 3 })

/- A store elsewhere: the guard answers yes both times. -/
theorem guards_asked_again_flagged :
    (flagged ⟨1⟩).Conforms ∧
      (flagged ⟨1⟩).isBasic ⟨0⟩ 3 = .ok true ∧
      ∃ body value,
        (flagged ⟨1⟩).codeAlone ⟨0⟩ (.ofOptions { level := 3 }) = .ok (0, body, value) ∧
        AreSteady (wordsAtStart.trail body value) ∧
        .use ⟨"d_obj", ⟨8⟩⟩ ∈ eventsOf (wordsAtStart.trail body value) ∧
        (∀ early temp late,
          eventsOf (wordsAtStart.trail body value) = early ++ .use temp :: late →
          .assign temp ∈ early) ∧
        Recalls (Stmt.runAll wordsAtStart body).2
          (value.moments (Stmt.runAll wordsAtStart body).1) := by
  have hTree : (flagged ⟨1⟩).Conforms := conforms_of_isOrderly (by decide +kernel)
  have hBasic : (flagged ⟨1⟩).isBasic ⟨0⟩ 3 = .ok true := by
    decide +kernel
  have hRun : (flagged ⟨1⟩).runAlone ⟨0⟩ = .ok (0, true,
      [.assign ⟨"b_obj", ⟨4⟩⟩, .use ⟨"b_obj", ⟨4⟩⟩,
        .assign ⟨"d_obj", ⟨8⟩⟩, .use ⟨"d_obj", ⟨8⟩⟩,
        .store ⟨"d_obj", ⟨8⟩⟩, .use ⟨"b_obj", ⟨4⟩⟩,
        .use ⟨"d_obj", ⟨8⟩⟩]) := by
    decide +kernel
  rcases Walk.map_eq_ok.mp hRun with
    ⟨⟨errors, body, value⟩, hCode, hFound⟩
  simp only [Prod.mk.injEq, decide_eq_true_eq] at hFound
  rcases hFound with ⟨rfl, hSteady, hEvents⟩
  refine ⟨hTree, hBasic, body, value, hCode, hSteady, by rw [hEvents]; decide, ?_⟩
  rcases hTree.guards_asked_again hBasic (.ofOptions { level := 3 })
    with ⟨context, hDeclare, hWritten⟩
  rw [codeAlone, hDeclare, Walk.ok_bind] at hCode
  simp only [Walk.bind_eq_ok, Walk.pure_eq_ok, Except.ok.injEq, Prod.mk.injEq] at hCode
  rcases hCode with
    ⟨⟨_, after⟩, hExecute, _, hYield, hCount, rfl, rfl⟩
  rcases hWritten hCount with
    ⟨found, other, again, hFound, hValue, hAll⟩
  cases hFound.symm.trans hExecute
  cases hValue.symm.trans hYield
  exact hAll words wordsAtStart hSteady

/-
  A branch that stores into what its guard reads: the guard answers no where the value is wanted,
  and what belongs to the other branch is read.
-/
theorem guard_upset_by_its_branch :
    (flagged ⟨0⟩).Conforms ∧
      (flagged ⟨0⟩).isBasic ⟨0⟩ 3 = .ok true ∧
      ∃ body value early temp late,
        (flagged ⟨0⟩).codeAlone ⟨0⟩ (.ofOptions { level := 3 }) = .ok (0, body, value) ∧
        eventsOf (wordsAtStart.trail body value) = early ++ .use temp :: late ∧
        .assign temp ∉ early := by
  have hRun : (flagged ⟨0⟩).runAlone ⟨0⟩ = .ok (0, false,
      [.assign ⟨"b_obj", ⟨4⟩⟩, .use ⟨"b_obj", ⟨4⟩⟩,
        .use ⟨"b_obj", ⟨4⟩⟩, .store ⟨"b_obj", ⟨4⟩⟩,
        .use ⟨"b_obj", ⟨4⟩⟩, .use ⟨"c_obj", ⟨13⟩⟩]) := by
    decide +kernel
  rcases Walk.map_eq_ok.mp hRun with
    ⟨⟨errors, body, value⟩, hCode, hFound⟩
  simp only [Prod.mk.injEq] at hFound
  rcases hFound with ⟨rfl, -, hEvents⟩
  exact ⟨conforms_of_isOrderly (by decide +kernel),
    by decide +kernel, body, value,
    [.assign ⟨"b_obj", ⟨4⟩⟩, .use ⟨"b_obj", ⟨4⟩⟩,
      .use ⟨"b_obj", ⟨4⟩⟩, .store ⟨"b_obj", ⟨4⟩⟩,
      .use ⟨"b_obj", ⟨4⟩⟩], ⟨"c_obj", ⟨13⟩⟩, [], hCode, hEvents,
    by decide⟩

end SyntaxTree

end Algol68
