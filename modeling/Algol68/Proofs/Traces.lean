import Algol68.Proofs.Contents

/-
  What happens along the paths through generated code.

  A path takes a branch for every guard that it meets, also where the value of a conditional is
  asked for again. Every round of a loop decides anew.
-/

------ Temporaries of Code

namespace Algol68

open List

namespace Expr

mutual

/- The temporaries in an expression. -/
def temps : Expr → List Temp
  | .blank | .constant _ | .nil => []
  | .temp name => [name]
  | .value pointer | .content pointer | .reference pointer => [pointer]
  | .apply _ operands => tempsOf operands
  | .toReal operand => temps operand
  | .sameName _ left right => temps left ++ temps right
  | .choose _ guard yes no => temps guard ++ (temps yes ++ temps no)

/- The temporaries in expressions. -/
def tempsOf : List Expr → List Temp
  | [] => []
  | expr :: rest => temps expr ++ tempsOf rest

end

attribute [simp] tempsOf

theorem mem_tempsOf {temp : Temp} : temp ∈ tempsOf ops ↔ ∃ op ∈ ops, temp ∈ op.temps := by
  induction ops with
  | nil => simp
  | cons op rest ih => simp [ih]

end Expr

/- The temporary that leads to a place. -/
def Place.temp : Place → Temp
  | .object pointer => pointer
  | .target _ reference => reference

/- The temporaries that a statement reads besides. -/
def Stmt.reads : Stmt → List Temp
  | .checkInitialised pointer _ => [pointer]
  | .element _ _ row _ => [row]
  | .component _ base _ | .field _ _ base _ => [base]
  | .checkMath result _ => [result]
  | .store place _ _ => [place.temp]
  | .generate _ reference _ => [reference]
  | .resetStack mark | .closeFrame mark | .bindArguments _ mark => [mark]
  | .setCounter counter count => [counter, count]
  | .loop header _ =>
    ["from", "by", "count"].map header.temp ++
      if header.hasLimit then [header.temp "to"] else []
  | _ => []

/- The temporaries that a statement gives a value to, or a part of a value. -/
def Stmt.targets : Stmt → List Temp
  | .fetch target _ _ | .deref target _ _
  | .element target _ _ _ | .component target _ _
  | .field target _ _ _ | .compute target _
  | .computeInto _ target _ | .setPair target _ _
  | .initialiseField _ target _ | .setField _ target _ _
  | .referenceTo target _ | .saveStack target
  | .saveFrame target => [target]
  | .loop header _ => [header.temp "count"]
  | _ => []

/- The temporaries in a statement, what is inside aside. -/
@[simp] def Stmt.mentions (stmt : Stmt) : List Temp :=
  stmt.targets ++ stmt.reads ++ Expr.tempsOf stmt.operands

------ Events

/- Something that happens along a path. -/
inductive Event
  /- A temporary is given a value. -/
  | assign (target : Temp)
  /- A temporary is read. -/
  | use (temp : Temp)
  /- A value is stored where a temporary points to. -/
  | store (pointer : Temp)
  /- Other code is run at a node. -/
  | leave (node : NodeId)
deriving DecidableEq, Repr

/- The answers that the guard of a conditional may give. -/
abbrev Choices := NodeId → Expr → Bool → Prop

namespace Expr

mutual

/- The temporaries that may be read for a value. -/
def Uses (choices : Choices) : Expr → List Temp → Prop
  | .blank, uses | .constant _, uses | .nil, uses => uses = []
  | .temp name, uses => uses = [name]
  | .value pointer, uses | .content pointer, uses
  | .reference pointer, uses => uses = [pointer]
  | .apply _ operands, uses => UsesOf choices operands uses
  | .toReal operand, uses => Uses choices operand uses
  | .sameName _ left right, uses => ∃ first second,
      Uses choices left first ∧ Uses choices right second ∧ uses = first ++ second
  | .choose node guard yes no, uses => ∃ first second, Uses choices guard first ∧
        (choices node guard true ∧ Uses choices yes second ∨
          choices node guard false ∧ Uses choices no second) ∧
        uses = first ++ second

/- The temporaries that may be read for values. -/
def UsesOf (choices : Choices) : List Expr → List Temp → Prop
  | [], uses => uses = []
  | expr :: rest, uses => ∃ first others, Uses choices expr first ∧ UsesOf choices rest others ∧
        uses = first ++ others

end

end Expr

/- What a statement does beyond its temporaries. -/
def Stmt.effects : Stmt → List Event
  | .store place _ _ => [.store place.temp]
  | .generate _ reference _ => [.store reference]
  | .setCounter counter _ => [.store counter]
  | .call _ site | .declaration site => [.leave site.node]
  | .bindArguments routine _ => [.leave routine]
  | .executeUnit body _ => [.leave body]
  | _ => []

namespace LoopHeader

variable (header : LoopHeader)

/- The counter of a loop is started. -/
def starts : List Event :=
  [.use (header.temp "from"), .assign (header.temp "count")]

/- Whether a loop goes on is found out. -/
def tests : List Event :=
  if header.hasLimit then
    [.use (header.temp "by"), .use (header.temp "count"), .use (header.temp "to")]
  else []

/- The counter of a loop is stepped. -/
def steps : List Event :=
  [.use (header.temp "count"), .use (header.temp "by"), .assign (header.temp "count")]

end LoopHeader

namespace Stmt

mutual

/-
  What may happen along a path through a statement. Each round
  of a loop has choices of its own that are allowed.
-/
def Runs (allowed : Choices → Prop) (choices : Choices) : Stmt → List Event → Prop
  | .branch node guard yes no, events => ∃ uses inner, guard.Uses choices uses ∧
        (choices node guard true ∧ RunsOf allowed choices yes inner ∨ choices node guard false ∧
            RunsOf allowed choices no inner) ∧
        events = uses.map .use ++ inner
  | .branchOnly guard yes, events => ∃ uses inner, guard.Uses choices uses ∧
        (inner = [] ∨ RunsOf allowed choices yes inner) ∧ events = uses.map .use ++ inner
  | .switch selector arms otherwise, events => ∃ uses inner, selector.Uses choices uses ∧
        (RunsArm allowed choices arms inner ∨ RunsOf allowed choices otherwise inner) ∧
        events = uses.map .use ++ inner
  | .loop header body, events =>
    ∃ rounds : List (List Event), (∀ round ∈ rounds, ∃ decided inner, allowed decided ∧
        RunsOf allowed decided body inner ∧ round = header.tests ++ inner ++ header.steps) ∧
      events = header.starts ++ rounds.flatten ++ header.tests
  | .block body, events => RunsOf allowed choices body events
  | stmt, events => ∃ uses, Expr.UsesOf choices stmt.operands uses ∧
        events = (stmt.reads ++ uses).map .use ++ (stmt.targets.map .assign ++ stmt.effects)

/- What may happen along a path through statements. -/
def RunsOf (allowed : Choices → Prop) (choices : Choices) : List Stmt → List Event → Prop
  | [], events => events = []
  | stmt :: rest, events => ∃ first others, Runs allowed choices stmt first ∧
        RunsOf allowed choices rest others ∧ events = first ++ others

/- What may happen along a path through one of the arms. -/
def RunsArm (allowed : Choices → Prop) (choices : Choices) : List (List Stmt) → List Event → Prop
  | [], _ => False
  | arm :: rest, events => RunsOf allowed choices arm events ∨ RunsArm allowed choices rest events

end

end Stmt

------ Paths

namespace Expr

mutual

theorem Uses.mem_temps {expr : Expr} {uses : List Temp} (hUses : expr.Uses choices uses) :
    ∀ read ∈ uses, read ∈ expr.temps := by
  intro read hRead
  cases expr
  case apply rendering ops =>
    rw [Uses] at hUses
    exact UsesOf.mem_tempsOf hUses read hRead
  case toReal op =>
    rw [Uses] at hUses
    exact Uses.mem_temps hUses read hRead
  case sameName same left right =>
    rw [Uses] at hUses
    rcases hUses with ⟨first, second, hFirst, hSecond, rfl⟩
    rcases mem_append.mp hRead with hLeft | hRight
    · exact mem_append_left _ (Uses.mem_temps hFirst read hLeft)
    · exact mem_append_right _ (Uses.mem_temps hSecond read hRight)
  case choose node guard yes no =>
    rw [Uses] at hUses
    rcases hUses with ⟨first, second, hFirst, hSecond, rfl⟩
    rcases mem_append.mp hRead with hGuard | hPart
    · exact mem_append_left _ (Uses.mem_temps hFirst read hGuard)
    · apply mem_append_right
      rcases hSecond with ⟨-, hYes⟩ | ⟨-, hNo⟩
      · exact mem_append_left _ (Uses.mem_temps hYes read hPart)
      · exact mem_append_right _ (Uses.mem_temps hNo read hPart)
  all_goals
    rw [Uses] at hUses
    subst hUses
    exact hRead

theorem UsesOf.mem_tempsOf {operands : List Expr} {uses : List Temp}
    (hUses : UsesOf choices operands uses) : ∀ read ∈ uses, read ∈ tempsOf operands := by
  intro read hRead
  cases operands with
  | nil =>
    rw [UsesOf] at hUses
    subst hUses
    exact hRead
  | cons expr rest =>
    rw [UsesOf] at hUses
    rcases hUses with ⟨first, others, hFirst, hOthers, rfl⟩
    rcases mem_append.mp hRead with hLeft | hRight
    · exact mem_append_left _ (Uses.mem_temps hFirst read hLeft)
    · exact mem_append_right _ (UsesOf.mem_tempsOf hOthers read hRight)

end

end Expr

namespace Stmt

variable {stmt : Stmt}

/- Whether a statement has no statements inside. -/
def isSimple : Stmt → Bool
  | .branch _ _ _ _ | .branchOnly _ _ | .switch _ _ _
  | .loop _ _ | .block _ => false
  | _ => true

theorem within_of_isSimple (hSimple : stmt.isSimple = true) : within stmt = [stmt] := by
  cases stmt <;> first | rfl | cases hSimple

theorem runs_of_isSimple (hSimple : stmt.isSimple = true) :
    Runs allowed choices stmt events ↔ ∃ uses, Expr.UsesOf choices stmt.operands uses ∧
        events = (stmt.reads ++ uses).map .use ++ (stmt.targets.map .assign ++ stmt.effects) := by
  unfold Runs
  split
  · cases hSimple
  · cases hSimple
  · cases hSimple
  · cases hSimple
  · cases hSimple
  · rfl

@[simp] theorem runsOf_nil : RunsOf allowed choices [] events ↔ events = [] := by
  simp [RunsOf]

theorem runsOf_cons :
    RunsOf allowed choices (stmt :: rest) events ↔ ∃ first others, Runs allowed choices stmt first ∧
        RunsOf allowed choices rest others ∧ events = first ++ others := by
  simp [RunsOf]

@[simp] theorem runsOf_singleton :
    RunsOf allowed choices [stmt] events ↔ Runs allowed choices stmt events := by
  simp [runsOf_cons]

/- A path through two lists of statements is a path through both. -/
theorem runsOf_append : RunsOf allowed choices (first ++ second) events ↔
      ∃ before after, RunsOf allowed choices first before ∧ RunsOf allowed choices second after ∧
          events = before ++ after := by
  induction first generalizing events with
  | nil => simp
  | cons stmt rest ih =>
    simp only [cons_append, runsOf_cons, ih]
    constructor
    · rintro ⟨head, _, hHead, ⟨before, after, hBefore, hAfter, rfl⟩, rfl⟩
      exact ⟨head ++ before, after, ⟨head, before, hHead, hBefore, rfl⟩, hAfter, by simp⟩
    · rintro ⟨_, after, ⟨head, before, hHead, hBefore, rfl⟩, hAfter, rfl⟩
      exact ⟨head, before ++ after, hHead, ⟨before, after, hBefore, hAfter, rfl⟩, by simp⟩

theorem runsArm_iff :
    RunsArm allowed choices arms events ↔ ∃ arm ∈ arms, RunsOf allowed choices arm events := by
  induction arms with
  | nil => simp [RunsArm]
  | cons arm rest ih => simp [RunsArm, ih]

/- What may happen at a statement itself. -/
def MayDo (stmt : Stmt) : Event → Prop
  | .use temp => temp ∈ stmt.mentions
  | .assign temp => temp ∈ stmt.targets
  | event => event ∈ stmt.effects

theorem mayDo_of_mem_effects (hEvent : event ∈ stmt.effects) : stmt.MayDo event := by
  cases event with
  | store ptr | leave => exact hEvent
  | use temp | assign =>
    unfold effects at hEvent
    split at hEvent <;> simp at hEvent

theorem mayDo_use_of_operand (hOp : op ∈ stmt.operands) (hUses : op.Uses choices uses)
    (hEvent : event ∈ uses.map Event.use) : stmt.MayDo event := by
  rcases mem_map.mp hEvent with ⟨temp, hTemp, rfl⟩
  exact mem_append_right _ (Expr.mem_tempsOf.mpr ⟨op, hOp, hUses.mem_temps temp hTemp⟩)

/- A statement without others inside does what it may. -/
theorem mayDo_of_isSimple (hSimple : stmt.isSimple = true)
    (hRuns : Runs allowed choices stmt events) (hEvent : event ∈ events) : stmt.MayDo event := by
  rcases (runs_of_isSimple hSimple).mp hRuns with ⟨uses, hUses, rfl⟩
  rcases mem_append.mp hEvent with hUse | hAct
  · rcases mem_map.mp hUse with ⟨temp, hTemp, rfl⟩
    rcases mem_append.mp hTemp with hRead | hOp
    · exact mem_append_left _ (mem_append_right _ hRead)
    · exact mem_append_right _ (hUses.mem_tempsOf temp hOp)
  · rcases mem_append.mp hAct with hAssign | hEffect
    · rcases mem_map.mp hAssign with ⟨temp, hTemp, rfl⟩
      exact hTemp
    · exact mayDo_of_mem_effects hEffect

/- What a loop does with its own temporaries. -/
theorem mayDo_of_header
    (hEvent : event ∈ header.starts ∨ event ∈ header.tests ∨ event ∈ header.steps) :
    (Stmt.loop header body).MayDo event := by
  have hCount : header.temp "count" ∈ (Stmt.loop header body).targets := mem_singleton_self _
  have hReads : ∀ stem ∈ ["from", "by", "count"],
      header.temp stem ∈ (Stmt.loop header body).mentions := by
    intro stem hStem
    exact mem_append_left _ (mem_append_right _ (mem_append_left _ (mem_map_of_mem hStem)))
  rcases hEvent with hStart | hTest | hStep
  · rcases mem_cons.mp hStart with rfl | hStart
    · exact hReads "from" (by simp)
    · rcases mem_singleton.mp hStart with rfl
      exact hCount
  · unfold LoopHeader.tests at hTest
    split at hTest
    · rename_i hLimit
      rcases mem_cons.mp hTest with rfl | hTest
      · exact hReads "by" (by simp)
      · rcases mem_cons.mp hTest with rfl | hTest
        · exact hReads "count" (by simp)
        · rcases mem_singleton.mp hTest with rfl
          refine mem_append_left _ (mem_append_right _ ?_)
          exact mem_append_right _ (by simp [hLimit])
    · simp at hTest
  · rcases mem_cons.mp hStep with rfl | hStep
    · exact hReads "count" (by simp)
    · rcases mem_cons.mp hStep with rfl | hStep
      · exact hReads "by" (by simp)
      · rcases mem_singleton.mp hStep with rfl
        exact hCount

theorem exists_mem_append {first second : List Stmt} {found : Stmt → Prop} :
    (∃ stmt ∈ first ++ second, found stmt) ↔
      (∃ stmt ∈ first, found stmt) ∨ ∃ stmt ∈ second, found stmt := by
  simp only [mem_append, or_and_right, exists_or]

mutual

/- What happens along a path happens at one of the statements. -/
theorem Runs.exists_stmt {stmt : Stmt} {choices : Choices} {events : List Event}
    (hRuns : Runs allowed choices stmt events) :
    ∀ event ∈ events, ∃ inner ∈ within stmt, inner.MayDo event := by
  intro event hEvent
  cases stmt
  case branch node guard yes no =>
    rw [Runs] at hRuns
    rcases hRuns with ⟨uses, inner, hUses, hInner, rfl⟩
    rw [within, exists_mem_cons_iff, exists_mem_append]
    rcases mem_append.mp hEvent with hUse | hPart
    · exact .inl (mayDo_use_of_operand (mem_singleton_self guard) hUses hUse)
    · exact .inr (hInner.imp (fun hYes => RunsOf.exists_stmt hYes.2 event hPart)
        fun hNo => RunsOf.exists_stmt hNo.2 event hPart)
  case branchOnly guard yes =>
    rw [Runs] at hRuns
    rcases hRuns with ⟨uses, inner, hUses, hInner, rfl⟩
    rw [within, exists_mem_cons_iff]
    rcases mem_append.mp hEvent with hUse | hPart
    · exact .inl (mayDo_use_of_operand (mem_singleton_self guard) hUses hUse)
    · rcases hInner with rfl | hYes
      · simp at hPart
      · exact .inr (RunsOf.exists_stmt hYes event hPart)
  case switch sel arms otherwise =>
    rw [Runs] at hRuns
    rcases hRuns with ⟨uses, inner, hUses, hInner, rfl⟩
    rw [within, exists_mem_cons_iff, exists_mem_append]
    rcases mem_append.mp hEvent with hUse | hPart
    · exact .inl (mayDo_use_of_operand (mem_singleton_self sel) hUses hUse)
    · exact .inr (hInner.imp (fun hArm => RunsArm.exists_stmt hArm event hPart)
        fun hOther => RunsOf.exists_stmt hOther event hPart)
  case loop header body =>
    rw [Runs] at hRuns
    rcases hRuns with ⟨rounds, hRounds, rfl⟩
    rw [within, exists_mem_cons_iff]
    rcases mem_append.mp hEvent with hEarly | hTest
    · rcases mem_append.mp hEarly with hStart | hRound
      · exact .inl (mayDo_of_header (.inl hStart))
      · rcases mem_flatten.mp hRound with ⟨round, hMem, hPart⟩
        rcases hRounds round hMem with ⟨decided, inner, -, hInner, rfl⟩
        rcases mem_append.mp hPart with hFirst | hStep
        · rcases mem_append.mp hFirst with hTest | hBody
          · exact .inl (mayDo_of_header (.inr (.inl hTest)))
          · exact .inr (RunsOf.exists_stmt hInner event hBody)
        · exact .inl (mayDo_of_header (.inr (.inr hStep)))
    · exact .inl (mayDo_of_header (.inr (.inl hTest)))
  case block body =>
    rw [Runs] at hRuns
    exact exists_mem_cons_of_exists (RunsOf.exists_stmt hRuns event hEvent)
  all_goals
    exact ⟨_, mem_singleton_self _, mayDo_of_isSimple rfl hRuns hEvent⟩

theorem RunsOf.exists_stmt {body : List Stmt} {choices : Choices} {events : List Event}
    (hRuns : RunsOf allowed choices body events) :
    ∀ event ∈ events, ∃ inner ∈ withinOf body, inner.MayDo event := by
  intro event hEvent
  cases body with
  | nil =>
    rw [RunsOf] at hRuns
    subst hRuns
    cases hEvent
  | cons stmt rest =>
    rw [RunsOf] at hRuns
    rcases hRuns with ⟨first, others, hFirst, hOthers, rfl⟩
    exact exists_mem_append.mpr ((mem_append.mp hEvent).imp (Runs.exists_stmt hFirst event)
      (RunsOf.exists_stmt hOthers event))

theorem RunsArm.exists_stmt {arms : List (List Stmt)} {choices : Choices} {events : List Event}
    (hRuns : RunsArm allowed choices arms events) :
    ∀ event ∈ events, ∃ inner ∈ withinArms arms, inner.MayDo event := by
  intro event hEvent
  cases arms with
  | nil =>
    rw [RunsArm] at hRuns
    exact hRuns.elim
  | cons arm rest =>
    rw [RunsArm] at hRuns
    exact exists_mem_append.mpr (hRuns.imp (fun hArm => RunsOf.exists_stmt hArm event hEvent)
      fun hRest => RunsArm.exists_stmt hRest event hEvent)

end

end Stmt

------ Tidy Paths

variable {kept : Temp → Prop}

/- Whatever is read for a value is known. -/
def Expr.ReadsOnly (choices : Choices) (known : Temp → Prop) (expr : Expr) : Prop :=
  ∀ uses, expr.Uses choices uses → ∀ temp ∈ uses, known temp

theorem Expr.UsesOf.readsOnly (hReads : ∀ op ∈ ops, op.ReadsOnly choices known)
    (hUses : UsesOf choices ops uses) : ∀ temp ∈ uses, known temp := by
  induction ops generalizing uses with
  | nil =>
    rw [UsesOf] at hUses
    simp [hUses]
  | cons op rest ih =>
    rcases hUses with ⟨first, others, hFirst, hOthers, rfl⟩
    intro temp hTemp
    rcases mem_append.mp hTemp with hLeft | hRight
    · exact hReads op mem_cons_self first hFirst temp hLeft
    · exact ih (fun other hOther => hReads other (mem_cons_of_mem _ hOther)) hOthers temp hRight

namespace Event

/-
  Along a path every temporary is given a value before it is
  read, unless it is known, and so is what is kept.
-/
structure Tidy (known kept : Temp → Prop) (events : List Event) : Prop where
  used : ∀ early temp late, events = early ++ .use temp :: late → known temp ∨ .assign temp ∈ early
  kept : ∀ temp, kept temp → known temp ∨ .assign temp ∈ events

namespace Tidy

theorem nil (hKept : ∀ temp, kept temp → known temp) : Tidy known kept [] where
  used := by simp
  kept := fun temp hTemp => .inl (hKept temp hTemp)

/- One path after the other. -/
theorem append (hFirst : Tidy known mid first) (hSecond : Tidy mid kept second) :
    Tidy known kept (first ++ second) where
  used := by
    -- A use in the second path may rest on the first one.
    have hEarlier : ∀ rest temp, (mid temp ∨ .assign temp ∈ rest) →
          known temp ∨ .assign temp ∈ first ++ rest := by
      rintro rest temp (hMid | hAssign)
      · rcases hFirst.kept temp hMid with hKnown | hBefore
        · exact .inl hKnown
        · exact .inr (mem_append_left _ hBefore)
      · exact .inr (mem_append_right _ hAssign)
    intro early temp late hEvents
    rcases append_eq_append_iff.mp hEvents with ⟨rest, rfl, hSplit⟩ | ⟨rest, hSplit, hLate⟩
    · exact hEarlier rest temp (hSecond.used rest temp late hSplit)
    · cases rest with
      | nil =>
        subst hSplit
        have hUsed := hSecond.used [] temp late hLate.symm
        simpa using hEarlier [] temp hUsed
      | cons event others =>
        rcases hLate with ⟨rfl, -⟩
        exact hFirst.used early temp others hSplit
  kept := by
    intro temp hKept
    rcases hSecond.kept temp hKept with hMid | hAssign
    · rcases hFirst.kept temp hMid with hKnown | hBefore
      · exact .inl hKnown
      · exact .inr (mem_append_left _ hBefore)
    · exact .inr (mem_append_right _ hAssign)

theorem mono (hTidy : Tidy known kept events) (hKept : ∀ temp, less temp → known temp ∨ kept temp) :
    Tidy known less events where
  used := hTidy.used
  kept := by
    intro temp hLess
    rcases hKept temp hLess with hKnown | hTemp
    · exact .inl hKnown
    · exact hTidy.kept temp hTemp

theorem of_uses {temps : List Temp} (hTemps : ∀ temp ∈ temps, known temp)
    (hKept : ∀ temp, kept temp → known temp) : Tidy known kept (temps.map .use) where
  used := by
    intro early temp late hEvents
    have hMem : Event.use temp ∈ temps.map Event.use := by
      rw [hEvents]
      exact mem_append_right _ mem_cons_self
    rcases mem_map.mp hMem with ⟨other, hOther, hSame⟩
    cases hSame
    exact .inl (hTemps temp hOther)
  kept := fun temp hTemp => .inl (hKept temp hTemp)

/- Nothing is read. -/
theorem of_no_use (hUse : ∀ temp, .use temp ∉ events)
    (hKept : ∀ temp, kept temp → known temp ∨ .assign temp ∈ events) : Tidy known kept events where
  used := by
    intro early temp late hEvents
    refine absurd ?_ (hUse temp)
    rw [hEvents]
    exact mem_append_right _ mem_cons_self
  kept := hKept

/- A statement reads what is known and gives values to others. -/
theorem of_isSimple (hSimple : stmt.isSimple = true)
    (hRuns : Stmt.Runs allowed choices stmt events) (hReads : ∀ temp ∈ stmt.reads, known temp)
    (hOps : ∀ op ∈ stmt.operands, op.ReadsOnly choices known)
    (hKept : ∀ temp, kept temp → known temp ∨ temp ∈ stmt.targets) : Tidy known kept events := by
  rcases (Stmt.runs_of_isSimple hSimple).mp hRuns with ⟨uses, hUses, rfl⟩
  have hTemps : ∀ temp ∈ stmt.reads ++ uses, known temp := by
    intro temp hTemp
    rcases mem_append.mp hTemp with hRead | hOp
    · exact hReads temp hRead
    · exact hUses.readsOnly hOps temp hOp
  refine (of_uses hTemps fun _ hKnown => hKnown).append (of_no_use ?_ ?_)
  · intro temp hUse
    rcases mem_append.mp hUse with hAssign | hEffect
    · simp at hAssign
    · unfold Stmt.effects at hEffect
      split at hEffect <;> simp at hEffect
  · intro temp hTemp
    rcases hKept temp hTemp with hKnown | hTarget
    · exact .inl hKnown
    · exact .inr (mem_append_left _ (mem_map_of_mem hTarget))

end Tidy

end Event

end Algol68
