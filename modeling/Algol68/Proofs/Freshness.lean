import Algol68.Proofs.Ancestry
import Algol68.Proofs.Stores

/-
  Elements are found again where they may have moved.

  What is booked is taken to be where it was. In a clause whose guards, selectors and bounds hold
  no slice that is disturbed before it is read again, and whose items disturb none of their own
  slices before they are done, nothing stale is read along any path.
-/

------ Units that Disturb no Slices

namespace Algol68

variable {tree : SyntaxTree} {id : NodeId}

namespace SyntaxTree

open Inline

/- No store of a unit disturbs a slice of another. -/
def Spares (tree : SyntaxTree) (unit lead : NodeId) : Prop :=
  ∀ store slice, tree.Holds unit store → tree.Holds lead slice → ¬ tree.Disturbs store slice

/- No store of a unit disturbs a slice of earlier units that is read again later. -/
def SparesFor (tree : SyntaxTree) (unit : NodeId) (leads later : List NodeId) : Prop :=
  ∀ lead ∈ leads, ∀ next ∈ later, ∀ store slice other, tree.Holds unit store →
    tree.Holds lead slice → tree.Holds next other → tree.Alike slice other →
      ¬ tree.Disturbs store slice

/- A unit is another one, or encloses it and nothing else. -/
inductive ComesTo (tree : SyntaxTree) : NodeId → NodeId → Prop
  | self {id : NodeId} : ComesTo tree id id
  | enclosed {id only inner : NodeId} (hEncloses : IsEnclosing tree id)
      (hOnly : childOf tree id 0 = .ok only) (hInner : ComesTo tree only inner) :
      ComesTo tree id inner

/-
  The slices of a unit are disturbed by nothing in it but the
  store that it comes to, which is the last thing it does.
-/
def Settles (tree : SyntaxTree) (unit : NodeId) : Prop :=
  ∀ store slice, tree.Holds unit store → tree.Holds unit slice → tree.Disturbs store slice →
      tree.ComesTo unit store ∧ childOf tree store 0 ≠ .ok slice

/- A unit comes to one that encloses nothing in one way. -/
theorem ComesTo.unique (hInner : tree.ComesTo id lower) (hOther : tree.ComesTo id other)
    (hPlain : ¬ IsEnclosing tree lower) (hAgain : ¬ IsEnclosing tree other) : lower = other := by
  induction hInner with
  | self =>
    cases hOther with
    | self => rfl
    | enclosed hEncloses _ _ => exact absurd hEncloses hPlain
  | enclosed hEncloses hOnly _ ih =>
    cases hOther with
    | self => exact absurd hEncloses hAgain
    | enclosed _ hFound hRest =>
      cases hOnly.symm.trans hFound
      exact ih hRest hPlain

theorem not_isEnclosing_of_assignation (hAttr : tree.attr id = .ok .assignation) :
    ¬ IsEnclosing tree id := by
  rintro ⟨attr, hFound, hEncloses⟩
  cases hAttr.symm.trans hFound
  exact absurd hEncloses (by decide)

end SyntaxTree

/- What is written for a unit that comes to an assignation. -/
theorem Inline.CodeWithin.exists_assignation (hComes : tree.ComesTo id store)
    (hAttr : tree.attr store = .ok .assignation)
    (hCode : CodeWithin tree ctx fuel id before body after val) :
    body = [] ∧ val.temps = [] ∨ ∃ depth destination source mid first second temp form stored,
        assignationOf tree store = .ok (destination, source) ∧
        CodeWithin tree ctx depth source before first mid stored ∧
        AddressCode tree ctx (CodeWithin tree ctx depth) destination mid second after temp ∧
        body = first ++ second ++ [.store (.object temp) form stored] ∧
        (val = .reference temp ∨ val = .blank) := by
  induction hComes generalizing fuel body val with
  | self =>
    cases fuel with
    | zero => exact hCode.elim
    | succ depth =>
      rcases hCode with ⟨rfl, -, -, constant, rfl⟩ | hShape
      · exact .inl ⟨rfl, rfl⟩
      · right
        cases hShape with
        | name hName => cases hAttr.symm.trans hName
        | object _ hReads | inPlace _ hReads | kept _ _ _ hReads =>
          exact absurd hAttr hReads.plain.not_assignation
        | enclosed hEncloses =>
          exact absurd hEncloses (SyntaxTree.not_isEnclosing_of_assignation hAttr)
        | choice hClause hMem =>
          exact absurd hAttr (plain_of_choice hClause hMem).not_assignation
        | assignation _ hAssign hSrc hAddr =>
          exact ⟨depth, _, _, _, _, _, _, _, _, hAssign, hSrc, hAddr, rfl, .inl rfl⟩
  | enclosed hEncloses hOnly _ ih =>
    cases fuel with
    | zero => exact hCode.elim
    | succ depth =>
      rcases hCode with ⟨rfl, -, -, constant, rfl⟩ | hShape
      · exact .inl ⟨rfl, rfl⟩
      · cases hShape with
        | name hName =>
          rcases hEncloses with ⟨attr, hFound, hMem⟩
          cases hName.symm.trans hFound
          exact absurd hMem (by decide)
        | object _ hReads | inPlace _ hReads | kept _ _ _ hReads =>
          exact absurd hEncloses hReads.plain.not_enclosing
        | choice hClause hMem =>
          exact absurd hEncloses (plain_of_choice hClause hMem).not_enclosing
        | assignation hOther =>
          exact absurd hEncloses (SyntaxTree.not_isEnclosing_of_assignation hOther)
        | enclosed _ hFound hInner hVal =>
          cases hOnly.symm.trans (childOf_eq hFound rfl)
          rcases ih hAttr hInner with ⟨rfl, hTemps⟩ | ⟨_, _, _, _, _, _, _, _, _, hAssign,
              hSrc, hAddr, hBody, hForm⟩
          · left
            rcases hVal with rfl | rfl
            · exact ⟨rfl, hTemps⟩
            · exact ⟨rfl, rfl⟩
          · right
            refine ⟨_, _, _, _, _, _, _, _, _, hAssign, hSrc, hAddr, hBody, ?_⟩
            rcases hVal with rfl | rfl
            · exact hForm
            · exact .inr rfl

------ Paths from One Point to Another

/- Every conditional is decided in one way. -/
def Choices.AreDecided (choices : Choices) : Prop :=
  ∀ node guard, ¬ (choices node guard true ∧ choices node guard false)

/- Temporaries that matter at a point, by what was decided. -/
abbrev Concern := Choices → Temp → Prop

/- The temporary of no element. -/
def SyntaxTree.IsUntracked (tree : SyntaxTree) (temp : Temp) : Prop := ∀ tag, ¬ tree.Tracks temp tag

namespace Event

theorem not_isStale_of_isUntracked (hTemp : tree.IsUntracked temp) :
    ¬ IsStale tree events temp := by
  rintro ⟨_, _, _, -, ⟨tag, -, hTracks⟩, -⟩
  exact hTemp tag hTracks

/- Nothing of interest happens. -/
def IsIdle (tree : SyntaxTree) (event : Event) : Prop :=
  (∃ temp, event = .use temp ∧ tree.IsUntracked temp) ∨ ∃ temp, event = .assign temp

theorem AreFresh.of_isIdle (hIdle : ∀ event ∈ events, event.IsIdle tree) :
    AreFresh tree past events := by
  intro early temp late hEvents
  rcases hIdle (.use temp) (by simp [hEvents]) with ⟨found, hFound, hTemp⟩ | ⟨_, hFound⟩
  · cases hFound
    exact not_isStale_of_isUntracked hTemp
  · cases hFound

theorem IsStale.of_isIdle (hIdle : ∀ event ∈ events, event.IsIdle tree)
    (hStale : IsStale tree (past ++ events) temp) : IsStale tree past temp := by
  refine hStale.of_calm ?_
  intro event hEvent
  rcases hIdle event hEvent with ⟨_, rfl, -⟩ | ⟨_, rfl⟩
  · exact not_upsets_use
  · exact not_upsets_assign

end Event

namespace Stmt

/-
  From where nothing that matters is stale, nothing stale is read along a path through statements,
  and nothing that matters behind them is stale then.
-/
def Keeps (tree : SyntaxTree) (before : Concern) (body : List Stmt) (after : Concern) : Prop :=
  ∀ choices past events, choices.AreDecided → (∀ temp, before choices temp →
      ¬ Event.IsStale tree past temp) →
    RunsOf Choices.AreDecided choices body events → Event.AreFresh tree past events ∧
        ∀ temp, after choices temp → ¬ Event.IsStale tree (past ++ events) temp

namespace Keeps

variable {before : Concern} {guard : Expr} {header : LoopHeader}

theorem nil : Keeps tree before [] before := by
  intro choices past events _ hBefore hRuns
  subst hRuns
  exact ⟨.nil, by simpa using hBefore⟩

theorem append (hFirst : Keeps tree before first mid)
    (hSecond : Keeps tree mid second after) : Keeps tree before (first ++ second) after := by
  intro choices past events hDecided hBefore hRuns
  rcases runsOf_append.mp hRuns with ⟨early, late, hEarly, hLate, rfl⟩
  rcases hFirst choices past early hDecided hBefore hEarly with ⟨hFresh, hMid⟩
  rcases hSecond choices _ late hDecided hMid hLate with ⟨hOthers, hAfter⟩
  rw [List.append_assoc] at hAfter
  exact ⟨hFresh.append hOthers, hAfter⟩

theorem cons (hFirst : Keeps tree before [stmt] mid) (hSecond : Keeps tree mid second after) :
    Keeps tree before (stmt :: second) after :=
  hFirst.append hSecond

theorem mono (hKeeps : Keeps tree before body after)
    (hMore : ∀ choices temp, before choices temp → more choices temp)
    (hLess : ∀ choices temp, less choices temp → after choices temp) :
    Keeps tree more body less := by
  intro choices past events hDecided hBefore hRuns
  rcases hKeeps choices past events hDecided
    (fun temp hTemp => hBefore temp (hMore choices temp hTemp)) hRuns with ⟨hFresh, hAfter⟩
  exact ⟨hFresh, fun temp hTemp => hAfter temp (hLess choices temp hTemp)⟩

/- A statement that upsets nothing that matters behind it. -/
theorem of_isSimple (hSimple : stmt.isSimple = true)
    (hReads : ∀ temp ∈ stmt.reads, tree.IsUntracked temp)
    (hOps : ∀ choices, ∀ op ∈ stmt.operands, op.ReadsOnly choices (before choices))
    (hLess : ∀ choices temp, after choices temp → before choices temp)
    (hCalm : ∀ choices temp, after choices temp →
      ∀ event ∈ stmt.effects, ¬ event.Upsets tree temp) :
    Keeps tree before [stmt] after := by
  intro choices past events _ hBefore hRuns
  rw [runsOf_singleton] at hRuns
  rcases (runs_of_isSimple hSimple).mp hRuns with ⟨uses, hUses, rfl⟩
  constructor
  · refine .append (.of_uses ?_) (.of_no_use ?_)
    · intro temp hTemp
      rcases List.mem_append.mp hTemp with hRead | hUse
      · exact Event.not_isStale_of_isUntracked (hReads temp hRead)
      · exact hBefore temp (hUses.readsOnly (hOps choices) temp hUse)
    · intro temp hUse
      rcases List.mem_append.mp hUse with hAssign | hEffect
      · simp at hAssign
      · unfold effects at hEffect
        split at hEffect <;> simp at hEffect
  · intro temp hTemp hStale
    apply hBefore temp (hLess choices temp hTemp)
    refine hStale.of_calm ?_
    intro event hEvent
    simp only [List.mem_append, List.mem_map] at hEvent
    rcases hEvent with ⟨_, -, rfl⟩ | ⟨_, -, rfl⟩ | hEffect
    · exact Event.not_upsets_use
    · exact Event.not_upsets_assign
    · exact hCalm choices temp hTemp event hEffect

variable (hGuard : ∀ choices, guard.ReadsOnly choices (before choices))

include hGuard

/- A guard is read before one of some ways is taken. -/
theorem of_guard (hWay : ∀ choices events, Runs Choices.AreDecided choices stmt events →
        ∃ uses way lower, guard.Uses choices uses ∧ Keeps tree before way after ∧
          RunsOf Choices.AreDecided choices way lower ∧ events = uses.map .use ++ lower) :
    Keeps tree before [stmt] after := by
  intro choices past events hDecided hBefore hRuns
  rw [runsOf_singleton] at hRuns
  rcases hWay choices events hRuns with ⟨uses, way, lower, hUses, hKeeps, hInner, rfl⟩
  have hRead : ∀ temp ∈ uses, ¬ Event.IsStale tree past temp := fun temp hTemp =>
      hBefore temp (hGuard choices uses hUses temp hTemp)
  rcases hKeeps choices _ lower hDecided
    (fun temp hTemp hStale => hBefore temp hTemp hStale.of_uses) hInner with ⟨hFresh, hAfter⟩
  rw [List.append_assoc] at hAfter
  exact ⟨.append (.of_uses hRead) hFresh, hAfter⟩

theorem branch (hYes : Keeps tree before yes after) (hNo : Keeps tree before no after) :
    Keeps tree before [.branch node guard yes no] after := by
  apply of_guard hGuard
  intro choices events hRuns
  rcases hRuns with ⟨uses, lower, hUses, ⟨-, hInner⟩ | ⟨-, hInner⟩, rfl⟩
  · exact ⟨uses, yes, lower, hUses, hYes, hInner, rfl⟩
  · exact ⟨uses, no, lower, hUses, hNo, hInner, rfl⟩

theorem branchOnly (hYes : Keeps tree before yes after)
    (hLess : ∀ choices temp, after choices temp → before choices temp) :
    Keeps tree before [.branchOnly guard yes] after := by
  apply of_guard hGuard
  intro choices events hRuns
  rcases hRuns with ⟨uses, lower, hUses, hNone | hInner, rfl⟩
  · exact ⟨uses, [], lower, hUses, nil.mono (fun _ _ => id) hLess, runsOf_nil.mpr hNone, rfl⟩
  · exact ⟨uses, yes, lower, hUses, hYes, hInner, rfl⟩

theorem switch (hArms : ∀ arm ∈ arms, Keeps tree before arm after)
    (hOther : Keeps tree before otherwise after) :
    Keeps tree before [.switch guard arms otherwise] after := by
  apply of_guard hGuard
  intro choices events hRuns
  rcases hRuns with ⟨uses, lower, hUses, hArm | hInner, rfl⟩
  · rcases runsArm_iff.mp hArm with ⟨arm, hMem, hInner⟩
    exact ⟨uses, arm, lower, hUses, hArms arm hMem, hInner, rfl⟩
  · exact ⟨uses, otherwise, lower, hUses, hOther, hInner, rfl⟩

omit hGuard

theorem block (hBody : Keeps tree before body after) : Keeps tree before [.block body] after := by
  intro choices past events hDecided hBefore hRuns
  rw [runsOf_singleton, Runs] at hRuns
  exact hBody choices past events hDecided hBefore hRuns

theorem isIdle_of_header (hHeader : ∀ stem, tree.IsUntracked (header.temp stem)) :
    ∀ event ∈ header.starts ++ header.tests ++ header.steps, event.IsIdle tree := by
  have hUse : ∀ stem, (Event.use (header.temp stem)).IsIdle tree :=
    fun stem => .inl ⟨_, rfl, hHeader stem⟩
  have hAssign : ∀ stem, (Event.assign (header.temp stem)).IsIdle tree := fun stem => .inr ⟨_, rfl⟩
  unfold LoopHeader.starts LoopHeader.tests LoopHeader.steps
  split <;> simp [hUse, hAssign]

/- One round after the other, each with its own choices. -/
theorem loop (hHeader : ∀ stem, tree.IsUntracked (header.temp stem))
    (hBody : Keeps tree (fun _ => always) body fun _ => always) :
    Keeps tree (fun _ => always) [.loop header body] fun _ => always := by
  have hIdle := isIdle_of_header hHeader
  simp only [List.mem_append] at hIdle
  -- Idle events may stand before a path that keeps something.
  have hBehind : ∀ {past idle events : List Event}, (∀ event ∈ idle, event.IsIdle tree) →
      (∀ temp, always temp → ¬ Event.IsStale tree past temp) → ((∀ temp, always temp →
          ¬ Event.IsStale tree (past ++ idle) temp) →
        Event.AreFresh tree (past ++ idle) events ∧ ∀ temp, always temp →
            ¬ Event.IsStale tree (past ++ idle ++ events) temp) →
        Event.AreFresh tree past (idle ++ events) ∧ ∀ temp, always temp →
            ¬ Event.IsStale tree (past ++ (idle ++ events)) temp := by
    intro past idle events hQuiet hBefore hEvents
    rcases hEvents fun temp hTemp hStale => hBefore temp hTemp (hStale.of_isIdle hQuiet) with
      ⟨hFresh, hAfter⟩
    rw [List.append_assoc] at hAfter
    exact ⟨.append (.of_isIdle hQuiet) hFresh, hAfter⟩
  have hRounds : ∀ (rounds : List (List Event)) past, (∀ round ∈ rounds, ∃ decided lower,
        Choices.AreDecided decided ∧ RunsOf Choices.AreDecided decided body lower ∧
            round = header.tests ++ lower ++ header.steps) →
      (∀ temp, always temp → ¬ Event.IsStale tree past temp) →
        Event.AreFresh tree past rounds.flatten ∧ ∀ temp, always temp →
            ¬ Event.IsStale tree (past ++ rounds.flatten) temp := by
    intro rounds
    induction rounds with
    | nil =>
      intro past _ hBefore
      exact ⟨.nil, by simpa using hBefore⟩
    | cons round rest ih =>
      intro past hRounds hBefore
      rcases hRounds round List.mem_cons_self with ⟨decided, lower, hDecided, hInner, rfl⟩
      rw [List.flatten_cons, List.append_assoc, List.append_assoc]
      refine hBehind (fun event hEvent => hIdle event (.inl (.inr hEvent))) hBefore ?_
      intro hTested
      rcases hBody decided _ lower hDecided hTested hInner with ⟨hFresh, hAfter⟩
      rcases hBehind (fun event hEvent => hIdle event (.inr hEvent)) hAfter
        (ih _ fun other hOther => hRounds other (List.mem_cons_of_mem _ hOther)) with
        ⟨hOthers, hLater⟩
      rw [List.append_assoc] at hLater
      exact ⟨.append hFresh hOthers, hLater⟩
  intro choices past events _ hBefore hRuns
  rw [runsOf_singleton, Runs] at hRuns
  rcases hRuns with ⟨rounds, hAll, rfl⟩
  rw [List.append_assoc]
  refine hBehind (fun event hEvent => hIdle event (.inl (.inl hEvent))) hBefore ?_
  intro hStarted
  rcases hRounds rounds _ hAll hStarted with ⟨hFresh, hAfter⟩
  have hTests : ∀ event ∈ header.tests, event.IsIdle tree :=
    fun event hEvent => hIdle event (.inl (.inr hEvent))
  refine ⟨.append hFresh (.of_isIdle hTests), ?_⟩
  intro temp hTemp hStale
  rw [← List.append_assoc] at hStale
  exact hAfter temp hTemp (hStale.of_isIdle hTests)

end Keeps

end Stmt

------ Units that Keep What is Booked

namespace Inline

/- Whatever is needed belongs to one of some units. -/
def Led (tree : SyntaxTree) (ctx : Context) (leads : List NodeId) (bookings : Bookings)
    (values : List Expr) : Prop :=
  ∀ choices temp, Needed tree ctx choices bookings values temp →
      ∃ lead ∈ leads, Belongs tree ctx lead temp

/- What is needed at a point. -/
abbrev needs (tree : SyntaxTree) (ctx : Context) (bookings : Bookings)
    (values : List Expr) : Concern :=
  fun choices => Needed tree ctx choices bookings values

/- What is needed at a point, if of what is booked only the slices of some units are. -/
def wants (tree : SyntaxTree) (ctx : Context) (units : List NodeId) (bookings : Bookings)
    (values : List Expr) : Concern :=
  fun choices temp => Booked tree ctx bookings temp ∧ (∃ unit ∈ units, Belongs tree ctx unit temp) ∨
    ∃ value ∈ values, ∃ uses, value.Uses choices uses ∧ temp ∈ uses

theorem Placed.belongs_of_use (hPlaced : Placed tree ctx checked id before body after asked)
    (hRuns : Stmt.RunsOf allowed choices body events) (hUse : .use temp ∈ events) :
    Belongs tree ctx id temp := by
  rcases hRuns.exists_stmt _ hUse with ⟨stmt, hStmt, hMay⟩
  exact (hPlaced.stmts stmt hStmt).mentions temp hMay

/- An event of a unit upsets a slice of another by a store. -/
theorem Placed.exists_disturbs (hTree : tree.IsRegular) (hDecl : AreDeclared tree ctx)
    (hPlaced : Placed tree ctx checked id before body after asked)
    (hRuns : Stmt.RunsOf allowed choices body events) (hBelongs : Belongs tree ctx lead temp)
    (hEvent : event ∈ events) (hUpsets : event.Upsets tree temp) :
    ∃ store slice, tree.Holds id store ∧ tree.attr store = .ok .assignation ∧
        tree.Holds lead slice ∧ tree.Disturbs store slice := by
  rcases hUpsets with ⟨tag, hChanges, hTracks⟩
  rcases hPlaced.exists_store hTree hDecl hRuns hEvent hChanges with ⟨store, hHolds, hAttr, hStore⟩
  rcases hBelongs.exists_slice hTree hDecl hTracks with ⟨slice, hSlice, hIndexed, -⟩
  exact ⟨store, slice, hHolds, hAttr, hSlice, tag, hStore, hIndexed⟩

/- What is booked for leading units and read later is upset by no store that spares it. -/
theorem not_upsets_of_sparesFor (hTree : tree.IsRegular) (hDecl : AreDeclared tree ctx)
    {event : Event} (hLed : Led tree ctx leads before []) (hSpares : tree.SparesFor id leads later)
    (hBooked : Booked tree ctx before temp) (hLater : ∃ next ∈ later, Belongs tree ctx next temp)
    (hChanges : ∀ tag, event.Changes tree tag →
      ∃ store, tree.Holds id store ∧ tree.StoresTo store tag) :
    ¬ event.Upsets tree temp := by
  rintro ⟨tag, hEvent, hTracks⟩
  rcases hChanges tag hEvent with ⟨store, hHolds, hStore⟩
  rcases hLed (fun _ _ _ => True) temp (.inl hBooked) with ⟨lead, hLead, hBelongs⟩
  rcases hLater with ⟨next, hNext, hAgain⟩
  rcases hBelongs.exists_slice hTree hDecl hTracks with ⟨slice, hSlice, hIndexed, hAlike⟩
  rcases hAgain.exists_slice hTree hDecl hTracks with ⟨other, hOther, -, hSame⟩
  exact hSpares lead hLead next hNext store slice other hHolds hSlice hOther
    (hAlike.of_common hSame) ⟨tag, hStore, hIndexed⟩

/-
  Something is kept by the code of a unit if nothing is upset
  before it is read there, or that is asked for behind it.
-/
theorem CodeWithin.keeps (hTree : tree.IsRegular) (hDecl : AreDeclared tree ctx)
    (hCode : CodeWithin tree ctx fuel id before body after val)
    (hStart : ∀ choices temp, Booked tree ctx before temp → Belongs tree ctx id temp →
      start choices temp)
    (hUsed : ∀ choices events, Stmt.RunsOf Choices.AreDecided choices body events →
        ∀ early temp late, events = early ++ .use temp :: late →
          ∀ event ∈ early, ¬ event.Upsets tree temp)
    (hKept : ∀ choices temp, kept choices temp → (start choices temp ∨
        Needed tree ctx choices after [val] temp ∧
          (Booked tree ctx before temp → start choices temp)) ∧
      ∀ events, Stmt.RunsOf Choices.AreDecided choices body events →
          ∀ event ∈ events, ¬ event.Upsets tree temp) :
    Stmt.Keeps tree start body kept := by
  intro choices past events hDecided hBefore hRuns
  have hTidy := hCode.tidy hTree hDecl (fun node guard _ => hDecided node guard) _ events
    (fun _ hBooked => hBooked) hRuns
  refine ⟨?_, ?_⟩
  · intro early temp late hEvents
    have hBelongs := (hCode.placed hTree hDecl).belongs_of_use hRuns
      (hEvents ▸ List.mem_append_right _ List.mem_cons_self)
    exact Event.not_isStale_append hBefore ((hTidy.used early temp late hEvents).imp_left
      (hStart choices temp · hBelongs)) (hUsed choices events hRuns early temp late hEvents)
  · intro temp hTemp
    rcases hKept choices temp hTemp with ⟨hEarlier | ⟨hLater, hKnown⟩, hCalm⟩
    · exact fun hStale => hBefore temp hEarlier (hStale.of_calm (hCalm events hRuns))
    · exact Event.not_isStale_append hBefore ((hTidy.kept temp hLater).imp_left hKnown)
        (hCalm events hRuns)

theorem Placed.belongs_of_value (hPlaced : Placed tree ctx checked id before body after [val])
    (hUses : val.Uses choices uses) (hTemp : temp ∈ uses) : Belongs tree ctx id temp :=
  hPlaced.temps val (List.mem_singleton_self _) temp (hUses.mem_temps temp hTemp)

/- Whatever is needed of a unit, and what was needed before. -/
theorem Placed.led (hPlaced : Placed tree ctx checked id before body after [val])
    (hLed : Led tree ctx leads before vals) : Led tree ctx (id :: leads) after (val :: vals) := by
  intro choices temp hNeeded
  have hOwn : Belongs tree ctx id temp → ∃ lead ∈ id :: leads, Belongs tree ctx lead temp :=
    fun hBelongs => ⟨id, List.mem_cons_self, hBelongs⟩
  have hOther : Needed tree ctx choices before vals temp →
      ∃ lead ∈ id :: leads, Belongs tree ctx lead temp := by
    intro hEarlier
    rcases hLed choices temp hEarlier with ⟨lead, hLead, hBelongs⟩
    exact ⟨lead, List.mem_cons_of_mem _ hLead, hBelongs⟩
  rcases hNeeded.of_cons with ⟨uses, hUses, hTemp⟩ | hLater
  · exact hOwn (hPlaced.belongs_of_value hUses hTemp)
  · rcases hLater with hBooked | hVals
    · rcases hPlaced.booked temp hBooked with hBefore | hBelongs
      · exact hOther (.inl hBefore)
      · exact hOwn hBelongs
    · exact hOther (.inr hVals)

/- A unit that disturbs no slice of it, or of those before it. -/
theorem CodeWithin.keeps_lead (hTree : tree.IsRegular) (hDecl : AreDeclared tree ctx)
    (hCode : CodeWithin tree ctx fuel id before body after val)
    (hLed : Led tree ctx leads before vals) (hSpares : ∀ lead ∈ id :: leads, tree.Spares id lead) :
    Stmt.Keeps tree (needs tree ctx before vals) body (needs tree ctx after (val :: vals)) ∧
      Led tree ctx (id :: leads) after (val :: vals) := by
  have hPlaced := hCode.placed hTree hDecl
  have hCalm : ∀ choices events, Stmt.RunsOf Choices.AreDecided choices body events →
        ∀ lead ∈ id :: leads, ∀ temp, Belongs tree ctx lead temp →
            ∀ event ∈ events, ¬ event.Upsets tree temp := by
    intro choices events hRuns lead hLead temp hBelongs event hEvent hUpsets
    rcases hPlaced.exists_disturbs hTree hDecl hRuns hBelongs hEvent hUpsets with
      ⟨store, slice, hStore, -, hSlice, hDisturbs⟩
    exact hSpares lead hLead store slice hStore hSlice hDisturbs
  refine ⟨hCode.keeps hTree hDecl (fun _ _ hBooked _ => .inl hBooked) ?_ ?_, hPlaced.led hLed⟩
  · intro choices events hRuns early temp late hEvents event hEvent
    have hBelongs := hPlaced.belongs_of_use hRuns
      (hEvents ▸ List.mem_append_right _ List.mem_cons_self)
    exact hCalm choices events hRuns id List.mem_cons_self temp
      hBelongs event (hEvents ▸ List.mem_append_left _ hEvent)
  · intro choices temp hNeeded
    rcases hPlaced.led hLed choices temp hNeeded with ⟨lead, hLead, hBelongs⟩
    refine ⟨?_, fun events hRuns => hCalm choices events hRuns lead hLead temp hBelongs⟩
    rcases hNeeded with hBooked | ⟨found, hFound, hUses⟩
    · exact .inr ⟨.inl hBooked, .inl⟩
    · rcases List.mem_cons.mp hFound with rfl | hLater
      · exact .inr ⟨.inr ⟨_, List.mem_singleton_self _, hUses⟩, .inl⟩
      · exact .inl (.inr ⟨found, hLater, hUses⟩)

/-
  Below the assignation that a unit comes to, nothing is stored
  that disturbs the slices of the unit.
-/
theorem Placed.not_upsets_below (hTree : tree.IsRegular) (hDecl : AreDeclared tree ctx)
    (hSettles : tree.Settles id) (hHolds : tree.Holds id store) (hComes : tree.ComesTo id store)
    (hAttr : tree.attr store = .ok .assignation) (hKid : childOf tree store pos = .ok kid)
    (hPlaced : Placed tree ctx checked kid before body after asked)
    (hRuns : Stmt.RunsOf allowed choices body events) (hBelongs : Belongs tree ctx id temp) :
    ∀ event ∈ events, ¬ event.Upsets tree temp := by
  intro event hEvent hUpsets
  rcases hPlaced.exists_disturbs hTree hDecl hRuns hBelongs hEvent hUpsets with
    ⟨other, slice, hOther, hAgain, hSlice, hDisturbs⟩
  have hBelow : tree.Contains store other :=
    .of_isChild (SyntaxTree.isChild_of_childOf hTree hKid) hOther
  rcases hSettles other slice (hHolds.trans hBelow.holds) hSlice hDisturbs with ⟨hComesAgain, -⟩
  -- The unit comes to one assignation only.
  have hSame : store = other := hComes.unique hComesAgain
    (SyntaxTree.not_isEnclosing_of_assignation hAttr)
    (SyntaxTree.not_isEnclosing_of_assignation hAgain)
  rw [← hSame] at hBelow
  exact hTree.forest.not_contains_self hBelow

/- What stands before something else than the last entry. -/
theorem mem_of_append_eq_concat (hSplit : early ++ event :: late = pre ++ [last])
    (hEvent : event ≠ last) : ∀ other ∈ early, other ∈ pre := by
  rcases late.eq_nil_or_concat with rfl | ⟨rest, final, rfl⟩
  · have hSame := (List.append_inj' hSplit rfl).2
    rw [List.cons.injEq] at hSame
    exact absurd hSame.1 hEvent
  · rw [List.concat_eq_append, ← List.cons_append, ← List.append_assoc] at hSplit
    intro other hOther
    rw [← (List.append_inj' hSplit rfl).1]
    exact List.mem_append_left _ hOther

/- A unit that settles upsets nothing before it is read, and nothing that its value needs. -/
theorem CodeWithin.calm_of_settles (hTree : tree.IsRegular) (hDecl : AreDeclared tree ctx)
    (hCode : CodeWithin tree ctx fuel id before body after val) (hSettles : tree.Settles id)
    (hRuns : Stmt.RunsOf allowed choices body events) :
    (∀ early temp late, events = early ++ .use temp :: late →
      ∀ event ∈ early, ¬ event.Upsets tree temp) ∧
    (∀ uses, val.Uses choices uses → ∀ temp ∈ uses,
      ∀ event ∈ events, ¬ event.Upsets tree temp) := by
  have hPlaced := hCode.placed hTree hDecl
  have hUsed : ∀ early temp late, events = early ++ .use temp :: late →
        Belongs tree ctx id temp := by
    intro early temp late hEvents
    exact hPlaced.belongs_of_use hRuns (hEvents ▸ List.mem_append_right _ List.mem_cons_self)
  by_cases hCalm : ∃ store slice, tree.Holds id store ∧ tree.attr store = .ok .assignation ∧
        tree.Holds id slice ∧ tree.Disturbs store slice
  · rcases hCalm with ⟨store, slice, hHolds, hAttr, hSlice, hDisturbs⟩
    rcases hSettles store slice hHolds hSlice hDisturbs with ⟨hComes, -⟩
    rcases hCode.exists_assignation hComes hAttr with
      ⟨rfl, hNone⟩ | ⟨_, destination, source, _, first, second, temp,
        form, stored, hAssign, hSrc, hAddr, rfl, hVal⟩
    · rw [Stmt.runsOf_nil] at hRuns
      subst hRuns
      simp
    · rcases Walk.bind_eq_ok.mp hAssign with ⟨_, hDest, hFound⟩
      rcases Walk.bind_eq_ok.mp hFound with ⟨_, hOther, hFound⟩
      cases hFound
      constructor
      · -- The store is the last thing that happens.
        intro early read late hEvents event hEvent
        have hBelongs := hUsed early read late hEvents
        rcases Stmt.runsOf_append.mp hRuns with ⟨_, last, hRunsParts, hRunsLast, rfl⟩
        rcases Stmt.runsOf_append.mp hRunsParts with ⟨_, _, hRunsFirst, hRunsSecond, rfl⟩
        rw [Stmt.runsOf_singleton] at hRunsLast
        rcases (Stmt.runs_of_isSimple rfl).mp hRunsLast with ⟨uses, -, rfl⟩
        have hSplit := hEvents.symm
        rw [← List.append_assoc] at hSplit
        have hEarly := mem_of_append_eq_concat hSplit Event.noConfusion event hEvent
        simp only [List.mem_append] at hEarly
        rcases hEarly with (hFirst | hSecond) | hUse
        · exact (hSrc.placed hTree hDecl).not_upsets_below hTree hDecl hSettles hHolds hComes hAttr
            hOther hRunsFirst hBelongs event hFirst
        · exact (hAddr.placed hTree hDecl).not_upsets_below
            hTree hDecl hSettles hHolds hComes hAttr hDest hRunsSecond hBelongs event hSecond
        · rcases List.mem_map.mp hUse with ⟨_, -, rfl⟩
          exact Event.not_upsets_use
      · -- The destination is no slice that the store disturbs.
        intro uses hUses read hRead event hEvent
        rintro ⟨tag, hChanges, hTracks⟩
        have hSame : read = temp := by
          rcases hVal with rfl | rfl <;> simp_all [Expr.Uses]
        subst hSame
        rcases hPlaced.exists_store hTree hDecl hRuns hEvent
          hChanges with ⟨other, hInner, hAgain, hStore⟩
        have hIndexed := (hAddr.foundAt.indexedBy hTree hDecl hTracks).1
        rcases hSettles other _ hInner (hHolds.trans (.of_childOf hTree hDest))
          ⟨tag, hStore, hIndexed⟩ with ⟨hComesAgain, hNot⟩
        have hSame : store = other := hComes.unique hComesAgain
          (SyntaxTree.not_isEnclosing_of_assignation hAttr)
          (SyntaxTree.not_isEnclosing_of_assignation hAgain)
        rw [← hSame] at hNot
        exact hNot hDest
  · have hNone : ∀ temp, Belongs tree ctx id temp → ∀ event ∈ events, ¬ event.Upsets tree temp := by
      intro temp hBelongs event hEvent hUpsets
      exact hCalm (hPlaced.exists_disturbs hTree hDecl hRuns hBelongs hEvent hUpsets)
    constructor
    · intro early temp late hEvents event hEvent
      exact hNone temp (hUsed early temp late hEvents) event
        (hEvents ▸ List.mem_append_left _ hEvent)
    · intro uses hUses temp hTemp
      exact hNone temp (hPlaced.belongs_of_value hUses hTemp)

/- A unit that settles, behind those whose slices it spares for later ones. -/
theorem CodeWithin.keeps_item (hTree : tree.IsRegular) (hDecl : AreDeclared tree ctx)
    (hCode : CodeWithin tree ctx fuel id before body after val)
    (hLed : Led tree ctx leads before []) (hSettles : tree.Settles id)
    (hSpares : tree.SparesFor id leads later) :
    Stmt.Keeps tree (wants tree ctx (id :: later) before []) body
      (wants tree ctx later before [val]) := by
  have hOwn : ∀ choices temp, Booked tree ctx before temp → Belongs tree ctx id temp →
      wants tree ctx (id :: later) before [] choices temp :=
    fun _ _ hBooked hBelongs => .inl ⟨hBooked, id, List.mem_cons_self, hBelongs⟩
  refine hCode.keeps hTree hDecl hOwn ?_ ?_
  · exact fun choices events hRuns => (hCode.calm_of_settles hTree hDecl hSettles hRuns).1
  · rintro choices temp (⟨hBooked, hLater⟩ | ⟨_, hFound, uses, hUses, hTemp⟩)
    · rcases hLater with ⟨next, hNext, hBelongs⟩
      refine ⟨.inl (.inl ⟨hBooked, next, List.mem_cons_of_mem _ hNext, hBelongs⟩), ?_⟩
      intro events hRuns event hEvent
      refine not_upsets_of_sparesFor hTree hDecl hLed hSpares hBooked ⟨next, hNext, hBelongs⟩ ?_
      intro tag hChanges
      rcases (hCode.placed hTree hDecl).exists_store hTree hDecl hRuns hEvent hChanges with
        ⟨store, hHolds, -, hStore⟩
      exact ⟨store, hHolds, hStore⟩
    · cases List.mem_singleton.mp hFound
      have hBelongs := (hCode.placed hTree hDecl).belongs_of_value hUses hTemp
      refine ⟨.inr ⟨.inr ⟨val, List.mem_singleton_self _, uses, hUses, hTemp⟩,
        fun hBooked => hOwn choices temp hBooked hBelongs⟩, fun events hRuns => ?_⟩
      exact (hCode.calm_of_settles hTree hDecl hSettles hRuns).2 uses hUses temp hTemp

end Inline

end Algol68
