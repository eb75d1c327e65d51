import Algol68.Proofs.CodeLogic

/-
  The temporaries in the code of units.

  The code of a unit is about temporaries of nodes that the unit holds. It stores what
  assignations of the unit store, and checks what the unit reads or stores into. Along every path
  that decides each conditional once, a temporary is given a value before it is read.
-/

------ Temporaries of a Unit

namespace Algol68

open Stmt (targets reads operands mentions)

variable {tree : SyntaxTree} {id : NodeId} {value : Expr}

namespace Inline

theorem node_of_baseOf (hNamed : baseOf tree id = .ok named) : named.pointer.node = id := by
  simp only [baseOf, Walk.bind_eq_ok] at hNamed
  rcases hNamed with ⟨mode, -, _ | _, -, hNamed⟩
  · exact (isFor_of_fetchOf hNamed).node
  · exact (isFor_of_derefOf hNamed).node

/- A temporary through which an assignation of a unit stores. -/
inductive StoredBy (tree : SyntaxTree) (ctx : Context) (id : NodeId) : Temp → Prop
  | mk {store destination : NodeId} {temp : Temp} (hHolds : tree.Holds id store)
      (hAttr : tree.attr store = .ok .assignation)
      (hDestination : childOf tree store 0 = .ok destination)
      (hFound : FoundAt tree ctx destination temp) :
      StoredBy tree ctx id temp

/- A temporary that is checked since a unit uses its object. -/
def CheckedBy (tree : SyntaxTree) (ctx : Context) (unit : NodeId) (temp : Temp) : Prop :=
  ∃ object, UsedBy tree unit object ∧ Addresses tree ctx object temp

/- A statement is about temporaries of a unit. It stores for the unit and checks some of them. -/
structure PlacedStmt (tree : SyntaxTree) (ctx : Context) (checked : Temp → Prop) (unit : NodeId)
    (stmt : Stmt) : Prop where
  mentions : ∀ temp ∈ stmt.mentions, Belongs tree ctx unit temp
  stores : ∀ event ∈ stmt.effects, ∃ pointer, event = .store pointer ∧
    StoredBy tree ctx unit pointer
  checks : ∀ temp ∈ stmt.checks, checked temp

/-
  Code of a unit is about its temporaries: those in the statements, those that are asked for
  behind them, and those that are booked.
-/
structure Placed (tree : SyntaxTree) (ctx : Context) (checked : Temp → Prop) (unit : NodeId)
    (before : Bookings) (body : List Stmt) (after : Bookings) (values : List Expr) : Prop where
  stmts : Stmt.AllOf (PlacedStmt tree ctx checked unit) body
  temps : ∀ value ∈ values, ∀ temp ∈ value.temps, Belongs tree ctx unit temp
  booked : ∀ temp, Booked tree ctx after temp → Booked tree ctx before temp ∨
      Belongs tree ctx unit temp

theorem IsThrough.temps_eq (hVal : IsThrough temp value) : value.temps = [temp] := by
  cases hVal <;> rfl

namespace Placed

variable {checked : Temp → Prop}

theorem with_values (hPlaced : Placed tree ctx checked unit before body after values)
    (hOthers : ∀ value ∈ others, ∀ temp ∈ value.temps, Belongs tree ctx unit temp) :
    Placed tree ctx checked unit before body after others :=
  { hPlaced with temps := hOthers }

theorem append (hFirst : Placed tree ctx checked unit before first mid values)
    (hSecond : Placed tree ctx checked unit mid second after others) :
    Placed tree ctx checked unit before (first ++ second) after (values ++ others) where
  stmts := hFirst.stmts.append hSecond.stmts
  temps := List.forall_mem_append.mpr ⟨hFirst.temps, hSecond.temps⟩
  booked := by
    intro temp hBooked
    rcases hSecond.booked temp hBooked with hMid | hBelongs
    · exact hFirst.booked temp hMid
    · exact .inr hBelongs

theorem through (hPlaced : Placed tree ctx checked unit before body after [.temp temp])
    (hVal : IsThrough temp value) : Placed tree ctx checked unit before body after [value] :=
  hPlaced.with_values (by simpa [hVal.temps_eq, Expr.temps] using hPlaced.temps)

theorem concat (hPlaced : Placed tree ctx checked unit before body after values)
    (hSimple : stmt.isSimple = true) (hStmt : PlacedStmt tree ctx checked unit stmt) :
    Placed tree ctx checked unit before (body ++ [stmt]) after values :=
  { hPlaced with
    stmts := hPlaced.stmts.append (.single (Stmt.within_of_isSimple hSimple) hStmt) }

theorem check {check : List Stmt}
    (hPlaced : Placed tree ctx checked unit before body after values)
    (hTemp : Belongs tree ctx unit temp) (hCheck : Checks temp check)
    (hChecked : check ≠ [] → checked temp) :
    Placed tree ctx checked unit before (body ++ check) after values := by
  rcases hCheck with rfl | ⟨mode, rfl⟩
  · simpa using hPlaced
  · exact hPlaced.concat rfl ⟨by simpa [targets, reads, operands] using hTemp,
      by simp [Stmt.effects], by simpa [Stmt.checks] using hChecked⟩

variable (hTree : tree.IsRegular) (hDecl : AreDeclared tree ctx)

include hTree hDecl

/- A temporary is computed by code of the unit. -/
theorem of_pointer (hPtr : ptr.IsOf tree) (hHolds : tree.Holds unit ptr.node)
    (hInner : ∀ {before body after}, Belongs tree ctx unit temp → lower temp before body after →
      Placed tree ctx checked unit before body after [.temp temp])
    (hCode : PointerCode tree ctx ptr lower before body after temp) :
    Placed tree ctx checked unit before body after [.temp temp] := by
  cases hCode with
  | booked hOwner =>
    have hTemp : Belongs tree ctx unit _ := .pointer hPtr hHolds hOwner
    exact ⟨.nil, by simpa [Expr.temps] using hTemp, fun _ => .inl⟩
  | computed hOwner _ hBody =>
    have hTemp : Belongs tree ctx unit _ := .pointer hPtr hHolds hOwner
    have hPlaced := hInner hTemp hBody
    refine { hPlaced with booked := fun other hBooked => ?_ }
    rcases hBooked.of_signIn hTree hDecl hPtr hOwner with hOld | rfl
    · exact hPlaced.booked other hOld
    · exact .inr hTemp

/- An object that is no row or structure is checked. -/
theorem of_named (hPtr : named.pointer.IsOf tree) (hHolds : tree.Holds unit named.pointer.node)
    (hChecked : ∀ object, named.object = some object →
      tree.modes.isPrimitive object = .ok true → checked temp)
    (hCode : NamedCode tree ctx named before body after temp) :
    Placed tree ctx checked unit before body after [.temp temp] := by
  refine of_pointer hTree hDecl hPtr hHolds ?_ hCode
  intro before body after hTemp hBody
  have hStart : Placed tree ctx checked unit before [] before [.temp temp] :=
    ⟨.nil, by simpa [Expr.temps] using hTemp, fun _ => .inl⟩
  have hFirst : ∀ {stmt : Stmt}, stmt.isSimple = true → stmt.mentions = [temp] →
      stmt.effects = [] → stmt.checks = [] →
        Placed tree ctx checked unit before [stmt] before [.temp temp] :=
    fun hSimple hMentions hEffects hChecks => hStart.concat hSimple
      ⟨hMentions ▸ by simpa using hTemp, by simp [hEffects], by simp [hChecks]⟩
  cases hBody with
  | fetch => exact hFirst rfl rfl rfl rfl
  | deref hObj hCheck =>
    refine (hFirst rfl rfl rfl rfl).check hTemp (checks_of_checkInitialised hCheck) ?_
    intro hSome
    rcases checkInitialised_eq_ok hCheck with ⟨rfl, -⟩ | ⟨-, hPrim, -⟩
    · exact absurd rfl hSome
    · exact hChecked _ hObj hPrim

end Placed

theorem Derives.exists_value (hVal : Derives tree values value) (hTemp : temp ∈ value.temps) :
    ∃ other ∈ values, temp ∈ other.temps := by
  cases hVal with
  | itself hVal => exact ⟨value, hVal, hTemp⟩
  | built hVal =>
    cases hVal with
    | nil => cases hTemp
    | apply | toReal | sameName => simpa [Expr.temps, Expr.mem_tempsOf] using hTemp
  | applied => exact Expr.mem_tempsOf.mp hTemp
  | through hMem hVal =>
    rw [hVal.temps_eq] at hTemp
    exact ⟨_, hMem, hTemp⟩
  | constant | blank => cases hTemp

/- Code is about the temporaries of its unit. What is used may be checked. -/
theorem placedLogic (hTree : tree.IsRegular) (hDecl : AreDeclared tree ctx)
    (hUses : ∀ object, UsedBy tree unit object → used object)
    (hChecked : ∀ object temp, used object → Addresses tree ctx object temp → checked temp) :
    CodeLogic tree ctx unit used (Placed tree ctx checked unit) where
  uses := hUses _
  start := ⟨.nil, by simp, fun _ => .inl⟩
  append := .append
  derive hBody hVal := by
    refine hBody.with_values (List.forall_mem_singleton.mpr fun temp hTemp => ?_)
    rcases hVal.exists_value hTemp with ⟨other, hOther, hTemp⟩
    exact hBody.temps other hOther temp hTemp
  simple hBody hSimple hEffects hChecks hOps hReads hTargets hOthers := by
    refine (hBody.concat hSimple ⟨?_, by simp [hEffects], by simp [hChecks]⟩).with_values ?_
    · intro temp hTemp
      simp only [mentions, List.mem_append] at hTemp
      rcases hTemp with (hTarget | hRead) | hOp
      · exact hTargets temp hTarget
      · exact hBody.temps _ (hReads temp hRead) temp (List.mem_singleton_self _)
      · rcases Expr.mem_tempsOf.mp hOp with ⟨op, hOp, hTemp⟩
        exact hBody.temps op (hOps op hOp) temp hTemp
    · intro other hOther temp hTemp
      rcases hOthers other hOther with hOld | ⟨target, hTarget, rfl⟩
      · exact hBody.temps other hOld temp hTemp
      · exact List.mem_singleton.mp hTemp ▸ hTargets target hTarget
  store hBody hHolds hAttr hDest hFound := by
    have hTemp := hBody.temps _ (.tail _ (.head _)) _ (List.mem_singleton_self _)
    refine (hBody.concat rfl ⟨?_, ?_, by simp [Stmt.checks]⟩).with_values
      (by simpa [Expr.temps] using hTemp)
    · intro other hOther
      simp only [mentions, targets, reads, operands, Expr.tempsOf, List.nil_append,
        List.append_nil, List.singleton_append, List.mem_cons] at hOther
      rcases hOther with rfl | hOther
      · exact hTemp
      · exact hBody.temps _ (by simp) other hOther
    · intro event hEvent
      rcases List.mem_singleton.mp hEvent with rfl
      exact ⟨_, rfl, .mk hHolds hAttr hDest hFound⟩
  fetch hHolds hAttr hNamed hCode := by
    rcases fetchOf_eq_ok hNamed with ⟨_, _, _, -, -, rfl⟩
    exact (Placed.of_named hTree hDecl (.fetch hAttr hNamed) hHolds (by simp) hCode).through .value
  deref hHolds hUsed hAttr hNamed hCode hAddresses := by
    refine (Placed.of_named hTree hDecl (.deref hAttr hNamed) ?_
      (fun _ _ _ => hChecked _ _ hUsed hAddresses) hCode).through .value
    rw [(isFor_of_derefOf hNamed).node]
    exact hHolds
  base hHolds hAttr hNamed hOther hCode := by
    refine Placed.of_named hTree hDecl (isOf_of_baseOf hTree hAttr hNamed).pointer ?_
      (fun object hObj hPrim => absurd hPrim (hOther object hObj)) hCode
    rw [node_of_baseOf hNamed]
    exact hHolds
  pointer hPtr hHolds _ hInner := Placed.of_pointer hTree hDecl hPtr hHolds fun _ => hInner
  read hBody _ hHolds hAddresses hReads := by
    refine (hBody.check (by simpa [Expr.temps] using hBody.temps) hReads.checks
      fun hSome => ?_).through hReads.through
    cases hReads with
    | behind hAttr hOp => exact hChecked _ _ (hUses _ (.read hHolds hAttr hOp)) hAddresses
    | itself => exact absurd rfl hSome
  choose _ hGuard hYes hNo := by
    refine ⟨hGuard.stmts.append (.branch ⟨?_, by simp [Stmt.effects], by simp [Stmt.checks]⟩
      hYes.stmts hNo.stmts), ?_, hGuard.booked⟩
    · simpa [targets, reads, operands] using hGuard.temps
    · rw [List.forall_mem_singleton]
      intro temp hTemp
      simp only [Expr.temps, List.mem_append] at hTemp
      rcases hTemp with hTemp | hTemp | hTemp
      · exact hGuard.temps _ (by simp) temp hTemp
      · exact hYes.temps _ (by simp) temp hTemp
      · exact hNo.temps _ (by simp) temp hTemp

/- The code that points to what a unit designates is about the temporaries of the unit. -/
theorem AddressCode.placed (hTree : tree.IsRegular) (hDecl : AreDeclared tree ctx)
    (hCode : AddressCode tree ctx (CodeWithin tree ctx fuel) id before body after temp) :
    Placed tree ctx (fun _ => True) id before body after [.temp temp] :=
  have logic := placedLogic hTree hDecl (fun _ _ => trivial) fun _ _ _ _ => trivial
  (logic.address hTree (.refl tree id) (fun _ => trivial)
    (fun hKid hCode => logic.sound hTree hKid hCode) hCode).1

/- The code of a unit is about its temporaries. -/
theorem CodeWithin.placed (hTree : tree.IsRegular) (hDecl : AreDeclared tree ctx)
    (hCode : CodeWithin tree ctx fuel id before body after value) :
    Placed tree ctx (CheckedBy tree ctx id) id before body after [value] :=
  (placedLogic hTree hDecl (fun _ hUsed => hUsed) fun object _ hUsed hAddresses =>
    ⟨object, hUsed, hAddresses⟩).sound hTree (.refl tree id) hCode

end Inline

------ Paths through Code

/- The conditionals that a node holds are decided in one way. -/
def Choices.AreSettled (choices : Choices) (tree : SyntaxTree) (id : NodeId) : Prop :=
  ∀ node guard, tree.Holds id node → ¬ (choices node guard true ∧ choices node guard false)

namespace Inline

/- What is booked behind code, and what its values need. -/
def Needed (tree : SyntaxTree) (ctx : Context) (choices : Choices) (after : Bookings)
    (values : List Expr) (temp : Temp) : Prop :=
  Booked tree ctx after temp ∨ ∃ value ∈ values, ∃ uses, value.Uses choices uses ∧ temp ∈ uses

theorem Needed.of_cons (hNeeded : Needed tree ctx choices after (value :: vals) temp) :
    (∃ uses, value.Uses choices uses ∧ temp ∈ uses) ∨ Needed tree ctx choices after vals temp := by
  rcases hNeeded with hBooked | ⟨found, hFound, hUses⟩
  · exact .inr (.inl hBooked)
  · rcases List.mem_cons.mp hFound with rfl | hLater
    · exact .inl hUses
    · exact .inr (.inr ⟨found, hLater, hUses⟩)

/-
  Along every path through code, from where the booked temporaries are known, nothing is read too
  early, and what is needed behind the code was given a value.
-/
def TidyCode (tree : SyntaxTree) (ctx : Context) (allowed : Choices → Prop) (choices : Choices)
    (before : Bookings) (body : List Stmt) (after : Bookings) (values : List Expr) : Prop :=
  ∀ known events, (∀ temp, Booked tree ctx before temp → known temp) →
      Stmt.RunsOf allowed choices body events → Event.Tidy known
          (Needed tree ctx choices after values) events

namespace TidyCode

theorem nil
    (hVals : ∀ temp, Needed tree ctx choices before values temp → Booked tree ctx before temp) :
    TidyCode tree ctx allowed choices before [] before values := by
  intro known events hKnown hRuns
  subst hRuns
  exact .nil fun temp hTemp => hKnown temp (hVals temp hTemp)

/- More code, which may rest on what was given a value. -/
theorem continue_with (hFirst : TidyCode tree ctx allowed choices before first mid vals)
    (hSecond : ∀ known events, (∀ temp, Needed tree ctx choices mid vals temp → known temp) →
      Stmt.RunsOf allowed choices second events → Event.Tidy known
          (Needed tree ctx choices after others) events) :
    TidyCode tree ctx allowed choices before (first ++ second) after others := by
  intro known events hKnown hRuns
  rcases Stmt.runsOf_append.mp hRuns with ⟨early, late, hEarly, hLate, rfl⟩
  have hTidy := hFirst known early hKnown hEarly
  have hAll : Event.Tidy known (fun temp => known temp ∨ .assign temp ∈ early) early :=
    ⟨hTidy.used, fun _ hTemp => hTemp⟩
  exact hAll.append (hSecond _ late hTidy.kept hLate)

theorem append (hFirst : TidyCode tree ctx allowed choices before first mid vals)
    (hSecond : TidyCode tree ctx allowed choices mid second after others) :
    TidyCode tree ctx allowed choices before (first ++ second) after (vals ++ others) := by
  apply hFirst.continue_with
  intro known events hKnown hRuns
  refine (hSecond known events (fun temp hBooked => hKnown temp (.inl hBooked)) hRuns).mono ?_
  rintro temp (hBooked | ⟨value, hVal, hUses⟩)
  · exact .inr (.inl hBooked)
  · rcases List.mem_append.mp hVal with hLeft | hRight
    · exact .inl (hKnown temp (.inr ⟨value, hLeft, hUses⟩))
    · exact .inr (.inr ⟨value, hRight, hUses⟩)

/- One statement follows. -/
theorem concat (hFirst : TidyCode tree ctx allowed choices before body mid vals)
    (hSimple : stmt.isSimple = true)
    (hReads : ∀ temp ∈ stmt.reads, Needed tree ctx choices mid vals temp)
    (hOps : ∀ op ∈ stmt.operands, op ∈ vals)
    (hVals : ∀ temp, Needed tree ctx choices after others temp →
        Needed tree ctx choices mid vals temp ∨ temp ∈ stmt.targets) :
    TidyCode tree ctx allowed choices before (body ++ [stmt]) after others := by
  apply hFirst.continue_with
  intro known events hKnown hRuns
  refine .of_isSimple hSimple (Stmt.runsOf_singleton.mp hRuns)
    (fun temp hTemp => hKnown temp (hReads temp hTemp)) ?_ ?_
  · intro op hOp uses hUses temp hTemp
    exact hKnown temp (.inr ⟨op, hOps op hOp, uses, hUses, hTemp⟩)
  · intro temp hTemp
    exact (hVals temp hTemp).imp_left (hKnown temp)

theorem with_values (hFirst : TidyCode tree ctx allowed choices before body after vals)
    (hOthers : ∀ temp, Needed tree ctx choices after others temp →
        Needed tree ctx choices after vals temp) :
    TidyCode tree ctx allowed choices before body after others := by
  intro known events hKnown hRuns
  refine (hFirst known events hKnown hRuns).mono ?_
  exact fun temp hTemp => .inr (hOthers temp hTemp)

end TidyCode

------ Paths through Units

theorem needed_temp : Needed tree ctx choices after [.temp temp] other ↔
      Booked tree ctx after other ∨ other = temp := by
  simp [Needed, Expr.Uses]

theorem IsThrough.needed_iff (hVal : IsThrough temp value) :
    Needed tree ctx choices after [value] other ↔
      Needed tree ctx choices after [.temp temp] other := by
  cases hVal <;> simp [Needed, Expr.Uses]

/- What is needed for the result of an operation. -/
theorem Needed.of_apply (hNeeded : Needed tree ctx choices after [.apply rendering vals] other) :
    Needed tree ctx choices after vals other := by
  rcases hNeeded with hBooked | ⟨found, hFound, uses, hUses, hOther⟩
  · exact .inl hBooked
  · right
    rcases List.mem_singleton.mp hFound with rfl
    have hReads : ∀ op ∈ vals, op.ReadsOnly choices fun read =>
          ∃ op ∈ vals, ∃ uses, op.Uses choices uses ∧ read ∈ uses :=
      fun op hOp uses hUses read hRead => ⟨op, hOp, uses, hUses, hRead⟩
    exact hUses.readsOnly hReads other hOther

/- What is needed for a value that is put together from others. -/
theorem Builds.needed (hVal : Builds tree id parts vals value)
    (hNeeded : Needed tree ctx choices after [value] other) :
    Needed tree ctx choices after vals other := by
  cases hVal with
  | apply => exact hNeeded.of_apply
  | toReal _ _ op | nil => simpa [Needed, Expr.Uses] using hNeeded
  | sameName _ _ left right =>
    rcases hNeeded.of_cons with ⟨uses, hUses, hOther⟩ | hOld
    · rw [Expr.Uses] at hUses
      rcases hUses with ⟨first, second, hFirst, hSecond, rfl⟩
      rcases List.mem_append.mp hOther with hLeft | hRight
      · exact .inr ⟨left, by simp, first, hFirst, hLeft⟩
      · exact .inr ⟨right, by simp, second, hSecond, hRight⟩
    · exact .inl (by simpa [Needed] using hOld)

theorem Derives.needed (hVal : Derives tree vals value)
    (hNeeded : Needed tree ctx choices after [value] other) :
    Needed tree ctx choices after vals other := by
  cases hVal with
  | itself hVal =>
    rcases hNeeded.of_cons with hUses | hOld
    · exact .inr ⟨value, hVal, hUses⟩
    · exact .inl (by simpa [Needed] using hOld)
  | built hVal => exact hVal.needed hNeeded
  | applied => exact hNeeded.of_apply
  | through hMem hVal =>
    rcases needed_temp.mp (hVal.needed_iff.mp hNeeded) with hBooked | rfl
    · exact .inl hBooked
    · exact .inr ⟨_, hMem, [other], by simp [Expr.Uses], by simp⟩
  | constant | blank => exact .inl (by simpa [Needed, Expr.Uses] using hNeeded)

theorem Needed.of_temp (hTemp : .temp temp ∈ vals) : Needed tree ctx choices after vals temp :=
  .inr ⟨_, hTemp, [temp], by simp [Expr.Uses], by simp⟩

/- A temporary is booked, or computed and then booked. -/
theorem PointerCode.tidy (hTree : tree.IsRegular) (hDecl : AreDeclared tree ctx)
    (hPtr : ptr.IsOf tree)
    (hInner : ∀ {before body after}, lower temp before body after →
        TidyCode tree ctx allowed choices before body after [.temp temp])
    (hCode : PointerCode tree ctx ptr lower before body after temp) :
    TidyCode tree ctx allowed choices before body after [.temp temp] := by
  cases hCode with
  | booked hOwner hHas =>
    apply TidyCode.nil
    intro other hOther
    rcases needed_temp.mp hOther with hBooked | rfl
    · exact hBooked
    · exact ⟨ptr, _, hPtr, hOwner, hHas, rfl⟩
  | computed hOwner _ hBody =>
    intro known events hKnown hRuns
    refine (hInner hBody known events hKnown hRuns).mono ?_
    intro other hOther
    right
    rcases needed_temp.mp hOther with hBooked | rfl
    · rcases hBooked.of_signIn hTree hDecl hPtr hOwner with hOld | rfl
      · exact needed_temp.mpr (.inl hOld)
      · exact needed_temp.mpr (.inr rfl)
    · exact needed_temp.mpr (.inr rfl)

/- What was given a value is checked. -/
theorem TidyCode.check {check : List Stmt}
    (hFirst : TidyCode tree ctx allowed choices before body after [.temp temp])
    (hCheck : Checks temp check) :
    TidyCode tree ctx allowed choices before (body ++ check) after [.temp temp] := by
  rcases hCheck with rfl | ⟨mode, rfl⟩
  · simpa using hFirst
  · refine hFirst.concat rfl ?_ ?_ ?_
    · intro other hOther
      rw [reads, List.mem_singleton] at hOther
      exact needed_temp.mpr (.inr hOther)
    · simp [operands]
    · exact fun other hOther => .inl hOther

theorem TidyCode.start : TidyCode tree ctx allowed choices before [] before [] :=
  .nil fun temp hTemp => by simpa [Needed] using hTemp

theorem NamedCode.tidy (hTree : tree.IsRegular) (hDecl : AreDeclared tree ctx)
    (hPtr : named.pointer.IsOf tree) (hCode : NamedCode tree ctx named before body after temp) :
    TidyCode tree ctx allowed choices before body after [.temp temp] := by
  refine PointerCode.tidy hTree hDecl hPtr ?_ hCode
  intro before body after hBody
  -- The temporary is given its value by the first statement.
  have hFirst : ∀ {stmt : Stmt}, stmt.isSimple = true → stmt.reads = [] → stmt.operands = [] →
      stmt.targets = [temp] → TidyCode tree ctx allowed choices before [stmt] before
          [.temp temp] := by
    intro stmt hSimple hReads hOps hTargets
    refine TidyCode.start.concat hSimple (by simp [hReads]) (by simp [hOps]) ?_
    intro other hOther
    rw [hTargets, List.mem_singleton]
    rcases needed_temp.mp hOther with hBooked | hTemp
    · exact .inl (.inl hBooked)
    · exact .inr hTemp
  cases hBody with
  | fetch => exact hFirst rfl rfl rfl rfl
  | deref _ hCheck => exact (hFirst rfl rfl rfl rfl).check (checks_of_checkInitialised hCheck)

/- The branch that is taken is the one whose value is asked for. -/
theorem TidyCode.choose {guard : Expr}
    (hSettled : ¬ (choices id guard true ∧ choices id guard false))
    (hGuard : TidyCode tree ctx allowed choices before body after [guard])
    (hYes : TidyCode tree ctx allowed choices after first ofYes [yes])
    (hNo : TidyCode tree ctx allowed choices after second ofNo [no]) :
    TidyCode tree ctx allowed choices before (body ++ [.branch id guard first second]) after
      [.choose id guard yes no] := by
  apply hGuard.continue_with
  intro known events hKnown hRuns
  rw [Stmt.runsOf_singleton, Stmt.Runs] at hRuns
  rcases hRuns with ⟨uses, lower, hUses, hInner, rfl⟩
  have hBooked : ∀ temp, Booked tree ctx after temp → known temp :=
    fun temp hTemp => hKnown temp (.inl hTemp)
  have hRead : ∀ {found : List Temp} {temp : Temp},
      guard.Uses choices found → temp ∈ found → known temp :=
    fun hFound hTemp => hKnown _ (.inr ⟨guard, List.mem_singleton_self _, _, hFound, hTemp⟩)
  refine (Event.Tidy.of_uses (fun temp hTemp => hRead hUses hTemp) fun _ hTemp => hTemp).append ?_
  -- The value is that of the branch that is taken.
  obtain ⟨code, last, val, hCode, hTaken, hOnly⟩ : ∃ code last val,
      TidyCode tree ctx allowed choices after code last [val] ∧
        Stmt.RunsOf allowed choices code lower ∧
          ∀ late, (choices id guard true ∧ yes.Uses choices late ∨
            choices id guard false ∧ no.Uses choices late) → val.Uses choices late := by
    rcases hInner with ⟨hTrue, hTaken⟩ | ⟨hFalse, hTaken⟩
    · exact ⟨_, _, _, hYes, hTaken, fun _ hLate =>
        hLate.elim And.right fun hOther => absurd ⟨hTrue, hOther.1⟩ hSettled⟩
    · exact ⟨_, _, _, hNo, hTaken, fun _ hLate =>
        hLate.elim (fun hOther => absurd ⟨hOther.1, hFalse⟩ hSettled) And.right⟩
  refine (hCode known lower hBooked hTaken).mono ?_
  rintro temp (hTemp | ⟨value, hVal, found, hFound, hTemp⟩)
  · exact .inl (hBooked temp hTemp)
  · rcases List.mem_singleton.mp hVal with rfl
    rcases hFound with ⟨early, late, hEarly, hLate, rfl⟩
    rcases List.mem_append.mp hTemp with hTemp | hTemp
    · exact .inl (hRead hEarly hTemp)
    · exact .inr (.inr ⟨val, List.mem_singleton_self _, late, hOnly late hLate, hTemp⟩)

/- Along a path that decides each conditional of a unit once. -/
theorem tidyLogic (hTree : tree.IsRegular) (hDecl : AreDeclared tree ctx)
    (hSettled : choices.AreSettled tree unit) :
    CodeLogic tree ctx unit (fun _ => True) (TidyCode tree ctx allowed choices) where
  uses _ := trivial
  start := .start
  append := .append
  derive hBody hVal := hBody.with_values fun _ hNeeded => hVal.needed hNeeded
  simple hBody hSimple _ _ hOps hReads _ hOthers := by
    refine hBody.concat hSimple (fun temp hTemp => .of_temp (hReads temp hTemp)) hOps ?_
    rintro temp (hBooked | ⟨value, hVal, uses, hUses, hTemp⟩)
    · exact .inl (.inl hBooked)
    · rcases hOthers value hVal with hOld | ⟨target, hTarget, rfl⟩
      · exact .inl (.inr ⟨value, hOld, uses, hUses, hTemp⟩)
      · rw [Expr.Uses] at hUses
        rw [hUses, List.mem_singleton] at hTemp
        exact .inr (hTemp ▸ hTarget)
  store hBody _ _ _ _ := by
    refine hBody.concat rfl ?_ (by simp [operands]) ?_
    · intro other hOther
      rw [reads, Place.temp, List.mem_singleton] at hOther
      exact .of_temp (by simp [hOther])
    · intro other hOther
      left
      rcases needed_temp.mp (IsThrough.reference.needed_iff.mp hOther) with hBooked | rfl
      · exact .inl hBooked
      · exact .of_temp (by simp)
  fetch _ hAttr hNamed hCode := (NamedCode.tidy hTree hDecl (.fetch hAttr hNamed)
    hCode).with_values fun _ => IsThrough.value.needed_iff.mp
  deref _ _ hAttr hNamed hCode _ := (NamedCode.tidy hTree hDecl (.deref hAttr hNamed)
    hCode).with_values fun _ => IsThrough.value.needed_iff.mp
  base _ hAttr hNamed _ hCode :=
    NamedCode.tidy hTree hDecl (isOf_of_baseOf hTree hAttr hNamed).pointer hCode
  pointer hPtr _ _ hInner := PointerCode.tidy hTree hDecl hPtr hInner
  read hBody _ _ _ hReads := (hBody.check hReads.checks).with_values fun _ =>
    hReads.through.needed_iff.mp
  choose hHolds := .choose (hSettled _ _ hHolds)

/-
  Along a path that decides each conditional of a unit once,
  temporaries are given values before they are read.
-/
theorem CodeWithin.tidy (hTree : tree.IsRegular) (hDecl : AreDeclared tree ctx)
    (hSettled : choices.AreSettled tree id)
    (hCode : CodeWithin tree ctx fuel id before body after value) :
    TidyCode tree ctx allowed choices before body after [value] :=
  (tidyLogic hTree hDecl hSettled).sound hTree (.refl tree id) hCode

end Inline

end Algol68
