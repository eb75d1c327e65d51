import Algol68.Proofs.Guards
import Algol68.Proofs.Stores

/-
  Checks of objects that were assigned.

  In checked code, the object of a variable is checked where
  it is pointed to, and an element or a field where it is
  dereferenced. A value that is read through a pointer is then
  read behind a check, as long as guards find the same whenever
  they are asked.

  Main declarations:
    * `SyntaxTree.Conforms.checks_accounted`
    * `SyntaxTree.Conforms.checked_reads_guarded`
-/

------ Temporaries of Objects

namespace Algol68

open Walk (bind_eq_ok ok_bind pure_eq_ok)

variable {tree : SyntaxTree} {id : NodeId}

namespace Inline

/- The temporary of a pointer, whichever node declared it. -/
def Points (tree : SyntaxTree) (pointer : Pointer) (temp : Temp) : Prop :=
  ∃ first : Pointer, first.IsOf tree ∧
    first.address.Matches tree pointer.address ∧ temp = first.temp first.node

theorem Points.matches (hPtr : Points tree ptr temp) (hOther : Points tree other temp) :
    ptr.address.Matches tree other.address := by
  rcases hPtr with ⟨first, hFirst, hMatches, hTemp⟩
  rcases hOther with ⟨second, hSecond, hAgain, hSame⟩
  cases hFirst.eq_of_temp hSecond (hTemp.symm.trans hSame)
  exact hMatches.symm.trans hAgain

theorem Points.action_eq (hPtr : Points tree ptr temp) (hOther : Points tree other temp) :
    ptr.address.action = other.address.action :=
  congrArg (fun view => view.1) (hPtr.matches hOther)

theorem Points.name_eq (hPtr : Points tree ptr temp) (hOther : Points tree other temp) :
    ptr.address.name = other.address.name :=
  congrArg (fun view => view.2.1) (hPtr.matches hOther)

/- The pointer to the object that a unit designates. -/
inductive Designates (tree : SyntaxTree) (id : NodeId) : Pointer → Prop
  | name {named : Named} (hAttr : tree.attr id = .ok .identifier)
      (hNamed : derefOf tree id = .ok named) :
      Designates tree id named.pointer
  | element {element : Element} (hAttr : tree.attr id = .ok .slice)
      (hElement : elementOf tree id = .ok element) :
      Designates tree id element.pointer
  | component {component : Component} (hAttr : tree.attr id = .ok .selection)
      (hComponent : componentOf tree id = .ok component) :
      Designates tree id component.pointer

section

variable (hTree : tree.IsRegular) (hDeclared : AreDeclared tree ctx)

include hTree hDeclared

theorem yieldPointer_points (hPtr : ptr.IsOf tree) :
    Step.Meets False (yieldPointer tree ptr) ctx fun temp _ => Points tree ptr temp := by
  apply Step.Meets.get_bind
  apply Step.Meets.walk_bind False.elim
  intro owner hOwner
  rcases bind_eq_ok.mp hOwner with ⟨found, hFound, hOwner⟩
  cases found with
  | none =>
    cases hOwner
    exact ⟨ptr, hPtr, rfl, rfl⟩
  | some booking =>
    cases hOwner
    have hOwned : Owner tree ctx ptr.address booking.owner := ⟨booking, hFound, rfl⟩
    exact hOwned.exists_temp hTree hDeclared hPtr

/- What a unit designates, from the temporary of its object. -/
theorem exists_designates (hYield : (yieldAddress tree id).run ctx = .ok (temp, ctx)) :
    ∃ ptr, Designates tree id ptr ∧ Points tree ptr temp := by
  have hFound : ∀ {ptr}, ptr.IsOf tree → Designates tree id ptr →
      Step.Meets False (yieldPointer tree ptr) ctx fun temp _ =>
        ∃ ptr, Designates tree id ptr ∧ Points tree ptr temp :=
    fun hPtr hDesignates => (yieldPointer_points hTree hDeclared hPtr).mono
      fun _ _ hPoints => ⟨_, hDesignates, hPoints⟩
  have hMeets : Step.Meets False (yieldAddress tree id) ctx fun temp _ =>
      ∃ ptr, Designates tree id ptr ∧ Points tree ptr temp := by
    apply Step.Meets.walk_bind False.elim
    intro attr hAttr
    split
    · exact .walk_bind False.elim fun named hNamed =>
        hFound (.deref hAttr hNamed) (.name hAttr hNamed)
    · exact .walk_bind False.elim fun elem hElem =>
        hFound (.element hAttr hElem) (.element hAttr hElem)
    · exact .walk_bind False.elim fun component hComp =>
        hFound (.component hAttr hComp) (.component hAttr hComp)
    · exact .of_lift ((Walk.Meets.of_ends False.elim).mono fun _ hNone =>
        absurd hNone (tree.violation_ne_ok id _ _))
  exact hMeets.of_run hYield

end

end Inline

------ What is Watched

variable {attr : Attribute}

namespace SyntaxTree

open Inline

theorem Holds.of_path (hTree : tree.IsRegular) (path : List Nat)
    (hPath : path.foldlM (childOf tree) id = .ok kid) : tree.Holds id kid := by
  induction path generalizing id with
  | nil =>
    cases hPath
    exact .refl tree _
  | cons pos rest ih =>
    rcases bind_eq_ok.mp hPath with ⟨first, hFirst, hRest⟩
    exact (Holds.of_childOf hTree hFirst).trans (ih hRest)

/- Whether a part of a variable is a reference if that is one. -/
def partFits (tree : SyntaxTree) (id : NodeId) (position : Nat) : Walk Bool := do
  let (_, entry) ← tagOf tree (← childOf tree id position)
  let isRef ← tree.modes.isRef (← modeOf tree id)
  pure (isRef == (← tree.modes.isRef entry.mode))

/-
  Whether a node has the mode that references give it: what is
  dereferenced refers to values of the mode.
-/
def fitsAt (tree : SyntaxTree) (id : NodeId) : Walk Bool := do
  match ← tree.attr id with
  | .dereferencing => do
    let reference ← modeOf tree (← childOf tree id 0)
    let mode ← modeOf tree id
    pure ((← tree.modes.deref? reference) == some mode)
  | .slice => tree.partFits id 0
  | .selection => tree.partFits id 1
  | _ => pure true

/- The nodes below a node have the modes of their references. -/
def FitsBelow (tree : SyntaxTree) (id : NodeId) : Prop :=
  ∀ entry ∈ tree.nodes.toList, tree.Holds id entry.1 → tree.fitsAt entry.1 = .ok true

theorem FitsBelow.of_attr (hFits : tree.FitsBelow id) (hHolds : tree.Holds id part)
    (hAttr : tree.attr part = .ok attr) : tree.fitsAt part = .ok true := by
  rcases bind_eq_ok.mp hAttr with ⟨node, hNode, -⟩
  exact hFits _ (Store.mem_toList_of_fetch hNode) hHolds

end SyntaxTree

namespace Inline

/- The temporary of an object that a node below another dereferences for a primitive value. -/
def Watched (tree : SyntaxTree) (ctx : Context) (id : NodeId) (temp : Temp) : Prop :=
  ∃ read object mode, tree.Holds id read ∧ tree.attr read = .ok .dereferencing ∧
    childOf tree read 0 = .ok object ∧ modeOf tree read = .ok mode ∧
    tree.modes.isPrimitive mode = .ok true ∧
    (yieldAddress tree object).run ctx = .ok (temp, ctx)

/- Variables that are booked under one name are the same. -/
theorem entry_eq (hTag : tagOf tree part = .ok (tag, entry))
    (hOther : tagOf tree other = .ok (again, found))
    (hName : bookingName tag entry = bookingName again found) : entry = found := by
  have hFetch : ∀ {id tag entry}, tagOf tree id = .ok (tag, entry) →
      tree.tags.fetch tag = .ok entry := by
    intro id tag entry hTag
    rcases bind_eq_ok.mp hTag with ⟨node, -, hTag⟩
    split at hTag
    · rcases bind_eq_ok.mp hTag with ⟨_, hFetch, hTag⟩
      cases hTag
      exact hFetch
    · simp at hTag
  have hFirst := hFetch hTag
  rw [(bookingName_inj hName).2, hFetch hOther] at hFirst
  cases hFirst
  rfl

theorem modeOf_eq_of_tagOf (hTree : tree.IsRegular) (hAttr : tree.attr part = .ok .identifier)
    (hTag : tagOf tree part = .ok (tag, entry)) : modeOf tree part = .ok entry.mode := by
  rcases Classifier.attr_eq_ok.mp hAttr with ⟨node, hNode, hIdent⟩
  rcases exists_tagOf hTree hNode hIdent with ⟨_, _, hFound, -, hMode⟩
  cases hTag.symm.trans hFound
  simp [modeOf, SyntaxTree.mode?_eq hNode, hMode]

/- The variable that a slice or a selection is part of. -/
theorem Designates.exists_variable (hDesignates : Designates tree part ptr)
    (hFits : tree.FitsBelow id) (hHolds : tree.Holds id part)
    (hPart : ptr.address.action ≠ .deref) :
    ∃ name tag entry mode, tagOf tree name = .ok (tag, entry) ∧
      ptr.address.name = bookingName tag entry ∧ modeOf tree part = .ok mode ∧
      tree.modes.isRef mode = tree.modes.isRef entry.mode := by
  have hRefs : ∀ {pos name tag entry}, tree.partFits part pos = .ok true →
      childOf tree part pos = .ok name → tagOf tree name = .ok (tag, entry) →
        ∃ mode, modeOf tree part = .ok mode ∧
          tree.modes.isRef mode = tree.modes.isRef entry.mode := by
    intro pos name tag entry hFits hName hTag
    simp only [SyntaxTree.partFits, hName, hTag, ok_bind,
      bind_eq_ok, pure_eq_ok, Except.ok.injEq, beq_iff_eq] at hFits
    rcases hFits with ⟨mode, hMode, _, hRef, _, hEntry, rfl⟩
    exact ⟨mode, hMode, hRef.trans hEntry.symm⟩
  cases hDesignates with
  | name _ hNamed => exact absurd (isFor_of_derefOf hNamed).action hPart
  | element hAttr hElem =>
    rcases elementOf_eq_ok hElem with
      ⟨name, _, tag, entry, _, _, _, _, hName, -, hTag, -, -, -, -, rfl⟩
    have hHere := hFits.of_attr hHolds hAttr
    simp only [SyntaxTree.fitsAt, hAttr] at hHere
    rcases hRefs hHere hName hTag with ⟨mode, hMode, hSame⟩
    exact ⟨name, tag, entry, mode, hTag, rfl, hMode, hSame⟩
  | component hAttr hComp =>
    rcases componentOf_eq_ok hComp with
      ⟨_, name, tag, entry, _, _, _, _, _, _, -, hName, hTag, -, -, -, -, -, rfl⟩
    have hHere := hFits.of_attr hHolds hAttr
    simp only [SyntaxTree.fitsAt, hAttr] at hHere
    rcases hRefs hHere hName hTag with ⟨mode, hMode, hSame⟩
    exact ⟨name, tag, entry, mode, hTag, rfl, hMode, hSame⟩

variable (hTree : tree.IsRegular) (hDeclared : AreDeclared tree ctx) (hFits : tree.FitsBelow id)

include hTree hDeclared

/- The slot of a variable is not watched. -/
theorem not_watched_of_fetchOf (hNamed : fetchOf tree part = .ok named)
    (hPoints : Points tree named.pointer temp) : ¬ Watched tree ctx id temp := by
  rintro ⟨read, object, mode, -, -, -, -, -, hYield⟩
  rcases exists_designates hTree hDeclared hYield with ⟨ptr, hDesignates, hPtr⟩
  have hAction := hPoints.action_eq hPtr
  rw [(isFor_of_fetchOf hNamed).action] at hAction
  cases hDesignates with
  | name _ hNamed => simp [(isFor_of_derefOf hNamed).action] at hAction
  | element _ hElem => simp [(isFor_of_elementOf hElem).action] at hAction
  | component _ hComp => simp [(isFor_of_componentOf hComp).action] at hAction

include hFits

/- The object of a variable is watched for its own value. -/
theorem isPrimitive_of_watched (hNamed : derefOf tree part = .ok named)
    (hPoints : Points tree named.pointer temp) (hWatched : Watched tree ctx id temp) :
    ∃ object, named.object = some object ∧ tree.modes.isPrimitive object = .ok true := by
  rcases hWatched with ⟨read, object, mode, hHolds, hAttr, hObj, hMode, hPrim, hYield⟩
  rcases exists_designates hTree hDeclared hYield with ⟨ptr, hDesignates, hPtr⟩
  have hName := hPoints.name_eq hPtr
  have hAction := hPoints.action_eq hPtr
  rw [(isFor_of_derefOf hNamed).action] at hAction
  cases hDesignates with
  | element _ hElem => simp [(isFor_of_elementOf hElem).action] at hAction
  | component _ hComp => simp [(isFor_of_componentOf hComp).action] at hAction
  | name hIdent hOther =>
    have hBehind := hFits.of_attr hHolds hAttr
    simp only [SyntaxTree.fitsAt, hAttr, hObj, hMode,
      ok_bind, bind_eq_ok, pure_eq_ok, Except.ok.injEq, beq_iff_eq] at hBehind
    rcases hBehind with ⟨reference, hReference, _, hTarget, rfl⟩
    rcases derefOf_eq_ok hNamed with ⟨_, _, target, _, hTag, hObj, -, rfl⟩
    rcases derefOf_eq_ok hOther with ⟨_, _, _, _, hAgain, -, -, rfl⟩
    cases entry_eq hTag hAgain hName
    rw [modeOf_eq_of_tagOf hTree hIdent hAgain, Except.ok.injEq] at hReference
    rw [hReference, hTarget] at hObj
    cases hObj
    exact ⟨mode, rfl, hPrim⟩

/- A part of a variable that is no reference is not watched. -/
theorem not_watched_of_part (hHolds : tree.Holds id part) (hPart : tree.attr part ≠ .ok .identifier)
    (hMode : modeOf tree part = .ok mode) (hTarget : tree.modes.deref? mode = .ok none)
    (hAddresses : Addresses tree ctx part temp) : ¬ Watched tree ctx id temp := by
  rintro ⟨read, object, _, hRead, hAttr, hObj, hVal, -, hYield⟩
  rcases exists_designates hTree hDeclared (hAddresses _ (.start hDeclared)) with
    ⟨ptr, hDesignates, hPoints⟩
  have hPart : ptr.address.action ≠ .deref := by
    cases hDesignates with
    | name hName => exact absurd hName hPart
    | element _ hElem => simp [(isFor_of_elementOf hElem).action]
    | component _ hComp => simp [(isFor_of_componentOf hComp).action]
  rcases exists_designates hTree hDeclared hYield with ⟨other, hOther, hPtr⟩
  have hAction := hPoints.action_eq hPtr
  rcases hDesignates.exists_variable hFits hHolds hPart with
    ⟨_, _, _, _, hTag, hName, hFound, hSame⟩
  cases hMode.symm.trans hFound
  rcases hOther.exists_variable hFits (hRead.trans
    (.of_childOf hTree hObj)) (hAction ▸ hPart) with
    ⟨_, _, _, reference, hAgain, hOtherName, hReference, hRef⟩
  cases entry_eq hTag hAgain (by
    rw [← hName, ← hOtherName]
    exact hPoints.name_eq hPtr)
  have hBehind := hFits.of_attr hRead hAttr
  simp only [SyntaxTree.fitsAt, hAttr, hObj, hVal, hReference,
    ok_bind, bind_eq_ok, pure_eq_ok, Except.ok.injEq, beq_iff_eq] at hBehind
  rcases hBehind with ⟨_, hBehind, rfl⟩
  have hRefers : tree.modes.isRef reference = .ok true := by
    simp [ModeTable.isRef, ModeTable.deref?_eq_some.mp hBehind, ModeKind.isRef]
  rw [hRef, ← hSame] at hRefers
  rcases exists_deref_of_isRef hRefers with ⟨target, hFound⟩
  cases hTarget.symm.trans hFound

end Inline

------ Reads behind Checks

variable {runtime : Runtime}

namespace Runtime

variable {moments : List runtime.Moment}

/- The object of a temporary was checked. -/
def Checked (moments : List runtime.Moment) (temp : Temp) : Prop :=
  ∃ name, .act (.checkInitialised temp name) ∈ moments

/- Values that are watched are read through temporaries that are known or were checked before. -/
def Guarded (watched known : Temp → Prop) (moments : List runtime.Moment) : Prop :=
  ∀ early temp late, moments = early ++ .read (.value temp) :: late →
      watched temp → known temp ∨ Checked early temp

theorem Guarded.of_known
    (hKnown : ∀ temp, watched temp → .read (.value temp) ∈ moments → known temp) :
    Guarded watched known moments := by
  rintro early temp late rfl hWatched
  exact .inl (hKnown temp hWatched (by simp))

theorem checked_iff : Checked moments temp ↔ (moments.any fun
        | .act (.checkInitialised found _) => found == temp
        | _ => false) = true := by
  rw [List.any_eq_true]
  constructor
  · rintro ⟨name, hAct⟩
    exact ⟨_, hAct, by simp⟩
  · rintro ⟨moment, hMoment, hFound⟩
    split at hFound
    · rw [eq_of_beq hFound] at hMoment
      exact ⟨_, hMoment⟩
    · cases hFound

instance : Decidable (Checked moments temp) := decidable_of_iff _ checked_iff.symm

theorem mem_read_iff : .read (.value temp) ∈ moments ↔ (moments.any fun
        | .read (.value found) => found == temp
        | _ => false) = true := by
  rw [List.any_eq_true]
  constructor
  · exact fun hRead => ⟨_, hRead, by simp⟩
  · rintro ⟨moment, hMoment, hFound⟩
    split at hFound
    · rwa [eq_of_beq hFound] at hMoment
    · cases hFound

instance : Decidable (.read (.value temp) ∈ moments) := decidable_of_iff _ mem_read_iff.symm

theorem Guarded.mono (hGuarded : Guarded watched known moments)
    (hMore : ∀ temp, known temp → more temp) : Guarded watched more moments :=
  fun early temp late hSplit hWatched =>
    (hGuarded early temp late hSplit hWatched).imp_left (hMore temp)

theorem Guarded.cons (hOther : ∀ temp, moment ≠ .read (.value temp))
    (hRest : Guarded watched known moments) : Guarded watched known (moment :: moments) := by
  rintro (_ | ⟨first, early⟩) temp late hSplit hWatched
  · cases hSplit
    exact absurd rfl (hOther temp)
  · cases hSplit
    rcases hRest early temp late rfl hWatched with hKnown | ⟨name, hAct⟩
    · exact .inl hKnown
    · exact .inr ⟨name, List.mem_cons_of_mem _ hAct⟩

theorem Guarded.append (hFirst : Guarded watched known first)
    (hSecond : Guarded watched (fun temp => known temp ∨ Checked first temp) second) :
    Guarded watched known (first ++ second) := by
  intro early temp late hSplit hWatched
  rcases List.append_eq_append_iff.mp hSplit with ⟨rest, rfl, hLater⟩ | ⟨rest, hEarlier, hRest⟩
  · rcases hSecond rest temp late hLater hWatched with (hKnown | ⟨name, hAct⟩) | ⟨name, hAct⟩
    · exact .inl hKnown
    · exact .inr ⟨name, List.mem_append_left _ hAct⟩
    · exact .inr ⟨name, List.mem_append_right _ hAct⟩
  · cases rest with
    | nil =>
      rw [List.append_nil] at hEarlier
      rw [← hEarlier]
      refine (hSecond [] temp late hRest.symm hWatched).resolve_right ?_
      rintro ⟨name, hAct⟩
      cases hAct
    | cons moment others =>
      cases hRest
      exact hFirst early temp others hEarlier hWatched

end Runtime

theorem Expr.mem_momentsOf :
    moment ∈ momentsOf later ops ↔ ∃ op ∈ ops, moment ∈ op.moments later := by
  induction ops with
  | nil => simp [momentsOf]
  | cons op rest ih => simp [momentsOf, ih]

namespace Inline

open Algol68.Runtime

/-
  What is watched for a unit where its checked code is run, and the answers that guards may give.
-/
structure Watch where
  runtime : Runtime
  tree : SyntaxTree
  ctx : Context
  unit : NodeId
  choices : Choices
  regular : tree.IsRegular
  declared : AreDeclared tree ctx
  isChecked : ctx.options.checked = true
  fits : tree.FitsBelow unit
  settled : choices.AreSettled tree unit

namespace Watch

variable (watch : Watch)

/- The temporaries that are watched. -/
abbrev Has (temp : Temp) : Prop := Watched watch.tree watch.ctx watch.unit temp

/- The variables that are booked are known. -/
def Covers (known : Temp → Prop) (bookings : Bookings) : Prop :=
  ∀ temp pointer, watch.Has temp → pointer.address.action = .deref →
      Points watch.tree pointer temp → Booked watch.tree watch.ctx bookings temp → known temp

/- A value reads nothing that is watched and not known. -/
def Safe (known : Temp → Prop) (value : Expr) : Prop :=
  ∀ later : watch.runtime.State, (∀ moment ∈ value.moments later, moment.Follows watch.choices) →
    ∀ temp, watch.Has temp → .read (.value temp) ∈ value.moments later → known temp

/-
  Statements read what is watched behind checks. So do the
  values that they prepare, and code for what is booked then.
-/
def Prepares (known : Temp → Prop) (body : List Stmt) (after : Bookings)
    (values : List Expr) : Prop :=
  ∀ start : watch.runtime.State, (∀ moment ∈ (Stmt.runAll start body).2,
      moment.Follows watch.choices) →
    Guarded watch.Has known (Stmt.runAll start body).2 ∧ watch.Covers (fun temp => known temp ∨
        Checked (Stmt.runAll start body).2 temp) after ∧
      ∀ value ∈ values, watch.Safe (fun temp => known temp ∨
        Checked (Stmt.runAll start body).2 temp) value

/- Statements that may be run where some bookings are there. -/
def Readies (before : Bookings) (body : List Stmt) (after : Bookings) (values : List Expr) : Prop :=
  ∀ known, watch.Covers known before → watch.Prepares known body after values

variable {watch}

theorem Covers.mono (hCovers : watch.Covers known after) (hMore : ∀ temp, known temp → more temp) :
    watch.Covers more after :=
  fun temp ptr hWatched hAction hPoints hBooked => hMore temp
    (hCovers temp ptr hWatched hAction hPoints hBooked)

theorem Safe.mono (hSafe : watch.Safe known value) (hMore : ∀ temp, known temp → more temp) :
    watch.Safe more value :=
  fun later hFollows temp hWatched hRead => hMore temp (hSafe later hFollows temp hWatched hRead)

theorem Safe.of_known (hKnown : watch.Has temp → known temp) : watch.Safe known (.value temp) := by
  intro later _ other hWatched hRead
  simp only [Expr.moments, List.mem_singleton, Moment.read.injEq, Expr.value.injEq] at hRead
  exact hRead ▸ hKnown (hRead ▸ hWatched)

theorem Safe.of_operands
    (hMoments : ∀ later : watch.runtime.State, value.moments later = Expr.momentsOf later values)
    (hVals : ∀ value ∈ values, watch.Safe known value) : watch.Safe known value := by
  intro later hFollows temp hWatched hRead
  rw [hMoments] at hFollows hRead
  rcases Expr.mem_momentsOf.mp hRead with ⟨op, hOp, hHere⟩
  exact hVals op hOp later (fun moment hMoment =>
    hFollows moment (Expr.mem_momentsOf.mpr ⟨op, hOp, hMoment⟩)) temp hWatched hHere

theorem Safe.of_unread
    (hNone : ∀ (later : watch.runtime.State) temp, .read (.value temp) ∉ value.moments later) :
    watch.Safe known value :=
  fun later _ temp _ hRead => absurd hRead (hNone later temp)

theorem Safe.through (hSafe : watch.Safe known (.value temp)) (hVal : IsThrough temp value) :
    watch.Safe known value := by
  cases hVal
  case value => exact hSafe
  all_goals exact .of_unread (by simp [Expr.moments])

namespace Prepares

theorem nil (hAfter : watch.Covers known after) (hVals : ∀ value ∈ values, watch.Safe known value) :
    watch.Prepares known [] after values := by
  intro start _
  exact ⟨.of_known (by simp [Stmt.runAll]), hAfter.mono fun _ => .inl,
    fun value hVal => (hVals value hVal).mono fun _ => .inl⟩

/- Other statements go on with what is known by then. -/
theorem continue_with (hBody : watch.Prepares known body mid vals)
    (hRest : ∀ more, watch.Covers more mid → (∀ val ∈ vals, watch.Safe more val) →
        watch.Prepares more rest after others) :
    watch.Prepares known (body ++ rest) after others := by
  intro start hFollows
  rw [Stmt.runAll_append] at hFollows ⊢
  rw [List.forall_mem_append] at hFollows
  rcases hBody start hFollows.1 with ⟨hEarly, hMid, hVals⟩
  rcases hRest _ hMid hVals _ hFollows.2 with ⟨hLate, hAfter, hOthers⟩
  refine ⟨hEarly.append hLate, hAfter.mono ?_, fun val hVal => (hOthers val hVal).mono ?_⟩
  all_goals
    rintro temp ((hTemp | ⟨name, hAct⟩) | ⟨name, hAct⟩)
    · exact .inl hTemp
    · exact .inr ⟨name, List.mem_append_left _ hAct⟩
    · exact .inr ⟨name, List.mem_append_right _ hAct⟩

/- Values that were safe before are safe behind statements. -/
theorem keep (hBody : watch.Prepares known body after others)
    (hVals : ∀ val ∈ vals, watch.Safe known val) :
    watch.Prepares known body after (vals ++ others) := by
  intro start hFollows
  rcases hBody start hFollows with ⟨hGuarded, hAfter, hOthers⟩
  refine ⟨hGuarded, hAfter, fun val hVal => ?_⟩
  rcases List.mem_append.mp hVal with hOld | hNew
  · exact (hVals val hOld).mono fun _ => .inl
  · exact hOthers val hNew

/- A statement of values that are safe. -/
theorem of_stmt (hSimple : stmt.isSimple = true) (hAfter : watch.Covers known after)
    (hOps : ∀ op ∈ stmt.operands, watch.Safe known op) : watch.Prepares known [stmt] after [] := by
  intro start hFollows
  rw [Stmt.runAll_singleton, Stmt.run_of_isSimple hSimple] at hFollows ⊢
  refine ⟨.of_known ?_, hAfter.mono fun _ => .inl, by simp⟩
  intro temp hWatched hRead
  simp only [List.mem_append, List.mem_map, List.mem_singleton, reduceCtorEq, or_false] at hRead
  rcases hRead with ⟨_, -, hRead⟩ | hRead
  · cases hRead
  · rcases Expr.mem_momentsOf.mp hRead with ⟨op, hOp, hHere⟩
    exact hOps op hOp start (fun moment hMoment => hFollows moment (by
        simp [Expr.mem_momentsOf.mpr ⟨op, hOp, hMoment⟩]))
      temp hWatched hHere

theorem of_check (name : String) (hAfter : watch.Covers known after) :
    watch.Prepares known [.checkInitialised temp name] after [.value temp] := by
  have hCheck : watch.Prepares known [.checkInitialised temp name] after [] :=
    of_stmt rfl hAfter (by simp [Stmt.operands])
  intro start hFollows
  rcases hCheck start hFollows with ⟨hGuarded, hCovers, -⟩
  refine ⟨hGuarded, hCovers, ?_⟩
  rw [Stmt.runAll_singleton, Stmt.run_of_isSimple rfl, List.forall_mem_singleton]
  exact .of_known fun _ => .inr ⟨name, by simp⟩

end Prepares

namespace Readies

theorem append (hFirst : watch.Readies before first mid vals)
    (hSecond : watch.Readies mid second after others) :
    watch.Readies before (first ++ second) after (vals ++ others) :=
  fun known hKnown => (hFirst known hKnown).continue_with
    fun more hMid hVals => (hSecond more hMid).keep hVals

theorem with_values (hBody : watch.Readies before body after vals)
    (hOthers : ∀ known, (∀ val ∈ vals, watch.Safe known val) →
      ∀ other ∈ others, watch.Safe known other) :
    watch.Readies before body after others := by
  intro known hKnown start hFollows
  rcases hBody known hKnown start hFollows with ⟨hGuarded, hAfter, hVals⟩
  exact ⟨hGuarded, hAfter, hOthers _ hVals⟩

theorem with_value (hBody : watch.Readies before body after vals)
    (hVal : ∀ known, (∀ val ∈ vals, watch.Safe known val) → watch.Safe known val) :
    watch.Readies before body after [val] :=
  hBody.with_values fun known hVals => by
    simpa using hVal known hVals

theorem concat (hBody : watch.Readies before body after values) (hSimple : stmt.isSimple = true)
    (hOps : ∀ op ∈ stmt.operands, op ∈ values) :
    watch.Readies before (body ++ [stmt]) after values := by
  intro known hKnown
  apply (hBody known hKnown).continue_with
  intro more hAfter hVals
  have hStmt : watch.Prepares more [stmt] after [] :=
    .of_stmt hSimple hAfter fun op hOp => hVals op (hOps op hOp)
  simpa using hStmt.keep hVals

theorem start : watch.Readies before [] before [] := fun _ hKnown => .nil hKnown (by simp)

theorem of_checkInitialised (hPrim : watch.Has temp → watch.tree.modes.isPrimitive mode = .ok true)
    (hCheck : checkInitialised watch.tree watch.ctx.options.checked temp mode = .ok check) :
    watch.Readies before check before [.value temp] := by
  intro known hKnown
  rcases checkInitialised_eq_ok hCheck with ⟨rfl, hOther⟩ | ⟨-, -, name, rfl⟩
  · refine .nil hKnown ?_
    rw [List.forall_mem_singleton]
    refine .of_known fun hWatched => ?_
    cases (hPrim hWatched).symm.trans (hOther watch.isChecked)
  · exact .of_check name hKnown

/- The temporary of a pointer is booked, or computed first. -/
theorem of_pointer (hPtr : ptr.IsOf watch.tree)
    (hInner : ∀ {before body after}, lower temp before body after →
        watch.Readies before body after values)
    (hObj : ptr.address.action = .deref → values = [.value temp])
    (hOther : ptr.address.action ≠ .deref → ∀ known, ∀ value ∈ values, watch.Safe known value)
    (hCode : PointerCode watch.tree watch.ctx ptr lower before body after temp) :
    watch.Readies before body after values := by
  intro known hKnown
  cases hCode with
  | booked hOwner hHas =>
    refine .nil hKnown ?_
    by_cases hAction : ptr.address.action = .deref
    · rw [hObj hAction, List.forall_mem_singleton]
      exact .of_known fun hWatched => hKnown _ ptr hWatched
        hAction (hOwner.exists_temp watch.regular watch.declared
          hPtr) ⟨ptr, _, hPtr, hOwner, hHas, rfl⟩
    · exact hOther hAction known
  | computed hOwner _ hBody =>
    intro start hFollows
    rcases hInner hBody known hKnown start hFollows with ⟨hGuarded, hAfter, hVals⟩
    refine ⟨hGuarded, ?_, hVals⟩
    intro other found hWatched hAction hPoints hBooked
    rcases hBooked.of_signIn watch.regular watch.declared hPtr hOwner with hOld | rfl
    · exact hAfter other found hWatched hAction hPoints hOld
    · rw [hPoints.action_eq (hOwner.exists_temp watch.regular watch.declared hPtr)] at hAction
      rw [hObj hAction, List.forall_mem_singleton] at hVals
      exact hVals start (by simp [Expr.moments, Moment.Follows]) _ hWatched (by simp [Expr.moments])

/- A guard answers both times alike. -/
theorem choose {guard : Expr}
    (hSettled : ¬ (watch.choices id guard true ∧ watch.choices id guard false))
    (hGuard : watch.Readies before body after [guard])
    (hYes : watch.Readies after first ofYes [yes]) (hNo : watch.Readies after second ofNo [no]) :
    watch.Readies before (body ++ [.branch id guard first second])
      after [.choose id guard yes no] := by
  intro known hKnown
  apply (hGuard known hKnown).continue_with
  intro more hAfter hSafe start hFollows
  rw [List.forall_mem_singleton] at hSafe
  have hTaken : ∃ bookings, watch.Prepares more
      (if guard.holdsIn start then first else second) bookings
        [if guard.holdsIn start then yes else no] := by
    split
    · exact ⟨_, hYes more hAfter⟩
    · exact ⟨_, hNo more hAfter⟩
  rcases hTaken with ⟨_, hTaken⟩
  rw [Stmt.runAll_singleton, Stmt.run, ← apply_ite (Stmt.runAll start)] at hFollows ⊢
  rw [List.forall_mem_append, List.forall_mem_cons] at hFollows
  rcases hFollows with ⟨hAsked, hAnswer, hInner⟩
  rcases hTaken start hInner with ⟨hGuarded, -, hVal⟩
  rw [List.forall_mem_singleton] at hVal
  refine ⟨(Guarded.of_known (hSafe start hAsked)).append
    ((hGuarded.cons (by simp)).mono fun _ => .inl), hAfter.mono fun _ => .inl, ?_⟩
  rw [List.forall_mem_singleton]
  intro later hFollows temp hWatched hRead
  rw [Expr.moments, ← apply_ite (Expr.moments later)] at hFollows hRead
  rw [List.forall_mem_append, List.forall_mem_cons] at hFollows
  rcases hFollows with ⟨hAgain, hSame, hChosen⟩
  have hSame : guard.holdsIn later = guard.holdsIn start := by
    rw [Moment.Follows] at hAnswer hSame
    cases hFirst : guard.holdsIn start <;>
      cases hSecond : guard.holdsIn later <;> simp_all
  rw [hSame] at hChosen hRead
  simp only [List.mem_append, List.mem_cons, reduceCtorEq, false_or] at hRead
  rcases hRead with hRead | hRead
  · exact .inl (hSafe later hAgain temp hWatched hRead)
  · rcases hVal later hChosen temp hWatched hRead with hTemp | ⟨name, hAct⟩
    · exact .inl hTemp
    · exact .inr ⟨name, by simp [hAct]⟩

end Readies

end Watch

------ Code of Units

variable {watch : Watch}

theorem NamedCode.readies_deref (hAttr : watch.tree.attr id = .ok .identifier)
    (hNamed : derefOf watch.tree id = .ok named)
    (hCode : NamedCode watch.tree watch.ctx named before body after temp) :
    watch.Readies before body after [.value temp] := by
  have hPoints : Points watch.tree named.pointer temp := by
    rcases hCode.exists_owner with ⟨owner, hOwner, rfl⟩
    exact hOwner.exists_temp watch.regular watch.declared (.deref hAttr hNamed)
  refine .of_pointer (.deref hAttr hNamed) ?_ (fun _ => rfl)
    (fun hOther => absurd (isFor_of_derefOf hNamed).action hOther) hCode
  intro before body after hBody
  have hObj := isPrimitive_of_watched watch.regular watch.declared watch.fits hNamed hPoints
  cases hBody with
  | fetch hSlot =>
    rcases derefOf_eq_ok hNamed with ⟨_, _, _, _, -, -, -, rfl⟩
    cases hSlot
  | deref hFound hCheck =>
    refine Watch.Readies.append (.concat .start rfl
      (by simp [Stmt.operands])) (.of_checkInitialised ?_ hCheck)
    intro hWatched
    rcases hObj hWatched with ⟨object, hSame, hPrim⟩
    cases hFound.symm.trans hSame
    exact hPrim

theorem NamedCode.readies_fetch (hAttr : watch.tree.attr id = .ok .identifier)
    (hNamed : fetchOf watch.tree id = .ok named)
    (hCode : NamedCode watch.tree watch.ctx named before body after temp) :
    watch.Readies before body after [.value temp] := by
  have hOther : ∀ known, watch.Safe known (.value temp) := by
    intro known
    rcases hCode.exists_owner with ⟨owner, hOwner, rfl⟩
    exact .of_known fun hWatched => absurd hWatched
      (not_watched_of_fetchOf watch.regular watch.declared hNamed
        (hOwner.exists_temp watch.regular watch.declared (.fetch hAttr hNamed)))
  refine .of_pointer (.fetch hAttr hNamed) ?_ (fun _ => rfl) (fun _ => by simpa using hOther) hCode
  intro before body after hBody
  cases hBody with
  | fetch =>
    exact (Watch.Readies.start.concat rfl (by simp [Stmt.operands])).with_value fun known _ =>
        hOther known
  | deref hFound =>
    rcases fetchOf_eq_ok hNamed with ⟨_, _, _, -, -, rfl⟩
    cases hFound

theorem NamedCode.readies_base (hAttr : watch.tree.attr id = .ok .identifier)
    (hBase : baseOf watch.tree id = .ok named)
    (hCode : NamedCode watch.tree watch.ctx named before body after temp) :
    watch.Readies before body after [.value temp] := by
  simp only [baseOf, bind_eq_ok] at hBase
  rcases hBase with ⟨_, -, _ | _, -, hBase⟩
  · exact hCode.readies_fetch hAttr hBase
  · exact hCode.readies_deref hAttr hBase

theorem isPrimitive_of_valueOf (hVal : valueOf tree mode temp = .ok (.value temp)) :
    tree.modes.isPrimitive mode = .ok true := by
  rcases bind_eq_ok.mp hVal with ⟨kind, hKind, hVal⟩
  split at hVal
  · cases hVal
  · split at hVal
    · rename_i hPrim
      simp [ModeTable.isPrimitive, hKind, hPrim]
    · cases hVal

theorem Watch.Safe.of_valueOf (hVal : valueOf watch.tree mode temp = .ok value)
    (hKnown : watch.tree.modes.isPrimitive mode = .ok true → watch.Has temp → known temp) :
    watch.Safe known value := by
  cases isThrough_of_valueOf hVal
  case value => exact .of_known (hKnown (isPrimitive_of_valueOf hVal))
  all_goals exact .of_unread (by simp [Expr.moments])

theorem Derives.safe (hVal : Derives watch.tree values value)
    (hSafe : ∀ value ∈ values, watch.Safe known value) : watch.Safe known value := by
  cases hVal with
  | itself hVal => exact hSafe _ hVal
  | built hVal => exact .of_operands hVal.moments_eq hSafe
  | applied => exact .of_operands (by simp [Expr.moments]) hSafe
  | through hTemp hVal => exact (hSafe _ hTemp).through hVal
  | constant | blank => exact .of_unread (by simp [Expr.moments])

/- Where an object is read, or the reference to it is taken. -/
theorem Reads.readies (hBody : watch.Readies before body after [.temp temp])
    (hObject : watch.tree.attr op = .ok .identifier → watch.Readies before body after [.value temp])
    (hHolds : watch.tree.Holds watch.unit id) (hAddresses : Addresses watch.tree watch.ctx op temp)
    (hReads : Reads watch.tree watch.ctx id temp op check value) :
    watch.Readies before (body ++ check) after [value] := by
  cases hReads with
  | behind _ _ _ hCheck hVal =>
    have hThrough := isThrough_of_valueOf hVal
    rcases hCheck with ⟨hName, rfl⟩ | hCheck
    · rw [List.append_nil]
      exact (hObject hName).with_value fun known hSafe => (hSafe _ (by simp)).through hThrough
    · rcases checkInitialised_eq_ok hCheck with ⟨rfl, hOther⟩ | ⟨-, hPrim, -⟩
      · rw [List.append_nil]
        refine hBody.with_value fun known _ => .of_valueOf hVal fun hPrim => ?_
        cases hPrim.symm.trans (hOther watch.isChecked)
      · exact (hBody.append (.of_checkInitialised (fun _ => hPrim) hCheck)).with_value
            fun known hSafe => (hSafe _ (by simp)).through hThrough
  | itself hAttr hShape hMode hVal =>
    rw [List.append_nil]
    refine hBody.with_value fun known _ => ?_
    rcases hVal with rfl | ⟨hTarget, hVal⟩
    · exact .of_unread (by simp [Expr.moments])
    · refine .of_valueOf hVal fun _ hWatched => absurd hWatched
        (not_watched_of_part watch.regular watch.declared
          watch.fits hHolds ?_ hMode hTarget hAddresses)
      rintro hName
      cases hAttr.symm.trans hName
      simp at hShape

/- What is written for a unit reads what is watched behind checks. -/
theorem readiesLogic :
    CodeLogic watch.tree watch.ctx watch.unit (fun _ => True) watch.Readies where
  uses _ := trivial
  start := .start
  append := .append
  derive hBody hVal := hBody.with_value fun _ => hVal.safe
  simple hBody hSimple _ _ hOps _ _ hOthers := by
    refine (hBody.concat hSimple hOps).with_values fun known hSafe other hOther => ?_
    rcases hOthers other hOther with hOld | ⟨_, -, rfl⟩
    · exact hSafe other hOld
    · exact .of_unread (by simp [Expr.moments])
  store hBody _ _ _ _ := (hBody.concat rfl (by simp [Stmt.operands])).with_value
    fun _ _ => .of_unread (by simp [Expr.moments])
  fetch _ hAttr hNamed hCode := hCode.readies_fetch hAttr hNamed
  deref _ _ hAttr hNamed hCode _ := hCode.readies_deref hAttr hNamed
  base _ hAttr hBase _ hCode := (hCode.readies_base hAttr hBase).with_value
    fun _ _ => .of_unread (by simp [Expr.moments])
  pointer hPtr _ hOther hInner := .of_pointer hPtr hInner (absurd · hOther) fun _ _ => by
    rw [List.forall_mem_singleton]
    exact .of_unread (by simp [Expr.moments])
  read hBody hObject hHolds hAddresses hReads := hReads.readies hBody hObject hHolds hAddresses
  choose hHolds := .choose (watch.settled _ _ hHolds)

end Inline

------ Functions of Their Own

namespace Inline

open Algol68.Runtime

/- The temporary of an object that a node dereferences. -/
def IsRead (tree : SyntaxTree) (ctx : Context) (id : NodeId) (temp : Temp) : Prop :=
  ∃ read object, tree.Holds id read ∧ tree.attr read = .ok .dereferencing ∧
    childOf tree read 0 = .ok object ∧ (yieldAddress tree object).run ctx = .ok (temp, ctx)

/- The temporary of the object of a variable that is stored into. -/
def IsNamed (tree : SyntaxTree) (ctx : Context) (id : NodeId) (temp : Temp) : Prop :=
  ∃ store object, tree.Holds id store ∧ tree.attr store = .ok .assignation ∧
    childOf tree store 0 = .ok object ∧ tree.attr object = .ok .identifier ∧
    (yieldAddress tree object).run ctx = .ok (temp, ctx)

/- The object of a variable is no element and no field. -/
theorem IsNamed.attr_eq (hTree : tree.IsRegular) (hDeclared : AreDeclared tree ctx)
    (hNamed : IsNamed tree ctx id temp)
    (hYield : (yieldAddress tree part).run ctx = .ok (temp, ctx)) :
    tree.attr part = .ok .identifier := by
  rcases hNamed with ⟨_, object, -, -, -, hName, hObj⟩
  rcases exists_designates hTree hDeclared hObj with ⟨ptr, hDesignates, hPoints⟩
  rcases exists_designates hTree hDeclared hYield with ⟨other, hOther, hAgain⟩
  have hAction := hPoints.action_eq hAgain
  cases hDesignates with
  | element hAttr | component hAttr => cases hName.symm.trans hAttr
  | name _ hFound =>
    rw [(isFor_of_derefOf hFound).action] at hAction
    cases hOther with
    | name hAttr => exact hAttr
    | element _ hElem => simp [(isFor_of_elementOf hElem).action] at hAction
    | component _ hComp => simp [(isFor_of_componentOf hComp).action] at hAction

theorem Code.isRead_of_check (hTree : tree.IsRegular) (hDeclared : AreDeclared tree ctx)
    (hCode : Code tree ctx id before body after val)
    (hCheck : .checkInitialised temp name ∈ Stmt.withinOf body) :
    IsRead tree ctx id temp ∨ IsNamed tree ctx id temp := by
  have hPlaced := CodeWithin.placed hTree hDeclared hCode
  rcases (hPlaced.stmts _ hCheck).checks temp (List.mem_singleton_self _) with
    ⟨_, hUsed, hAddresses⟩
  cases hUsed with
  | read hHolds hAttr hObj =>
    exact .inl ⟨_, _, hHolds, hAttr, hObj, hAddresses _ (.start hDeclared)⟩
  | name hHolds hAttr hObj hName =>
    exact .inr ⟨_, _, hHolds, hAttr, hObj, hName, hAddresses _ (.start hDeclared)⟩

/- Along a run, what is watched is read behind checks. -/
theorem Code.guarded (hTree : tree.IsRegular) (hDeclared : AreDeclared tree ctx)
    (hFits : tree.FitsBelow id) (hChecked : ctx.options.checked = true)
    (hCode : Code tree ctx id ctx.bookings body after val)
    {state : runtime.State} (hSteady : AreSteady (state.trail body val)) :
    Guarded (Watched tree ctx id) (fun _ => False) (state.trail body val) := by
  let watch : Watch :=
    { runtime := runtime
      tree := tree
      ctx := ctx
      unit := id
      choices := choicesOf (state.trail body val)
      regular := hTree
      declared := hDeclared
      isChecked := hChecked
      fits := hFits
      settled := hSteady.areSettled tree id }
  have hReadies : watch.Readies ctx.bookings body after [val] :=
    readiesLogic.sound hTree (.refl tree id) hCode
  have hFollows : ∀ moment ∈ state.trail body val, moment.Follows watch.choices := follows_choicesOf
  rcases List.forall_mem_append.mp hFollows with ⟨hBody, hVal⟩
  rcases hReadies (fun _ => False) (fun _ _ _ _ _ hBooked =>
    Booked.not_start hDeclared hBooked) state hBody with
    ⟨hGuarded, -, hSafe⟩
  rw [List.forall_mem_singleton] at hSafe
  exact hGuarded.append (.of_known (hSafe _ hVal))

end Inline

namespace Figure

/- `ROUND random`. -/
def rounded : Figure :=
  unit .monadicFormula ⟨1⟩ [tagged .operator ⟨5⟩, unit .deproceduring ⟨2⟩ [ident ⟨16⟩ ⟨4⟩]]

/- `a[ROUND random]`. -/
def drawn : Figure := unit .slice ⟨8⟩ [ident ⟨15⟩ ⟨0⟩, part .indexer [rounded]]

/- The sum of a value and of `a[ROUND random]`. -/
def plusDrawn (left : Figure) : Figure :=
  unit .formula ⟨1⟩ [left, tagged .operator ⟨6⟩, unit .dereferencing ⟨1⟩ [drawn]]

/- `IF guard THEN yes ELSE no FI`. -/
def either (guard yes no : Figure) : Figure :=
  unit .conditionalClause ⟨1⟩ [ifPart guard, branch .thenPart ⟨1⟩ [yes], branch .elsePart ⟨1⟩ [no]]

end Figure

namespace SyntaxTree

open Inline Algol68.Runtime

/- A unit in which `a`, `b`, `x` and `y` are variables. -/
def planted (figure : Figure) : SyntaxTree where
  nodes := Figure.nodes [figure]
  modes :=
    { ModeTable.standardTable with
      modes := ⟨ModeTable.standardTable.modes.entries ++ #[⟨.row 1 ⟨1⟩, none⟩, ⟨.ref ⟨14⟩, none⟩,
          ⟨.proc [] ⟨2⟩, none⟩, ⟨.proc [⟨2⟩] ⟨1⟩, none⟩, ⟨.proc [⟨1⟩, ⟨1⟩] ⟨1⟩, none⟩,
          ⟨.proc [⟨1⟩, ⟨1⟩] ⟨3⟩, none⟩]⟩ }
  tags := ⟨#[{ name := "a", mode := ⟨15⟩, kind := .var },
      { name := "b", mode := ⟨10⟩, kind := .var },
      { name := "x", mode := ⟨8⟩, kind := .var },
      { name := "y", mode := ⟨8⟩, kind := .var },
      { name := "random", mode := ⟨16⟩, kind := .standard, builtin := some .random },
      { name := "ROUND", mode := ⟨17⟩, kind := .standard, builtin := some .round },
      { name := "+", mode := ⟨18⟩, kind := .standard, builtin := some .intAdd },
      { name := ">", mode := ⟨19⟩, kind := .standard, builtin := some .intGt }]⟩
  root := some ⟨0⟩

/- Checked code. -/
def checkedStart : Context := .ofOptions { level := 3, checked := true }

/-
  In a function of its own, the code of a basic unit checks an object only if the unit
  dereferences it, or stores into the variable that refers to it. An element or a field is checked
  only if it is dereferenced.
-/
theorem Conforms.checks_accounted (hTree : tree.Conforms) {id : NodeId} {tier : Nat}
    (hBasic : tree.isBasic id tier = .ok true) (start : Context) :
    ∃ context, (declareUnit tree id).run start.beginFunction = .ok ((), context) ∧
      (context.errorCount = start.errorCount → ∃ body next,
          (executeUnit tree id).run context = .ok (body, next) ∧
          ∀ temp name, .checkInitialised temp name ∈ Stmt.withinOf body →
            (IsRead tree context id temp ∨ IsNamed tree context id temp) ∧
            ∀ part, tree.attr part ≠ .ok .identifier →
              (yieldAddress tree part).run context = .ok (temp, context) →
              IsRead tree context id temp) := by
  have hRegular := hTree.toIsRegular
  rcases hTree.exists_code hBasic start with ⟨context, hDeclare, hDeclared, -, hWritten⟩
  refine ⟨context, hDeclare, fun hCount => ?_⟩
  rcases hWritten hCount with ⟨body, after, value, hExecute, -, hCode⟩
  refine ⟨body, _, hExecute, fun temp name hCheck => ?_⟩
  have hServed := hCode.isRead_of_check hRegular hDeclared hCheck
  refine ⟨hServed, fun part hPart hYield => ?_⟩
  exact hServed.resolve_right fun hNamed => hPart (hNamed.attr_eq hRegular hDeclared hYield)

/- What is checked in code, and the problems of its constants. -/
def checksAlone (tree : SyntaxTree) : Walk (Nat × List Temp) :=
  (fun code => (code.1, (Stmt.withinOf code.2.1).flatMap Stmt.checks)) <$>
    tree.codeAlone ⟨0⟩ checkedStart

/- `a[ROUND random] := y`. -/
def elementStored : SyntaxTree := planted (.unit .assignation ⟨8⟩ [.drawn, .valueOf ⟨1⟩ ⟨8⟩ ⟨3⟩])

theorem checks_accounted_elementStored :
    elementStored.Conforms ∧ elementStored.isBasic ⟨0⟩ 3 = .ok true ∧
      elementStored.checksAlone = .ok (0, [⟨"y_obj", ⟨9⟩⟩]) ∧ ∃ context,
        (declareUnit elementStored ⟨0⟩).run checkedStart.beginFunction = .ok ((), context) ∧
        (IsRead elementStored context ⟨0⟩ ⟨"y_obj", ⟨9⟩⟩ ∨ IsNamed elementStored context ⟨0⟩
            ⟨"y_obj", ⟨9⟩⟩) := by
  have hTree : elementStored.Conforms := conforms_of_isOrderly (by decide +kernel)
  have hBasic : elementStored.isBasic ⟨0⟩ 3 = .ok true := by decide +kernel
  have hChecks : elementStored.checksAlone = .ok (0, [⟨"y_obj", ⟨9⟩⟩]) := by decide +kernel
  refine ⟨hTree, hBasic, hChecks, ?_⟩
  rcases hTree.checks_accounted hBasic checkedStart with ⟨context, hDeclare, hWritten⟩
  refine ⟨context, hDeclare, ?_⟩
  rcases Walk.map_eq_ok.mp hChecks with ⟨⟨errors, body, value⟩, hCode, hFound⟩
  rw [codeAlone, hDeclare, ok_bind] at hCode
  simp only [bind_eq_ok, pure_eq_ok, Except.ok.injEq, Prod.mk.injEq] at hCode hFound
  rcases hCode with ⟨⟨_, after⟩, hExecute, _, -, rfl, rfl, rfl⟩
  rcases hWritten hFound.1 with ⟨_, _, hAgain, hAll⟩
  cases hAgain.symm.trans hExecute
  have hCheck := hFound.2.symm ▸ List.mem_singleton_self (⟨"y_obj", ⟨9⟩⟩ : Temp)
  rcases List.mem_flatMap.mp hCheck with ⟨stmt, hStmt, hTemp⟩
  cases stmt <;> simp only [Stmt.checks, List.not_mem_nil, List.mem_singleton] at hTemp
  subst hTemp
  exact (hAll _ _ hStmt).1

/- `x := 1`. -/
def nameStored : SyntaxTree :=
  planted (.assign ⟨8⟩ ⟨2⟩ (.number "1"))

theorem checked_for_store :
    nameStored.Conforms ∧ nameStored.isBasic ⟨0⟩ 3 = .ok true ∧
      nameStored.checksAlone = .ok (0, [⟨"x_obj", ⟨1⟩⟩]) ∧
      ∀ read, nameStored.attr read ≠ .ok .dereferencing := by
  exact ⟨conforms_of_isOrderly (by decide +kernel), by decide +kernel, by decide +kernel,
    attr_ne (by decide +kernel)⟩

/-
  In a function of its own, the checked code of a basic unit is run from any state and its value
  is then evaluated. If guards find the same whenever they are asked, a primitive value that is
  dereferenced is read behind a check of its object.
-/
theorem Conforms.checked_reads_guarded (hTree : tree.Conforms) {id : NodeId} {tier : Nat}
    (hBasic : tree.isBasic id tier = .ok true) (hFits : tree.FitsBelow id) (start : Context)
    (hChecked : start.options.checked = true) :
    ∃ context, (declareUnit tree id).run start.beginFunction = .ok ((), context) ∧
      (context.errorCount = start.errorCount → ∃ body next value,
          (executeUnit tree id).run context = .ok (body, next) ∧
          (yieldUnit tree id).run next = .ok (value, next) ∧
          ∀ (runtime : Runtime) (state : runtime.State), AreSteady (state.trail body value) →
            ∀ early temp late, state.trail body value = early ++ .read (.value temp) :: late →
              Watched tree context id temp → Checked early temp) := by
  rcases hTree.exists_code hBasic start with ⟨context, hDeclare, hDeclared, hOptions, hWritten⟩
  refine ⟨context, hDeclare, fun hCount => ?_⟩
  rcases hWritten hCount with ⟨body, after, value, hExecute, hYield, hCode⟩
  refine ⟨body, _, value, hExecute, hYield, ?_⟩
  intro runtime state hSteady early temp late hSplit hWatched
  have hGuarded := hCode.guarded hTree.toIsRegular hDeclared hFits (hOptions.trans hChecked) hSteady
  exact (hGuarded early temp late hSplit hWatched).resolve_left not_false

/- Numbers are drawn one after the other. -/
def lottery : Runtime where
  Datum := Nat
  Memory := List Nat
  look _ datum _ := datum
  build
    | _, [left, right] => left - right
    | _, [datum] => datum
    | _, _ => 0
  holds datum := datum != 0
  perform
    | .deref _ _ _, _, memory => (1, memory)
    | .compute _ _, _, drawn :: memory => (drawn, memory)
    | .element _ _ _ _, _ :: index :: _, memory => (index, memory)
    | _, _, memory => (0, memory)

instance : DecidableEq lottery.Datum := inferInstanceAs (DecidableEq Nat)

/- The numbers that will be drawn. -/
def drawing (numbers : List Nat) : lottery.State where
  temps := fun _ => (0 : Nat)
  memory := numbers

/- `(IF b THEN IF a[ROUND random] > 0 THEN x ELSE y FI ELSE 0 FI) + a[ROUND random]`. -/
def gamble : SyntaxTree :=
  planted (.plusDrawn (.either (.valueOf ⟨3⟩ ⟨10⟩ ⟨1⟩) (.either
      (.unit .formula ⟨3⟩ [.unit .dereferencing ⟨1⟩ [.drawn],
          .tagged .operator ⟨7⟩, .number "0"])
      (.valueOf ⟨1⟩ ⟨8⟩ ⟨2⟩) (.valueOf ⟨1⟩ ⟨8⟩ ⟨3⟩))
    (.number "0")))

/-
  Whether guards find the same for some numbers, and whether
  the value of `y` is read and checked then.
-/
def played (numbers : List Nat) : Walk (Nat × Temp × Bool × Bool × Bool) :=
  do
  let declared ← (declareUnit gamble ⟨0⟩).run checkedStart.beginFunction
  let (temp, _) ← (yieldAddress gamble ⟨29⟩).run declared.2
  let (errors, body, value) ← gamble.codeAlone ⟨0⟩ checkedStart
  let trail := (drawing numbers).trail body value
  pure (errors, temp, decide (AreSteady trail),
    decide (.read (.value temp) ∈ trail),
    decide (Checked trail temp))

theorem gamble_run (hPlayed : played numbers = .ok (0, temp, steady, true, checked)) :
    ∃ ctx body val early late, (declareUnit gamble ⟨0⟩).run checkedStart.beginFunction =
        .ok ((), ctx) ∧
      gamble.codeAlone ⟨0⟩ checkedStart = .ok (0, body, val) ∧
      (drawing numbers).trail body val = early ++ .read (.value temp) :: late ∧
      Watched gamble ctx ⟨0⟩ temp ∧
      decide (AreSteady ((drawing numbers).trail body val)) = steady ∧
      decide (Checked ((drawing numbers).trail body val) temp) = checked := by
  simp only [played, bind_eq_ok, pure_eq_ok,
    Except.ok.injEq, Prod.mk.injEq, decide_eq_true_eq] at hPlayed
  rcases hPlayed with ⟨⟨⟨⟩, ctx⟩, hDeclare, ⟨_, next⟩, hYield, ⟨_, body, val⟩, hCode,
      rfl, rfl, hSteady, hRead, hChecked⟩
  have hGives : Gives ctx.scope True (yieldAddress gamble ⟨29⟩) fun _ => True := yieldAddress_gives
  rw [(hGives.of_run hYield).2.2 trivial] at hYield
  rcases List.append_of_mem hRead with ⟨early, late, hSplit⟩
  have hRegular : gamble.IsRegular := (conforms_of_isOrderly (by decide +kernel)).toIsRegular
  refine ⟨ctx, body, val, early, late, hDeclare, hCode, hSplit, ?_, hSteady, hChecked⟩
  exact ⟨⟨28⟩, ⟨29⟩, ⟨1⟩, .of_path hRegular [0, 1, 0, 0, 2, 0, 0]
    (by decide +kernel), by decide +kernel, by decide +kernel,
    by decide +kernel, by decide +kernel, hYield⟩

theorem gamble_fits : gamble.FitsBelow ⟨0⟩ := by
  have hAll : ∀ entry ∈ gamble.nodes.toList, gamble.fitsAt entry.1 = .ok true := by
    decide +kernel
  exact fun entry hEntry _ => hAll entry hEntry

/- The same number is drawn again. -/
theorem checked_reads_guarded_gamble :
    gamble.Conforms ∧ gamble.isBasic ⟨0⟩ 3 = .ok true ∧ gamble.FitsBelow ⟨0⟩ ∧
      ∃ context body value early temp late,
        (declareUnit gamble ⟨0⟩).run checkedStart.beginFunction = .ok ((), context) ∧
        gamble.codeAlone ⟨0⟩ checkedStart = .ok (0, body, value) ∧
        AreSteady ((drawing [0, 0]).trail body value) ∧ (drawing [0, 0]).trail body value =
          early ++ .read (.value temp) :: late ∧
        Watched gamble context ⟨0⟩ temp ∧ Checked early temp := by
  have hTree : gamble.Conforms := conforms_of_isOrderly (by decide +kernel)
  have hBasic : gamble.isBasic ⟨0⟩ 3 = .ok true := by decide +kernel
  rcases gamble_run (by decide +kernel : played [0, 0] =
    .ok (0, ⟨"y_obj", ⟨29⟩⟩, true, true, true)) with
    ⟨context, body, value, early, late, hDeclare, hCode, hSplit, hWatched, hSteady, -⟩
  rw [decide_eq_true_eq] at hSteady
  refine ⟨hTree, hBasic, gamble_fits, context, body, value, early,
    _, late, hDeclare, hCode, hSteady, hSplit, hWatched, ?_⟩
  rcases hTree.checked_reads_guarded hBasic gamble_fits checkedStart
    rfl with ⟨found, hFound, hWritten⟩
  cases hDeclare.symm.trans hFound
  rw [codeAlone, hDeclare, ok_bind] at hCode
  simp only [bind_eq_ok, pure_eq_ok, Except.ok.injEq, Prod.mk.injEq] at hCode
  rcases hCode with ⟨_, hExecute, _, hYield, hCount, rfl, rfl⟩
  rcases hWritten hCount with ⟨_, _, _, hAgain, hValue, hAll⟩
  cases hAgain.symm.trans hExecute
  cases hValue.symm.trans hYield
  exact hAll _ _ hSteady early _ late hSplit hWatched

/-
  Another number is drawn for an element that is found again. The guard of a value reads it, and
  what was not checked is read.
-/
theorem guard_upset_by_draw :
    gamble.Conforms ∧ gamble.isBasic ⟨0⟩ 3 = .ok true ∧ gamble.FitsBelow ⟨0⟩ ∧
      (∀ id, gamble.attr id ≠ .ok .assignation) ∧ ∃ context body value early temp late,
        (declareUnit gamble ⟨0⟩).run checkedStart.beginFunction = .ok ((), context) ∧
        gamble.codeAlone ⟨0⟩ checkedStart = .ok (0, body, value) ∧
        (drawing [1, 0]).trail body value = early ++ .read (.value temp) :: late ∧
        Watched gamble context ⟨0⟩ temp ∧ ¬ Checked early temp := by
  rcases gamble_run (by decide +kernel : played [1, 0] =
    .ok (0, ⟨"y_obj", ⟨29⟩⟩, false, true, false)) with
    ⟨context, body, value, early, late, hDeclare, hCode, hSplit, hWatched, -, hChecked⟩
  rw [decide_eq_false_iff_not] at hChecked
  refine ⟨conforms_of_isOrderly (by decide +kernel),
    by decide +kernel, gamble_fits, attr_ne (by decide +kernel),
    context, body, value, early, _, late, hDeclare, hCode, hSplit, hWatched, ?_⟩
  rintro ⟨name, hCheck⟩
  exact hChecked ⟨name, hSplit ▸ List.mem_append_left _ hCheck⟩

end SyntaxTree

end Algol68
