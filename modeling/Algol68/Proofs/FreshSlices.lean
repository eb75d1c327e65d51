import Algol68.Proofs.DeclaredOnce
import Algol68.Proofs.Freshness
import Algol68.Proofs.Guards
import Algol68.Proofs.SharedNames

/-
  Slices in the functions of clauses.

  Guards, selectors and bounds lead a clause: the slices in
  them stay booked for all that follows. A clause is steady if
  its items settle, and disturb none of these slices that is
  read again behind them.

  Main declarations:
    * `SyntaxTree.Conforms.slices_stay_fresh`
-/

------ Steady Clauses

namespace Algol68

/- The slices of a unit, and of those before it, are spared. -/
def SyntaxTree.MayLead (tree : SyntaxTree) (leads : List NodeId) (unit : NodeId) : Prop :=
  ∀ lead ∈ unit :: leads, tree.Spares unit lead

/-
  The unit of an item that is written in place settles. A
  declaration stores before its unit is run.
-/
def Item.Settles (tree : SyntaxTree) (leads : List NodeId) (item : Item) : Prop :=
  match item.kind with
  | .inline => tree.Settles item.site.node
  | .allocation => ∀ init, tree.sub? item.site.node = .ok (some init) →
      tree.Settles init ∧ tree.SparesFor item.site.node leads [init]
  | .call _ | .declaration => True

/- Items that settle, and spare what is read again behind them. -/
def Item.AreSteady (tree : SyntaxTree) (leads later : List NodeId) : List Item → Prop
  | [] => True
  | item :: rest => item.Settles tree leads ∧
      tree.SparesFor item.site.node leads (rest.map (·.site.node) ++ later) ∧
      AreSteady tree leads later rest

/- Of several branches only one is run. -/
def Branches.AreSteady (tree : SyntaxTree) (leads : List NodeId) : Branches → Prop
  | .guarded yes => Item.AreSteady tree leads [] yes.items
  | .numbered alternatives => ∀ item ∈ alternatives, Item.AreSteady tree leads [] [item]

/- The selectors of a conditional or case clause lead what follows. -/
def ChoicePlan.IsSteady (tree : SyntaxTree) : List NodeId → ChoicePlan → Prop
  | _, .nothing => True
  | leads, .otherwise last => Item.AreSteady tree leads [] last.items
  | leads, .select selector branches rest =>
    tree.MayLead leads selector ∧ branches.AreSteady tree (selector :: leads) ∧
      rest.IsSteady tree (selector :: leads)

/- Units one after the other, each of which leads the next. -/
def SyntaxTree.MayLeadInTurn (tree : SyntaxTree) : List NodeId → List NodeId → Prop
  | _, [] => True
  | leads, unit :: rest => tree.MayLead leads unit ∧ tree.MayLeadInTurn (unit :: leads) rest

/- The bounds of a loop lead all its rounds, which come one after the other. -/
structure LoopPlan.IsSteady (tree : SyntaxTree) (plan : LoopPlan) : Prop where
  bounds : tree.MayLeadInTurn [] plan.bounds
  body : Item.AreSteady tree plan.bounds (plan.body.items.map (·.site.node)) plan.body.items

/- A clause of any kind. -/
def Emission.ClausePlan.IsSteady (tree : SyntaxTree) : ClausePlan → Prop
  | .serial plan => Item.AreSteady tree [] [] plan.items
  | .choice plan => plan.IsSteady tree []
  | .loop _ plan => plan.IsSteady tree

------ Marks and References

variable {tree : SyntaxTree} {id : NodeId}

namespace SyntaxTree

open Inline Emission

variable {attr : Attribute}

theorem isUntracked_of_attr (hAttr : tree.attr temp.owner = .ok attr) (hSlice : attr ≠ .slice) :
    tree.IsUntracked temp := by
  rintro tag ⟨ptr, -, rfl, hFound, -⟩
  rw [show tree.attr ptr.node = .ok attr from hAttr, Except.ok.injEq] at hFound
  exact hSlice hFound

theorem isUntracked_of_mark (hMark : temp.stem = "pop_sp" ∨ temp.stem = "pop_fp") :
    tree.IsUntracked temp := by
  rintro tag ⟨pointer, hPtr, rfl, hSlice, -⟩
  rcases hPtr.isFor.1.stem with ⟨name, _, hStem⟩
  rw [hPtr.slice.mp hSlice, stemOf] at hStem
  have hLast : pointer.stem.toList.getLast? = some 'm' := by
    have hElem : "_elem".toList.getLast? = some 'm' := by decide
    rw [hStem, String.toList_append, List.getLast?_append, hElem]
    rfl
  rcases hMark with hMark | hMark
  · rw [show pointer.stem = "pop_sp" from hMark] at hLast
    exact absurd hLast (by decide)
  · rw [show pointer.stem = "pop_fp" from hMark] at hLast
    exact absurd hLast (by decide)

/- A temporary that leads into a variable is owned by one. -/
theorem Enters.attr_mem (hEnters : tree.Enters temp tag) (hAttr : tree.attr temp.owner = .ok attr) :
    attr ∈ [Attribute.identifier, .slice, .selection, .variableDeclaration] := by
  cases hEnters with
  | pointer hPtr _ =>
    have hShape := Names.pointer_ne hPtr hAttr
    simp only [List.mem_cons] at hShape ⊢
    tauto
  | @reference declared _ _ _ hDecl _ _ =>
    rw [show tree.attr declared = .ok attr from hAttr, Except.ok.injEq] at hDecl
    simp [hDecl]

theorem Enters.storesTo (hAttr : tree.attr id = .ok .variableDeclaration)
    (hEnters : tree.Enters (referenceOf id entry) tag) : tree.StoresTo id tag := by
  generalize hSame : referenceOf id entry = found at hEnters
  cases hEnters with
  | @pointer ptr _ hPtr _ =>
    have hNode : id = ptr.node := congrArg Temp.owner hSame
    rw [hNode] at hAttr
    exact absurd (Names.pointer_ne hPtr hAttr) (by decide)
  | @reference declared _ _ _ hDecl hNode hTag =>
    have hOwner : id = declared := congrArg Temp.owner hSame
    rw [hOwner]
    exact .declaration hDecl hNode hTag

end SyntaxTree

------ Items

namespace Emission

open Inline

variable {values : List Expr} {value : Expr}

theorem keeps_idle (hSimple : stmt.isSimple = true)
    (hReads : ∀ temp ∈ stmt.reads, tree.IsUntracked temp) (hOps : stmt.operands = [])
    (hEffects : stmt.effects = []) : Stmt.Keeps tree concern [stmt] concern :=
  .of_isSimple hSimple hReads (by simp [hOps]) (fun _ _ hTemp => hTemp) (by simp [hEffects])

theorem readsOnly_of_mem (hVal : value ∈ values) (choices : Choices) :
    value.ReadsOnly choices (needs tree ctx before values choices) :=
  fun uses hUses _ hTemp => .inr ⟨value, hVal, uses, hUses, hTemp⟩

theorem needs_mono (hVals : ∀ value ∈ values, value ∈ others) (choices : Choices) (temp : Temp)
    (hNeeded : needs tree ctx before values choices temp) :
    needs tree ctx before others choices temp := by
  rcases hNeeded with hBooked | ⟨value, hVal, hUses⟩
  · exact .inl hBooked
  · exact .inr ⟨value, hVals value hVal, hUses⟩

theorem wants_mono (hUnits : ∀ unit ∈ units, ∃ upper ∈ more, tree.Holds upper unit)
    (hVals : ∀ value ∈ values, value ∈ others) (choices : Choices) (temp : Temp)
    (hWanted : wants tree ctx units before values choices temp) :
    wants tree ctx more before others choices temp := by
  rcases hWanted with ⟨hBooked, unit, hUnit, hBelongs⟩ | ⟨value, hVal, hUses⟩
  · rcases hUnits unit hUnit with ⟨upper, hUpper, hHolds⟩
    exact .inl ⟨hBooked, upper, hUpper, hBelongs.above hHolds⟩
  · exact .inr ⟨value, hVals value hVal, hUses⟩

theorem upper_of_subset {units more : List NodeId} (hUnits : units ⊆ more) :
    ∀ unit ∈ units, ∃ upper ∈ more, tree.Holds upper unit :=
  fun unit hUnit => ⟨unit, hUnits hUnit, .refl tree unit⟩

variable (hTree : tree.IsRegular) (hDecl : AreDeclared tree ctx)
variable (hLed : Led tree ctx leads before [])

include hTree hDecl hLed

/- A statement of a unit that spares what is booked. -/
theorem keeps_effect (hSpares : tree.SparesFor id leads later) (hSimple : stmt.isSimple = true)
    (hUnits : ∀ unit ∈ later, ∃ upper ∈ units, tree.Holds upper unit)
    (hReads : ∀ temp ∈ stmt.reads, tree.IsUntracked temp) (hOps : ∀ op ∈ stmt.operands, op ∈ values)
    (hChanges : ∀ event ∈ stmt.effects, ∀ tag, event.Changes tree tag →
      ∃ store, tree.Holds id store ∧ tree.StoresTo store tag) :
    Stmt.Keeps tree (wants tree ctx units before values) [stmt]
      (wants tree ctx later before []) := by
  refine .of_isSimple hSimple hReads ?_ (wants_mono hUnits (by simp)) ?_
  · exact fun choices op hOp uses hUses _ hTemp => .inr ⟨op, hOps op hOp, uses, hUses, hTemp⟩
  · rintro choices temp (⟨hBooked, hLater⟩ | ⟨_, hNone, -⟩) event hEvent
    · exact not_upsets_of_sparesFor hTree hDecl hLed hSpares hBooked hLater (hChanges event hEvent)
    · cases hNone

/- Other code is run at a node. -/
theorem keeps_leave (hSpares : tree.SparesFor id leads later) (hSimple : stmt.isSimple = true)
    (hReads : stmt.reads = []) (hOps : stmt.operands = []) (hEffects : stmt.effects = [.leave id]) :
    Stmt.Keeps tree (wants tree ctx (id :: later) before []) [stmt]
      (wants tree ctx later before []) := by
  refine keeps_effect hTree hDecl hLed hSpares hSimple (upper_of_subset (List.subset_cons_self _ _))
    (by simp [hReads]) (by simp [hOps]) ?_
  rw [hEffects, List.forall_mem_singleton]
  rintro tag (_ | ⟨hHolds, hStore⟩)
  exact ⟨_, hHolds, hStore⟩

theorem keeps_reference (hAttr : tree.attr id = .ok .variableDeclaration)
    (hSpares : tree.SparesFor id leads later)
    (hUnits : ∀ unit ∈ later, ∃ upper ∈ units, tree.Holds upper unit)
    (hSimple : stmt.isSimple = true)
    (hReads : stmt.reads = [referenceOf id entry]) (hOps : ∀ op ∈ stmt.operands, op ∈ values)
    (hEffects : stmt.effects = [.store (referenceOf id entry)]) :
    Stmt.Keeps tree (wants tree ctx units before values) [stmt]
      (wants tree ctx later before []) := by
  refine keeps_effect hTree hDecl hLed hSpares hSimple hUnits ?_ hOps ?_
  · rw [hReads, List.forall_mem_singleton]
    exact SyntaxTree.isUntracked_of_attr hAttr (by decide)
  · rw [hEffects, List.forall_mem_singleton]
    rintro tag (hEnters | _)
    exact ⟨id, .refl tree id, hEnters.storesTo hAttr⟩

theorem ValueCode.keeps (hSpares : tree.SparesFor id leads later) (hSettles : tree.Settles id)
    (hCode : ValueCode tree ctx id before body after) :
    Stmt.Keeps tree (wants tree ctx (id :: later) before []) body
      (wants tree ctx later before []) := by
  have hSame : ∀ unit ∈ later, ∃ upper ∈ later, tree.Holds upper unit :=
    upper_of_subset (List.Subset.refl later)
  cases hCode with
  | dropped hCode =>
    exact (CodeWithin.keeps_item hTree hDecl hCode hLed
      hSettles hSpares).mono (fun _ _ hTemp => hTemp) (wants_mono hSame (by simp))
  | pushed hCode =>
    exact (CodeWithin.keeps_item hTree hDecl hCode hLed hSettles hSpares).append
      (keeps_effect hTree hDecl hLed hSpares rfl hSame (by simp [Stmt.reads]) (fun _ hOp => hOp)
        (by simp [Stmt.effects]))

theorem ItemCode.keeps (hSettles : item.Settles tree leads)
    (hSpares : tree.SparesFor item.site.node leads later)
    (hCode : ItemCode tree ctx item before body) :
    Stmt.Keeps tree (wants tree ctx (item.site.node :: later) before []) body
      (wants tree ctx later before []) := by
  unfold Item.Settles at hSettles
  cases hCode with
  | inline hKind hCode =>
    rw [hKind] at hSettles
    exact hCode.keeps hTree hDecl hLed hSpares hSettles
  | call hKind | declaration => exact keeps_leave hTree hDecl hLed hSpares rfl rfl rfl rfl
  | allocation hKind hAttr hInit hCode =>
    rw [hKind] at hSettles
    refine .block (.cons (keeps_idle rfl (by simp [Stmt.reads]) rfl rfl) ?_)
    cases hCode with
    | none =>
      exact keeps_reference hTree hDecl hLed hAttr hSpares
        (upper_of_subset (List.subset_cons_self _ _)) rfl rfl (by simp [Stmt.operands]) rfl
    | @some init _ _ _ _ _ _ hCode =>
      rcases hSettles init hInit with ⟨hSettles, hFirst⟩
      have hBelow : tree.Holds item.site.node init :=
        .single (SyntaxTree.isChild_of_sub? hTree.shaped hInit)
      have hInner : tree.SparesFor init leads later := fun lead hLead next hNext store slice other
          hStore => hSpares lead hLead next hNext store slice other (hBelow.trans hStore)
      have hBoth : tree.SparesFor item.site.node leads (init :: later) := by
        intro lead hLead next hNext
        rcases List.mem_cons.mp hNext with rfl | hNext
        · exact hFirst lead hLead next (List.mem_singleton_self _)
        · exact hSpares lead hLead next hNext
      have hUnits : ∀ unit ∈ init :: later, ∃ upper ∈ item.site.node :: later,
          tree.Holds upper unit := by
        rw [List.forall_mem_cons]
        exact ⟨⟨_, List.mem_cons_self, hBelow⟩, upper_of_subset (List.subset_cons_self _ _)⟩
      exact .cons (keeps_reference hTree hDecl hLed hAttr hBoth hUnits rfl rfl
          (by simp [Stmt.operands]) rfl)
        ((CodeWithin.keeps_item hTree hDecl hCode hLed hSettles hInner).append
          (keeps_reference hTree hDecl hLed hAttr hSpares (upper_of_subset (List.Subset.refl _))
            rfl rfl (fun _ hOp => hOp) rfl))

/- One item after the other, all from what leads them. -/
theorem ItemsCode.keeps (hMark : tree.IsUntracked mark)
    (hSteady : Item.AreSteady tree leads later items)
    (hCode : ItemsCode tree ctx mark items before body) :
    Stmt.Keeps tree (wants tree ctx (items.map (·.site.node) ++ later) before []) body
      (wants tree ctx later before []) := by
  induction hCode with
  | nil => exact .nil
  | last hItem => exact hItem.keeps hTree hDecl hLed hSteady.1 hSteady.2.1
  | cons hItem _ ih =>
    refine (hItem.keeps hTree hDecl hLed hSteady.1 hSteady.2.1).append
      (.cons ?_ (ih hLed hSteady.2.2))
    exact keeps_idle rfl (by simpa [Stmt.reads] using hMark) rfl rfl

omit hTree hDecl hLed

theorem keeps_frame (id : NodeId) (site : Site) (opensFrame : Bool) :
    Stmt.Keeps tree concern (openFrame id site opensFrame) concern ∧
      Stmt.Keeps tree concern (closeFrame id opensFrame) concern := by
  have hFrame : tree.IsUntracked (frameMark id) := SyntaxTree.isUntracked_of_mark (.inr rfl)
  cases opensFrame with
  | false => exact ⟨.nil, .nil⟩
  | true =>
    constructor
    · exact .cons (keeps_idle rfl (by simp [Stmt.reads]) rfl rfl)
        (.cons (keeps_idle rfl (by simp [Stmt.reads]) rfl rfl)
          (keeps_idle rfl (by simp [Stmt.reads]) rfl rfl))
    · exact keeps_idle rfl (by simpa [Stmt.reads] using hFrame) rfl rfl

theorem SerialCode.keeps (hTree : tree.IsRegular) (hDecl : AreDeclared tree ctx)
    (hLed : Led tree ctx leads before []) (hSteady : Item.AreSteady tree leads later plan.items)
    (hCode : SerialCode tree ctx plan before body) :
    Stmt.Keeps tree (wants tree ctx (plan.items.map (·.site.node) ++ later) before []) body
      (wants tree ctx later before []) := by
  cases hCode with
  | mk hItems =>
    exact ((keeps_frame _ _ _).1.append (.cons (keeps_idle rfl (by simp [Stmt.reads]) rfl rfl)
      (hItems.keeps hTree hDecl hLed (SyntaxTree.isUntracked_of_mark (.inl rfl))
        hSteady))).append (keeps_frame _ plan.site _).2

------ Clauses

/- Nothing matters behind the last statement. -/
abbrev atEnd : Concern := fun _ _ => False

theorem led_of_subset (hLed : Led tree ctx leads before others)
    (hMore : ∀ lead ∈ leads, lead ∈ more) (hVals : ∀ value ∈ values, value ∈ others) :
    Led tree ctx more before values := by
  intro choices temp hNeeded
  rcases hLed choices temp (needs_mono hVals choices temp hNeeded) with ⟨lead, hLead, hBelongs⟩
  exact ⟨lead, hMore lead hLead, hBelongs⟩

theorem keeps_guard (hTree : tree.IsRegular) (hDecl : AreDeclared tree ctx)
    (hLed : Led tree ctx leads before []) {guard : NodeId} (hLeads : tree.MayLead leads guard)
    (hCode : Code tree ctx guard before body mid value) :
    Stmt.Keeps tree (needs tree ctx before []) body (needs tree ctx mid [value]) ∧
      Led tree ctx (guard :: leads) mid [] := by
  rcases CodeWithin.keeps_lead hTree hDecl hCode hLed hLeads with ⟨hKeeps, hMore⟩
  exact ⟨hKeeps, led_of_subset hMore (by simp) (by simp)⟩

theorem needs_of_wants (choices : Choices) (temp : Temp)
    (hWanted : wants tree ctx units before [] choices temp) :
    needs tree ctx before values choices temp := by
  rcases hWanted with ⟨hBooked, -⟩ | ⟨_, hNone, -⟩
  · exact .inl hBooked
  · cases hNone

theorem keeps_way (hBody : Stmt.Keeps tree start body after)
    (hMore : ∀ choices temp, start choices temp → more choices temp) :
    Stmt.Keeps tree more body atEnd :=
  hBody.mono hMore (fun _ _ => False.elim)

include hTree hDecl

/- Every arm is the code of an item. -/
theorem keeps_arms (hLed : Led tree ctx leads mid [])
    (hItems : ∀ item ∈ items, Item.AreSteady tree leads [] [item])
    (hArms : List.Forall₂ (fun item arm => ItemCode tree ctx item mid arm) items arms) :
    ∀ arm ∈ arms, Stmt.Keeps tree (needs tree ctx mid [number]) arm atEnd := by
  induction hArms with
  | nil => simp
  | cons hArm _ ih =>
    rw [List.forall_mem_cons] at hItems ⊢
    exact ⟨keeps_way (hArm.keeps hTree hDecl hLed hItems.1.1 hItems.1.2.1) needs_of_wants,
      ih hItems.2⟩

theorem ChoiceCode.keeps (hLed : Led tree ctx leads before [])
    (hSteady : plan.IsSteady tree leads) (hCode : ChoiceCode tree ctx plan before body) :
    Stmt.Keeps tree (needs tree ctx before []) body atEnd := by
  induction hCode generalizing leads with
  | nothing => exact keeps_way .nil fun _ _ hTemp => hTemp
  | otherwise hLast => exact keeps_way (hLast.keeps hTree hDecl hLed hSteady) needs_of_wants
  | @guarded _ _ rest _ _ _ _ _ _ hGuard hYes _ ih =>
    rcases hSteady with ⟨hLeads, hYesSteady, hRestSteady⟩
    rcases keeps_guard hTree hDecl hLed hLeads hGuard with ⟨hKeeps, hInner⟩
    have hFirst := hYes.keeps hTree hDecl hInner hYesSteady
    cases rest with
    | nothing =>
      exact hKeeps.append (.branchOnly (readsOnly_of_mem (List.mem_singleton_self _))
        (keeps_way hFirst needs_of_wants) (fun _ _ => False.elim))
    | otherwise | select =>
      exact hKeeps.append (.branch (readsOnly_of_mem (List.mem_singleton_self _))
        (keeps_way hFirst needs_of_wants)
        (keeps_way (ih hInner hRestSteady) (needs_mono (by simp))))
  | numbered hSelector hArms _ ih =>
    rcases hSteady with ⟨hLeads, hItems, hRestSteady⟩
    rcases keeps_guard hTree hDecl hLed hLeads hSelector with ⟨hKeeps, hInner⟩
    exact hKeeps.append (.switch (readsOnly_of_mem (List.mem_singleton_self _))
      (keeps_arms hTree hDecl hInner hItems hArms)
      (keeps_way (ih hInner hRestSteady) (needs_mono (by simp))))

/- Bounds one after the other, each of which leads the next. -/
theorem keeps_inTurn (hLed : Led tree ctx leads before others)
    (hLeads : tree.MayLeadInTurn leads units)
    (hCode : InTurn (Code tree ctx) units before body mid values) :
    Stmt.Keeps tree (needs tree ctx before others) body (needs tree ctx mid (values ++ others)) ∧
      Led tree ctx (units ++ leads) mid (values ++ others) := by
  induction hCode generalizing leads others with
  | nil => exact ⟨.nil, hLed⟩
  | cons hFirst _ ih =>
    rcases hLeads with ⟨hUnit, hRest⟩
    rcases CodeWithin.keeps_lead hTree hDecl hFirst hLed hUnit with ⟨hKeeps, hMore⟩
    rcases ih hMore hRest with ⟨hOthers, hAll⟩
    constructor
    · refine hKeeps.append (hOthers.mono (fun _ _ => id) (needs_mono ?_))
      simp only [List.mem_append, List.mem_cons]
      tauto
    · refine led_of_subset hAll ?_ ?_ <;>
        simp only [List.mem_append, List.mem_cons] <;> tauto

omit hTree hDecl

/- The counter of a loop is no variable that is dereferenced. -/
theorem keeps_setCounter (hAttr : tree.attr id = .ok .loopClause) (hTemp : temp.owner = id)
    (hCount : count.owner = id) : Stmt.Keeps tree concern [.setCounter temp count] concern := by
  have hUntracked : ∀ {other : Temp}, other.owner = id → tree.IsUntracked other := by
    intro other hOther
    rw [← hOther] at hAttr
    exact SyntaxTree.isUntracked_of_attr hAttr (by decide)
  refine .of_isSimple rfl ?_ (by simp [Stmt.operands]) (fun _ _ hNeeded => hNeeded) ?_
  · simp [Stmt.reads, hUntracked hTemp, hUntracked hCount]
  · intro choices read _ event hEvent
    rcases List.mem_singleton.mp hEvent with rfl
    rintro ⟨tag, hChanges, -⟩
    cases hChanges with
    | store hEnters =>
      rw [← hTemp] at hAttr
      exact absurd (hEnters.attr_mem hAttr) (by decide)

theorem LoopCode.keeps (hTree : tree.IsRegular) (hDecl : AreDeclared tree ctx)
    (hLed : Led tree ctx [] before []) (hAttr : tree.attr id = .ok .loopClause)
    (hSteady : plan.IsSteady tree) (hCode : LoopCode tree ctx id plan before body) :
    Stmt.Keeps tree (needs tree ctx before []) body atEnd := by
  cases hCode with
  | @mk counter before mid bounds limit body values start step
      hCounter hBounds hStart hStep hLimit hBody =>
      rcases keeps_inTurn hTree hDecl hLed hSteady.bounds hBounds with ⟨hKeeps, hAll⟩
      rw [List.append_nil] at hKeeps
      have hInner : Led tree ctx plan.bounds mid [] := led_of_subset hAll (by simp) (by simp)
      -- What is booked does not depend on what is decided.
      let always := wants tree ctx (plan.body.items.map (·.site.node)) mid [] fun _ _ _ => True
      have hAlways : (fun _ => always) =
          wants tree ctx (plan.body.items.map (·.site.node)) mid [] := by
        funext choices temp
        simp [always, wants]
      have hRound : Stmt.Keeps tree (fun _ => always) body fun _ => always := by
        rw [hAlways]
        exact (hBody.keeps hTree hDecl hInner hSteady.body).mono
          (wants_mono (upper_of_subset (by simp)) (by simp)) (fun _ _ hTemp => hTemp)
      have hHeader : ∀ stem, tree.IsUntracked ((plan.header id).temp stem) :=
        fun stem => SyntaxTree.isUntracked_of_attr hAttr (by decide)
      have hOwner : ∀ entry ∈ counter.toList, entry.1.owner = id := by
        rintro ⟨temp, slot⟩ hEntry
        rw [Option.mem_toList] at hEntry
        rw [hEntry] at hCounter
        rcases loopCounter_eq_some hCounter with ⟨name, rfl⟩
        rfl
      -- A bound is a value, or stands for an absent one.
      have hCompute : ∀ {target : Temp} {value : Expr}, IsBound values value → Stmt.Keeps tree
            (needs tree ctx mid values) [.compute target value]
            (needs tree ctx mid values) := by
        intro target value hVal
        refine .of_isSimple rfl (by simp [Stmt.reads]) ?_
          (fun _ _ hTemp => hTemp) (by simp [Stmt.effects])
        intro choices op hOp
        rcases List.mem_singleton.mp hOp with rfl
        rcases hVal with hVal | rfl
        · exact readsOnly_of_mem hVal choices
        · intro uses hUses
          rw [Expr.Uses] at hUses
          simp [hUses]
      have hLimits : Stmt.Keeps tree (needs tree ctx mid values) limit
          (needs tree ctx mid values) := by
        rcases hLimit with rfl | ⟨value, hVal, rfl⟩
        · exact .nil
        · exact hCompute (.inl hVal)
      have hFetch : Stmt.Keeps tree (needs tree ctx mid values)
          (counter.toList.map fun entry => .fetch entry.1 "A68_INT" entry.2)
          (needs tree ctx mid values) := by
        cases counter with
        | none => exact .nil
        | some entry => exact keeps_idle rfl (by simp [Stmt.reads]) rfl rfl
      have hSet : ∀ {concern}, Stmt.Keeps tree concern (counter.toList.map fun entry =>
            .setCounter entry.1 ((plan.header id).temp "count")) concern := by
        intro concern
        cases counter with
        | none => exact .nil
        | some entry => exact keeps_setCounter hAttr (hOwner entry (by simp)) rfl
      have hReset : ∀ {concern}, Stmt.Keeps tree concern (.resetStack (stackMark id) ::
            if plan.needsInitialisation then [.initialiseFrame plan.body.site] else [])
          concern := by
        intro concern
        have hMark : tree.IsUntracked (stackMark id) := SyntaxTree.isUntracked_of_mark (.inl rfl)
        refine .cons (keeps_idle rfl (by simpa [Stmt.reads] using hMark) rfl rfl) ?_
        split
        · exact keeps_idle rfl (by simp [Stmt.reads]) rfl rfl
        · exact .nil
      have hLoop := Stmt.Keeps.loop hHeader ((hSet.append hRound).append hReset)
      rw [hAlways] at hLoop
      have hLast : Stmt.Keeps tree (needs tree ctx mid values) _ atEnd :=
        keeps_way hLoop needs_of_wants
      exact (((((hKeeps.append (.cons (hCompute hStart) (hCompute hStep))).append
        hLimits).append (keeps_frame _ _ _).1).append hFetch).append
        (.cons (keeps_idle rfl (by simp [Stmt.reads]) rfl rfl)
          hLast)).append (keeps_frame _ plan.body.site _).2

------ Functions of Clauses

variable {plan : ClausePlan}

/- The clause that a node is compiled as. -/
inductive ClausePlan.IsOf (tree : SyntaxTree) (calls : NodeId → String → Prop)
    (id : NodeId) : ClausePlan → Prop
  | serial {plan : SerialPlan} (hPlan : plan.IsOf tree calls id) (hNode : plan.site.node = id)
      (hUnits : plan.Has tree (Inlined tree)) :
      IsOf tree calls id (.serial plan)
  | closed {plan : SerialPlan} (hAttr : tree.attr id = .ok .closedClause)
      (hPlan : plan.IsOf tree calls id) (hSub : tree.sub? id = .ok (some plan.site.node))
      (hUnits : plan.Has tree (Inlined tree)) :
      IsOf tree calls id (.serial plan)
  | collateral {plan : SerialPlan} (hAttr : tree.attr id = .ok .collateralClause)
      (hPlan : plan.Lists tree calls id) (hNode : plan.site.node = id)
      (hUnits : plan.Has tree (Inlined tree)) :
      IsOf tree calls id (.serial plan)
  | choice (kind : ChoiceKind) {plan : ChoicePlan} (hAttr : tree.attr id = .ok kind.clause)
      (hPlan : plan.IsOf tree calls id id) (hUnits : plan.Has tree (Inlined tree)) :
      IsOf tree calls id (.choice plan)
  | loop {plan : LoopPlan} (hAttr : tree.attr id = .ok .loopClause)
      (hPlan : plan.IsOf tree calls id) (hUnits : plan.Has tree (Inlined tree)) :
      IsOf tree calls id (.loop id plan)

theorem ClausePlan.IsOf.units (hPlan : plan.IsOf tree calls id) : plan.Has tree (Inlined tree) := by
  cases hPlan with
  | serial _ _ hUnits | closed _ _ _ hUnits | collateral _ _ _ hUnits | choice _ _ _ hUnits
  | loop _ _ hUnits => exact hUnits

/- The code of a steady clause reads nothing that is stale. -/
theorem ClausePlan.IsOf.fresh (hTree : tree.IsRegular) (hPlan : plan.IsOf tree calls id)
    (hIssued : Issued (plan.writer tree) func) (hSteady : plan.IsSteady tree)
    (hDecided : choices.AreDecided)
    (hRuns : Stmt.RunsOf Choices.AreDecided choices func.body events) :
    Event.AreFresh tree [] events := by
  have hMarked : plan.Marked tree fun _ _ => True :=
    ClausePlan.marked_of_all (fun _ _ => trivial) plan
  rcases Context.Issued.coded (fun _ => plan.writer_codes hTree False.elim hPlan.units hMarked)
    hIssued with
    ⟨ctx, naming, errors, -, hDeclaring, -, -, hCode⟩
  have hDecl := hDeclaring.booked
  -- Nothing is booked where a function begins.
  have hLed : Led tree ctx [] ctx.bookings [] := by
    rintro choices temp (hBooked | ⟨value, hVal, -⟩)
    · exact absurd hBooked (Booked.not_start hDecl)
    · cases hVal
  have hKeeps : ∃ after, Stmt.Keeps tree (needs tree ctx ctx.bookings []) func.body
      after := by
    cases hPlan with
    | choice => exact ⟨atEnd, hCode.keeps hTree hDecl hLed hSteady⟩
    | serial | closed | collateral =>
      exact ⟨atEnd, keeps_way (hCode.keeps hTree hDecl hLed hSteady) needs_of_wants⟩
    | loop hAttr _ _ => exact ⟨_, hCode.keeps hTree hDecl hLed hAttr hSteady⟩
  rcases hKeeps with ⟨after, hKeeps⟩
  refine (hKeeps choices [] events hDecided ?_ hRuns).1
  rintro temp hNeeded ⟨early, event, late, hEvents, -⟩
  simp at hEvents

end Emission

namespace Run

open Emission

/- A function that was written for a node as a clause. -/
def HasClause (tree : SyntaxTree) (run : Run) (id : NodeId) (plan : ClausePlan)
    (function : Function) : Prop :=
  (id, function.name) ∈ run.context.compiled ∧ plan.IsOf tree run.Calls id ∧
      Issued (plan.writer tree) function

end Run

------ The Path on which Guards say Yes

/- All guards say yes. -/
def Choices.yes : Choices := fun _ _ answer => answer = true

theorem Choices.yes_areDecided : Choices.yes.AreDecided :=
  fun _ _ hBoth => Bool.false_ne_true hBoth.2

namespace Runtime

/- What tells no values apart, and says yes to each. -/
def yes : Runtime where
  Datum := Unit
  Memory := Unit
  look _ _ _ := ()
  build _ _ := ()
  holds _ := true
  perform _ _ _ := ((), ())

/- Its only state. -/
def yesState : yes.State := ⟨fun _ => (), ()⟩

theorem follows_yes (moment : yes.Moment) : moment.Follows Choices.yes := by
  cases moment <;> first | rfl | trivial

end Runtime

open Algol68.Runtime

namespace Stmt

mutual

/- What happens if all guards say yes, and no loop is entered. -/
def yesPath : Stmt → List Event
  | .branch _ guard yes _ | .branchOnly guard yes =>
    eventsOf (guard.moments yesState) ++ yesPathOf yes
  | .switch selector _ otherwise => eventsOf (selector.moments yesState) ++ yesPathOf otherwise
  | .loop header _ => header.starts ++ header.tests
  | .block body => yesPathOf body
  | stmt => eventsOf (run yesState stmt).2

/- The same for statements one after the other. -/
def yesPathOf : List Stmt → List Event
  | [] => []
  | stmt :: rest => yesPath stmt ++ yesPathOf rest

end

mutual

theorem runs_yes (allowed : Choices → Prop) (stmt : Stmt) :
    Runs allowed Choices.yes stmt stmt.yesPath := by
  have hAsked : ∀ guard : Expr, ∃ uses, guard.Uses Choices.yes uses ∧
      eventsOf (guard.moments yesState) = uses.map .use :=
    fun _ => Expr.exists_uses fun moment _ => follows_yes moment
  cases stmt
  case branch node guard yes no =>
    rcases hAsked guard with ⟨uses, hUses, hEvents⟩
    rw [Runs, yesPath, hEvents]
    exact ⟨uses, _, hUses, .inl ⟨rfl, runsOf_yes allowed yes⟩, rfl⟩
  case branchOnly guard yes =>
    rcases hAsked guard with ⟨uses, hUses, hEvents⟩
    rw [Runs, yesPath, hEvents]
    exact ⟨uses, _, hUses, .inr (runsOf_yes allowed yes), rfl⟩
  case switch sel arms otherwise =>
    rcases hAsked sel with ⟨uses, hUses, hEvents⟩
    rw [Runs, yesPath, hEvents]
    exact ⟨uses, _, hUses, .inr (runsOf_yes allowed otherwise), rfl⟩
  case loop header body =>
    rw [Runs, yesPath]
    exact ⟨[], by simp, by simp⟩
  case block body =>
    rw [Runs, yesPath]
    exact runsOf_yes allowed body
  all_goals exact runs_run_of_isSimple rfl fun moment _ => follows_yes moment

theorem runsOf_yes (allowed : Choices → Prop) (body : List Stmt) :
    RunsOf allowed Choices.yes body (yesPathOf body) := by
  cases body with
  | nil => rw [RunsOf, yesPathOf]
  | cons stmt rest =>
    rw [RunsOf, yesPathOf]
    exact ⟨_, _, runs_yes allowed stmt, runsOf_yes allowed rest, rfl⟩

end

end Stmt

------ Fresh Slices

namespace Inline

open Classifier

/- A conditional that is written in place has a basic mode. -/
theorem mode_of_inlined (hTree : tree.IsRegular) (hInlined : Inlined tree id)
    (hNode : tree.node id = .ok node) (hAttr : node.attr = .conditionalClause) :
    ∃ mode, node.mode = some mode ∧ tree.modes.isBasic mode = .ok true := by
  have hBasic : ∃ tier, tree.isBasic id tier = .ok true := by
    cases hInlined with
    | @unit tier hBasic => exact ⟨tier, hBasic⟩
    | @serial serial tier hBasic hSub =>
      unfold SyntaxTree.isBasicSerial at hBasic
      split at hBasic
      · rename_i hTier
        cases single_of_singleUnit hBasic with
        | intro _ _ hKids _ _ hOnly =>
          rw [eq_of_firstChildren hKids hSub] at hOnly
          exact ⟨tier, SyntaxTree.isBasic_eq_true.mpr ⟨Nat.le_trans (by decide) hTier, hOnly⟩⟩
      · cases hBasic
    | @conditional tier hBasic hClause =>
      exact ⟨tier, (SyntaxTree.isBasicConditional_iff hTree hClause).mp hBasic⟩
  rcases hBasic with ⟨tier, hBasic⟩
  rcases SyntaxTree.exists_shape hNode hBasic (by simp [hAttr])
    with ⟨_, mode, -, hMode, hAccepts, -⟩
  exact ⟨mode, hMode, hAccepts⟩

end Inline

namespace Emission

open Inline

theorem Drawn.exists_conditional (hTree : tree.IsRegular) (hDrawn : Drawn tree calls id writer)
    (hNode : tree.node id = .ok node) (hAttr : node.attr = .conditionalClause)
    (hMode : ∀ mode, node.mode = some mode → tree.modes.isBasic mode ≠ .ok true) :
    ∃ plan, ClausePlan.IsOf tree calls id (.choice plan) ∧
      writer = ClausePlan.writer tree (.choice plan) := by
  have hOnly : ∀ {attr : Attribute}, tree.attr id = .ok attr → attr = .conditionalClause := by
    intro attr hFound
    rw [SyntaxTree.attr_eq hNode, Except.ok.injEq, hAttr] at hFound
    exact hFound.symm
  cases hDrawn with
  | serial hPlan hSite _ =>
    have hSerial := hPlan.attr
    rw [hSite] at hSerial
    cases hOnly hSerial
  | closed hClosed | display hClosed | collateral hClosed | loop hClosed
  | routineCall hClosed | injection hClosed => cases hOnly hClosed
  | choice kind hClause hPlan hUnits => exact ⟨_, .choice kind hClause hPlan hUnits, rfl⟩
  | constant hUnit _ =>
    have hFound := hUnit.node
    rw [hNode, Except.ok.injEq] at hFound
    have hOther := hUnit.attr
    rw [← hFound, hAttr] at hOther
    simp at hOther
  | value hUnit =>
    rcases mode_of_inlined hTree hUnit hNode hAttr with ⟨mode, hFound, hBasic⟩
    exact absurd hBasic (hMode mode hFound)

end Emission

namespace SyntaxTree

open Inline Emission

/- The variable that a unit is part of. -/
def partVariable (tree : SyntaxTree) (id : NodeId) : Walk TagId := do
  match ← tree.attr id with
  | .identifier => pure (← tagOf tree id).1
  | .slice => pure (← tagOf tree (← childOf tree id 0)).1
  | .selection => pure (← tagOf tree (← childOf tree id 1)).1
  | _ => tree.violation id .missingChild

/- The variable that a node stores into. -/
def storedVariable (tree : SyntaxTree) (id : NodeId) : Walk TagId := do
  let node ← tree.node id
  match node.attr, node.tag with
  | .assignation, _ => tree.partVariable (← childOf tree id 0)
  | .variableDeclaration, some tag => pure tag
  | _, _ => tree.violation id .missingChild

/- The variables that a slice is found from. -/
def indexVariables (tree : SyntaxTree) (id : NodeId) : Walk (List TagId) := do
  pure (← tree.figure (← childOf tree id 1)).dereferenced

theorem IsPartOf.partVariable_eq (hPart : tree.IsPartOf id tag) :
    tree.partVariable id = .ok tag := by
  cases hPart with
  | name hAttr hTag => simp [partVariable, hAttr, hTag]
  | slice hAttr hPrimary hTag | selection hAttr hPrimary hTag =>
    simp [partVariable, hAttr, hPrimary, hTag]

theorem StoresTo.storedVariable_eq (hStores : tree.StoresTo id tag) :
    tree.storedVariable id = .ok tag := by
  cases hStores with
  | assignation hAttr hDest hPart =>
    rcases Classifier.attr_eq_ok.mp hAttr with ⟨node, hNode, hFound⟩
    simp [storedVariable, hNode, hFound, hDest, hPart.partVariable_eq]
  | declaration hAttr hNode hTag =>
    rw [attr_eq hNode, Except.ok.injEq] at hAttr
    simp [storedVariable, hNode, hAttr, hTag]

/- No store of the tree disturbs a slice of it. -/
def IsCalm (tree : SyntaxTree) : Prop :=
  ∀ store ∈ tree.places .assignation ++ tree.places .variableDeclaration,
    ∀ slice ∈ tree.places .slice, ∀ tag ∈ (tree.storedVariable store).toOption.toList,
      ∀ tags ∈ (tree.indexVariables slice).toOption.toList, tag ∉ tags

instance (tree : SyntaxTree) : Decidable tree.IsCalm := by
  unfold IsCalm
  infer_instance

theorem IsCalm.not_disturbs (hCalm : tree.IsCalm) (store slice : NodeId) :
    ¬ tree.Disturbs store slice := by
  rintro ⟨tag, hStores, hAttr, indexer, figure, hIndexer, hFigure, hTag⟩
  have hStored := hStores.storedVariable_eq
  have hStore : store ∈ tree.places .assignation ++ tree.places .variableDeclaration := by
    cases hStores with
    | assignation hAttr => exact List.mem_append_left _ (mem_places hAttr)
    | declaration hAttr => exact List.mem_append_right _ (mem_places hAttr)
  exact hCalm store hStore slice (mem_places hAttr) tag (by simp [hStored, Except.toOption])
    figure.dereferenced (by simp [indexVariables, hIndexer, hFigure, Except.toOption]) hTag

theorem IsCalm.isSteady (hCalm : tree.IsCalm) (leads : List NodeId) (plan : ChoicePlan) :
    plan.IsSteady tree leads := by
  have hSpared : ∀ unit leads later, tree.SparesFor unit leads later :=
    fun _ _ _ _ _ _ _ store slice _ _ _ _ _ => hCalm.not_disturbs store slice
  have hSettles : ∀ unit, tree.Settles unit := fun _ store slice _ _ hDisturbs =>
      absurd hDisturbs (hCalm.not_disturbs store slice)
  have hItems : ∀ leads items, Item.AreSteady tree leads [] items := by
    intro leads items
    induction items with
    | nil => trivial
    | cons item rest ih =>
      refine ⟨?_, hSpared _ _ _, ih⟩
      unfold Item.Settles
      split
      · exact hSettles _
      · exact fun init _ => ⟨hSettles init, hSpared _ _ _⟩
      · trivial
      · trivial
  induction plan generalizing leads with
  | nothing => trivial
  | otherwise last => exact hItems leads last.items
  | select selector branches rest ih =>
    refine ⟨fun _ _ store slice _ _ => hCalm.not_disturbs store slice, ?_, ih _⟩
    cases branches with
    | guarded yes => exact hItems _ yes.items
    | numbered alternatives => exact fun item _ => hItems _ [item]

/- What is compiled, and the paths on which guards say yes. -/
def compiledPaths (tree : SyntaxTree) (options : Options) (root : NodeId) :
    Walk (List (NodeId × String) × List (String × List Event)) := do
  let result ← (tree.compilationPass options root).run (tree.startRun (.ofOptions options))
  let functions := result.2.context.output.filterMap fun
    | .function function => some (function.name, Stmt.yesPathOf function.body)
    | _ => none
  pure (result.2.context.compiled, functions)

/-
  A conditional of no basic mode that is compiled by itself is
  written as a clause, with the path that was evaluated.
-/
theorem exists_hasClause (hTree : tree.Conforms) {root : NodeId} {node : Node}
    (hRoot : tree.root = some root) (hNode : tree.node root = .ok node)
    (hAttr : node.attr = .conditionalClause)
    (hMode : ∀ mode, node.mode = some mode → tree.modes.isBasic mode ≠ .ok true)
    (hPaths : tree.compiledPaths options root = .ok ([(root, name)], [(name, path)]))
    (hRun : tree.CompilesTo options run) :
    ∃ func plan, .function func ∈ run.context.output ∧
      run.HasClause tree root (.choice plan) func ∧ Stmt.yesPathOf func.body = path := by
  rcases hRun with ⟨again, hAgain, hPass⟩
  have hRun : tree.CompilesTo options run := ⟨again, hAgain, hPass⟩
  cases hRoot.symm.trans hAgain
  rw [compiledPaths, hPass] at hPaths
  simp only [Walk.ok_bind, pure, Except.pure, Except.ok.injEq, Prod.mk.injEq] at hPaths
  rcases hPaths with ⟨hCompiled, hFunctions⟩
  have hMem : (name, path) ∈ run.context.output.filterMap fun
      | .function func => some (func.name, Stmt.yesPathOf func.body)
      | _ => none := by
    rw [hFunctions]
    exact List.mem_singleton_self _
  rcases List.mem_filterMap.mp hMem with ⟨fragment, hFragment, hFound⟩
  split at hFound
  · rename_i func
    simp only [Option.some.injEq, Prod.mk.injEq] at hFound
    rcases (hRun.compiles hTree.forest).2.functions func
      hFragment with ⟨id, hEntry, writer, hDrawn, hIssued⟩
    rw [hCompiled, List.mem_singleton, Prod.mk.injEq] at hEntry
    rcases hEntry with ⟨rfl, hName⟩
    rcases hDrawn.exists_conditional hTree.toIsRegular hNode hAttr hMode with ⟨plan, hPlan, rfl⟩
    refine ⟨func, plan, hFragment, ⟨?_, hPlan, hIssued⟩, hFound.2⟩
    rw [hCompiled, hName]
    exact List.mem_singleton_self _
  · cases hFound

/- In the function for `IF a[i] THEN target := 2; b := a[i] FI` the element is found once. -/
def guardedSlice (target : TagId) : SyntaxTree where
  nodes :=
    let element : Figure := .unit .dereferencing ⟨3⟩ [.unit .slice ⟨10⟩
        [.ident ⟨15⟩ ⟨0⟩, .part .indexer [.valueOf ⟨1⟩ ⟨8⟩ ⟨1⟩]]]
    Figure.nodes [.unit .conditionalClause ⟨0⟩ [.ifPart element, .branch .thenPart ⟨0⟩
          [.voided (.assign ⟨8⟩ target (.number "2")), .voided (.assign ⟨10⟩ ⟨3⟩ element)]]]
  modes :=
    { ModeTable.standardTable with
      modes := ⟨ModeTable.standardTable.modes.entries ++ #[⟨.row 1 ⟨3⟩, none⟩, ⟨.ref ⟨14⟩, none⟩]⟩ }
  tags := ⟨#[{ name := "a", mode := ⟨15⟩, kind := .var },
      { name := "i", mode := ⟨8⟩, kind := .var },
      { name := "k", mode := ⟨8⟩, kind := .var },
      { name := "b", mode := ⟨10⟩, kind := .var }]⟩
  root := some ⟨0⟩

/- The events of the guard, which finds the element. -/
def guardPath : List Event :=
  [.assign ⟨"a_obj", ⟨5⟩⟩, .assign ⟨"i_obj", ⟨8⟩⟩, .use ⟨"a_obj", ⟨5⟩⟩, .use ⟨"i_obj", ⟨8⟩⟩,
    .assign ⟨"a_elem", ⟨4⟩⟩, .use ⟨"a_elem", ⟨4⟩⟩, .assign ⟨"pop_sp", ⟨10⟩⟩]

/- The events of the last unit, which reads the element. -/
def readingPath : List Event :=
  [.use ⟨"pop_sp", ⟨10⟩⟩, .assign ⟨"b_obj", ⟨17⟩⟩, .use ⟨"b_obj", ⟨17⟩⟩, .use ⟨"a_elem", ⟨4⟩⟩,
    .store ⟨"b_obj", ⟨17⟩⟩]

/- The store into the index moves the element. -/
theorem upsets_guardedSlice :
    (Event.store ⟨"i_obj", ⟨8⟩⟩).Upsets (guardedSlice ⟨1⟩) ⟨"a_elem", ⟨4⟩⟩ := by
  have hObj : (fun named : Named => named.pointer.temp named.pointer.node) <$>
        derefOf (guardedSlice ⟨1⟩) ⟨8⟩ =
      .ok ⟨"i_obj", ⟨8⟩⟩ := by
    decide +kernel
  have hElem : (fun elem : Element => elem.pointer.temp elem.pointer.node) <$>
        elementOf (guardedSlice ⟨1⟩) ⟨4⟩ =
      .ok ⟨"a_elem", ⟨4⟩⟩ := by
    decide +kernel
  have hIndexer : Figure.dereferenced <$> (guardedSlice ⟨1⟩).figure ⟨6⟩ = .ok [⟨1⟩] := by
    decide +kernel
  have hTag : tagOf (guardedSlice ⟨1⟩) ⟨8⟩ =
      .ok (⟨1⟩, { name := "i", mode := ⟨8⟩, kind := .var }) :=
    rfl
  rcases Walk.map_eq_ok.mp hObj with ⟨named, hNamed, hTemp⟩
  rcases Walk.map_eq_ok.mp hElem with ⟨elem, hFound, hOther⟩
  rcases Walk.map_eq_ok.mp hIndexer with ⟨figure, hFigure, hTags⟩
  have hNode : named.pointer.node = ⟨8⟩ := (isFor_of_derefOf hNamed).node
  have hSlice : elem.pointer.node = ⟨4⟩ := congrArg Temp.owner hOther
  refine ⟨⟨1⟩, .store ?_, elem.pointer, .element rfl hFound, hOther.symm, ?_⟩
  · rw [← hTemp]
    refine .pointer (.deref rfl hNamed) ?_
    rw [hNode]
    exact .name rfl hTag
  · rw [hSlice]
    refine ⟨rfl, ⟨6⟩, figure, by decide +kernel, hFigure, ?_⟩
    simp [hTags]

end SyntaxTree

end Algol68
