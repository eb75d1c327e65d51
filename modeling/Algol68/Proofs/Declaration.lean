import Algol68.Inline
import Algol68.Proofs.Declarators
import Algol68.Proofs.Folding
import Algol68.Proofs.Units

/-
  The first pass over a unit.

  The pass gives every address of a unit a temporary and every constant a value, unless it reports
  a problem. It changes nothing of what was compiled before.
-/

------ Constants

namespace Algol68

/- A problem with the value of the constant at its node. -/
inductive Diagnostic.IsFolding (diagnostic : Diagnostic) : Prop
  | failed (error : RuntimeError) (hCause : diagnostic.cause = .unfoldable error)
  | notFinite (hCause : diagnostic.cause = .notFinite diagnostic.node)

variable {tree : SyntaxTree} {id : NodeId}

namespace Context

/-
  What folding a constant makes of a context whose machine has run: a problem is reported, or an
  array is defined if a complex number has none.
-/
inductive Folds (id : NodeId) (before : Context) : Option Value → Context → Prop
  | failed {diagnostic : Diagnostic} (hNode : diagnostic.node = id)
      (hFolding : diagnostic.IsFolding) : Folds id before none (before.report diagnostic)
  | found {value : Value} (hTaken : ∀ re im, value = .complex re im →
        before.hasName (Value.pairName re im) = true) :
      Folds id before (some value) before
  | defined {re im : Float} (hNew : before.hasName (Value.pairName re im) = false) :
      Folds id before (some (.complex re im))
        { before with
          uniqueNames := Value.pairName re im :: before.uniqueNames
          globals := before.globals ++ [.pair re im] }

/- A constant is folded to its value if that is finite. -/
theorem fold_meets (hNode : total → (tree.node id).Ends)
    (hEnds : total → ((Machine.evaluate tree id).run.run ctx.machine).Ends) :
    Step.Meets total (fold tree id) ctx fun value next => ∃ res machine,
      (Machine.evaluate tree id).run.run ctx.machine = .ok (res, machine) ∧
        value = res.toOption.filter Value.isFinite ∧
          Folds id { ctx with machine := machine } value next := by
  have hReport : ∀ cause mid, (∀ line, Diagnostic.IsFolding { node := id, line, cause }) →
      Step.Meets total (do reportAt tree id cause; pure (none : Option Value)) mid
        fun value next => value = none ∧ Folds id mid none next := by
    intro cause mid hCause
    have hStep : Step.Meets total (reportAt tree id cause) mid
        fun _ next => Folds id mid none next :=
      .walk_bind hNode fun node _ => .of_modify (.failed rfl (hCause node.line))
    exact hStep.bind fun _ _ hNext => .of_pure ⟨rfl, hNext⟩
  have hMachine : Step.Meets total (runMachine (Machine.evaluate tree id)) ctx
      fun res next => ∃ machine, (Machine.evaluate tree id).run.run ctx.machine =
        .ok (res, machine) ∧ next = { ctx with machine := machine } :=
    .get_bind (.walk_bind hEnds fun (_, machine) hRun => ⟨machine, hRun, rfl⟩)
  apply hMachine.bind
  rintro (error | value) _ ⟨machine, hRun, rfl⟩
  · apply (hReport _ _ fun _ => .failed error rfl).mono
    rintro _ next ⟨rfl, hNext⟩
    exact ⟨_, machine, hRun, rfl, hNext⟩
  · dsimp only
    split
    · rename_i hFinite
      have hFound : some value = (Except.ok value : Except RuntimeError Value).toOption.filter
          Value.isFinite := by
        simp [Except.toOption, Option.filter, hFinite]
      cases value with
      | complex re im =>
        apply Step.Meets.modify_bind
        refine .of_pure ⟨_, machine, hRun, hFound, ?_⟩
        dsimp only
        split
        · rename_i hTaken
          refine .found ?_
          rintro _ _ ⟨⟩
          exact hTaken
        · rename_i hNew
          rw [takeName, if_neg hNew]
          exact .defined (Bool.eq_false_of_not_eq_true hNew)
      | _ => exact ⟨_, machine, hRun, hFound, .found nofun⟩
    · rename_i hFinite
      apply (hReport _ _ fun _ => .notFinite rfl).mono
      rintro _ next ⟨rfl, hNext⟩
      refine ⟨_, machine, hRun, ?_, hNext⟩
      simp [Except.toOption, Option.filter, hFinite]

namespace Folds

variable (hFolds : Folds id before value after)

include hFolds

theorem errorCount_eq : after.errorCount = before.errorCount + if value = none then 1 else 0 := by
  cases hFolds with
  | failed => simp [report]
  | found | defined => rfl

theorem taken (hVal : value = some (.complex re im)) :
    after.hasName (Value.pairName re im) = true := by
  cases hFolds with
  | failed => cases hVal
  | found hTaken => exact hTaken re im (Option.some.inj hVal)
  | defined _ =>
    cases hVal
    simp [hasName]

end Folds

end Context

------ Pointers of a Tree

namespace Inline

theorem fetchOf_eq_ok (hNamed : fetchOf tree id = .ok named) :
    ∃ tag entry storage, tagOf tree id = .ok (tag, entry) ∧
      tree.modes.objectClass entry.mode = .ok storage ∧
      named = ⟨⟨⟨.fetch, bookingName tag entry, none⟩, Text.identifier entry.name, storage, id⟩,
        slotOf tag entry, none⟩ := by
  simp only [fetchOf, Walk.bind_eq_ok, Walk.pure_eq_ok, Except.ok.injEq] at hNamed
  rcases hNamed with ⟨⟨tag, entry⟩, hTag, storage, hStorage, rfl⟩
  exact ⟨tag, entry, storage, hTag, hStorage, rfl⟩

/- What is found behind the reference of an identifier. -/
theorem derefOf_eq_ok (hNamed : derefOf tree id = .ok named) :
    ∃ tag entry object storage, tagOf tree id = .ok (tag, entry) ∧
      tree.modes.deref? entry.mode = .ok (some object) ∧
      tree.modes.objectClass object = .ok storage ∧ named = ⟨⟨⟨.deref, bookingName tag entry, none⟩,
        Text.identifier entry.name ++ "_obj", storage, id⟩, slotOf tag entry, some object⟩ := by
  simp only [derefOf, Walk.bind_eq_ok] at hNamed
  rcases hNamed with ⟨⟨tag, entry⟩, hTag, found, hFound, hNamed⟩
  cases found with
  | none => simp at hNamed
  | some object =>
    simp only [Walk.bind_eq_ok, Walk.pure_eq_ok, Except.ok.injEq] at hNamed
    rcases hNamed with ⟨storage, hStorage, rfl⟩
    exact ⟨tag, entry, object, storage, hTag, hFound, hStorage, rfl⟩

/- What is found at a slice. -/
theorem elementOf_eq_ok (hElem : elementOf tree id = .ok elem) :
    ∃ primary indexer tag entry mode storage pieces indices, childOf tree id 0 = .ok primary ∧
      childOf tree id 1 = .ok indexer ∧ tagOf tree primary = .ok (tag, entry) ∧
      tree.modes.rowElement? entry.mode = .ok (some mode) ∧
      tree.modes.objectClass mode = .ok storage ∧ tree.pieces indexer = .ok pieces ∧
      tree.children indexer = .ok indices ∧ elem = ⟨⟨⟨.slice, bookingName tag entry,
        some ⟨indexer, pieces⟩⟩, Text.identifier entry.name ++ "_elem", storage, id⟩,
        primary, indices⟩ := by
  simp only [elementOf, Walk.bind_eq_ok] at hElem
  rcases hElem with ⟨primary, hPrimary, indexer, hIndexer, ⟨tag, entry⟩, hTag, found, hFound, hElem⟩
  cases found with
  | none => simp at hElem
  | some mode =>
    simp only [Walk.bind_eq_ok, Payload.ofNode, Walk.pure_eq_ok, Except.ok.injEq] at hElem
    rcases hElem with ⟨storage, hStorage, _, ⟨pieces, hPieces, rfl⟩, indices, hIndices, rfl⟩
    exact ⟨primary, indexer, tag, entry, mode, storage, pieces,
      indices, hPrimary, hIndexer, hTag, hFound, hStorage, hPieces, hIndices, rfl⟩

theorem componentOf_eq_ok (hComp : componentOf tree id = .ok component) :
    ∃ sel secondary tag entry node target index mode storage pieces,
      childOf tree id 0 = .ok sel ∧ childOf tree id 1 = .ok secondary ∧
      tagOf tree secondary = .ok (tag, entry) ∧ tree.node sel = .ok node ∧
      tree.modes.deref? entry.mode = .ok target ∧
      tree.modes.field? (target.getD entry.mode) node.symbol = .ok (some (index, mode)) ∧
      tree.modes.objectClass mode = .ok storage ∧ tree.pieces sel = .ok pieces ∧
      component = ⟨⟨⟨.selection, bookingName tag entry, some ⟨sel, pieces⟩⟩,
        Text.identifier entry.name ++ "_" ++ Text.identifier node.symbol, storage, id⟩,
        secondary, target.getD entry.mode, index⟩ := by
  simp only [componentOf, Walk.bind_eq_ok] at hComp
  rcases hComp with ⟨sel, hSel, secondary, hSecondary, ⟨tag, entry⟩,
      hTag, node, hNode, target, hTarget, found, hFound, hComp⟩
  cases found with
  | none => simp at hComp
  | some field =>
    simp only [Walk.bind_eq_ok, Payload.ofNode, Walk.pure_eq_ok, Except.ok.injEq] at hComp
    rcases hComp with ⟨storage, hStorage, _, ⟨pieces, hPieces, rfl⟩, rfl⟩
    exact ⟨sel, secondary, tag, entry, node, target,
      field.1, field.2, storage, pieces, hSel, hSecondary,
      hTag, hNode, hTarget, hFound, hStorage, hPieces, rfl⟩

/- The stem of the temporary for an action on a name. -/
def stemOf (name symbol : String) : Action → String
  | .fetch => Text.identifier name
  | .deref => Text.identifier name ++ "_obj"
  | .slice => Text.identifier name ++ "_elem"
  | .selection => Text.identifier name ++ "_" ++ Text.identifier symbol

/- A pointer that is made for an action at a node. -/
structure Pointer.IsFor (pointer : Pointer) (tree : SyntaxTree) (action : Action)
    (id : NodeId) : Prop where
  node : pointer.node = id
  action : pointer.address.action = action
  stem : ∃ name symbol, pointer.stem = stemOf name symbol pointer.address.action
  storage : ∃ mode, tree.modes.objectClass mode = .ok pointer.storage

theorem isFor_of_fetchOf (hNamed : fetchOf tree id = .ok named) :
    named.pointer.IsFor tree .fetch id := by
  rcases fetchOf_eq_ok hNamed with ⟨_, entry, _, -, hStorage, rfl⟩
  exact ⟨rfl, rfl, ⟨entry.name, "", rfl⟩, _, hStorage⟩

theorem isFor_of_derefOf (hNamed : derefOf tree id = .ok named) :
    named.pointer.IsFor tree .deref id := by
  rcases derefOf_eq_ok hNamed with ⟨_, entry, _, _, -, -, hStorage, rfl⟩
  exact ⟨rfl, rfl, ⟨entry.name, "", rfl⟩, _, hStorage⟩

theorem isFor_of_elementOf (hElem : elementOf tree id = .ok elem) :
    elem.pointer.IsFor tree .slice id := by
  rcases elementOf_eq_ok hElem with ⟨_, _, _, entry, _, _, _, _, -, -, -, -, hStorage, -, -, rfl⟩
  exact ⟨rfl, rfl, ⟨entry.name, "", rfl⟩, _, hStorage⟩

theorem isFor_of_componentOf (hComp : componentOf tree id = .ok component) :
    component.pointer.IsFor tree .selection id := by
  rcases componentOf_eq_ok hComp with
    ⟨_, _, _, entry, node, _, _, _, _, _, -, -, -, -, -, -, hStorage, -, rfl⟩
  exact ⟨rfl, rfl, ⟨entry.name, node.symbol, rfl⟩, _, hStorage⟩

/- A pointer that was read off a tree. -/
inductive Pointer.IsOf (tree : SyntaxTree) : Pointer → Prop
  | fetch {id : NodeId} {named : Named} (hAttr : tree.attr id = .ok .identifier)
      (hNamed : fetchOf tree id = .ok named) :
      Pointer.IsOf tree named.pointer
  | deref {id : NodeId} {named : Named} (hAttr : tree.attr id = .ok .identifier)
      (hNamed : derefOf tree id = .ok named) :
      Pointer.IsOf tree named.pointer
  | element {id : NodeId} {element : Element} (hAttr : tree.attr id = .ok .slice)
      (hElement : elementOf tree id = .ok element) :
      Pointer.IsOf tree element.pointer
  | component {id : NodeId} {component : Component} (hAttr : tree.attr id = .ok .selection)
      (hComponent : componentOf tree id = .ok component) :
      Pointer.IsOf tree component.pointer

namespace Pointer.IsOf

variable {pointer : Pointer}

theorem valid (hPtr : pointer.IsOf tree) : pointer.address.IsValid tree := by
  cases hPtr with
  | fetch _ hNamed =>
    rcases fetchOf_eq_ok hNamed with ⟨_, _, _, -, -, rfl⟩
    simp [Address.IsValid]
  | deref _ hNamed =>
    rcases derefOf_eq_ok hNamed with ⟨_, _, _, _, -, -, -, rfl⟩
    simp [Address.IsValid]
  | element _ hElem =>
    rcases elementOf_eq_ok hElem with ⟨_, _, _, _, _, _, _, _, -, -, -, -, -, hPieces, -, rfl⟩
    simp [Address.IsValid, Payload.IsTrue, Payload.ofNode, hPieces]
  | component _ hComp =>
    rcases componentOf_eq_ok hComp with
      ⟨_, _, _, _, _, _, _, _, _, _, -, -, -, -, -, -, -, hPieces, rfl⟩
    simp [Address.IsValid, Payload.IsTrue, Payload.ofNode, hPieces]

/- The attribute of the node that an address is found at. -/
def attrOf : Action → Attribute
  | .fetch | .deref => .identifier
  | .slice => .slice
  | .selection => .selection

/- A pointer is made for its action at a node where it is found. -/
theorem isFor (hPtr : pointer.IsOf tree) : pointer.IsFor tree pointer.address.action pointer.node ∧
      tree.attr pointer.node = .ok (attrOf pointer.address.action) := by
  have hMade : ∀ {action id}, tree.attr id = .ok (attrOf action) → pointer.IsFor tree action id →
      pointer.IsFor tree pointer.address.action pointer.node ∧
        tree.attr pointer.node = .ok (attrOf pointer.address.action) := by
    rintro action id hAttr hFor
    rw [hFor.node, hFor.action]
    exact ⟨hFor, hAttr⟩
  cases hPtr with
  | fetch hAttr hNamed => exact hMade hAttr (isFor_of_fetchOf hNamed)
  | deref hAttr hNamed => exact hMade hAttr (isFor_of_derefOf hNamed)
  | element hAttr hElem => exact hMade hAttr (isFor_of_elementOf hElem)
  | component hAttr hComp => exact hMade hAttr (isFor_of_componentOf hComp)

theorem slice (hPtr : pointer.IsOf tree) :
    tree.attr pointer.node = .ok .slice ↔ pointer.address.action = .slice := by
  rw [hPtr.isFor.2]
  cases pointer.address.action <;> simp [attrOf]

end Pointer.IsOf

/-
  What was found through an identifier: no element, and an
  object of a mode of the table if there is one.
-/
structure Named.IsOf (named : Named) (tree : SyntaxTree) : Prop where
  pointer : named.pointer.IsOf tree
  action : named.pointer.address.action ≠ .slice
  object : ∀ mode ∈ named.object, mode.number < tree.modes.size

theorem isOf_of_fetchOf (hAttr : tree.attr id = .ok .identifier)
    (hNamed : fetchOf tree id = .ok named) : named.IsOf tree := by
  have hPtr := Pointer.IsOf.fetch hAttr hNamed
  rcases fetchOf_eq_ok hNamed with ⟨_, _, _, -, -, rfl⟩
  exact ⟨hPtr, by simp, by simp⟩

theorem isOf_of_derefOf (hTree : tree.IsRegular) (hAttr : tree.attr id = .ok .identifier)
    (hNamed : derefOf tree id = .ok named) : named.IsOf tree := by
  have hPtr := Pointer.IsOf.deref hAttr hNamed
  rcases derefOf_eq_ok hNamed with ⟨_, _, object, _, -, hObj, -, rfl⟩
  have hRange : object.number < tree.modes.size := hTree.inRange.modes.deref_lt hObj
  exact ⟨hPtr, by simp, by simpa using hRange⟩

theorem isOf_of_baseOf (hTree : tree.IsRegular) (hAttr : tree.attr id = .ok .identifier)
    (hNamed : baseOf tree id = .ok named) : named.IsOf tree := by
  simp only [baseOf, Walk.bind_eq_ok] at hNamed
  rcases hNamed with ⟨mode, -, _ | _, -, hNamed⟩
  · exact isOf_of_fetchOf hAttr hNamed
  · exact isOf_of_derefOf hTree hAttr hNamed

theorem structureMode_lt (hComp : componentOf tree id = .ok component) :
    component.structureMode.number < tree.modes.size := by
  rcases componentOf_eq_ok hComp with
    ⟨_, _, _, _, _, _, _, _, _, _, -, -, -, -, -, hField, -, -, rfl⟩
  rcases ModeTable.field?_eq_some hField with ⟨fields, hKind, -⟩
  rcases ModeTable.kind_eq_ok.mp hKind with ⟨mode, hMode, -⟩
  exact Store.lt_size_of_fetch hMode

end Inline

------ What the Pass Makes Ready

/- What a context keeps and adds while a function is declared. -/
structure Context.Grows (before after : Context) : Prop where
  options : after.options = before.options
  errors : before.errorCount ≤ after.errorCount
  folded : ∀ id value, before.folded.lookup id = some value → after.folded.lookup id = some value
  bookings : ∃ more, after.bookings = before.bookings ++ more
  names : ∀ storage name, before.declarations.Has storage name → after.declarations.Has storage name

namespace Context.Grows

theorem refl (ctx : Context) : ctx.Grows ctx :=
  ⟨rfl, le_rfl, fun _ _ hFound => hFound, ⟨[], by simp⟩, fun _ _ hName => hName⟩

theorem trans {before : Context} (hFirst : before.Grows mid) (hSecond : mid.Grows after) :
    before.Grows after := by
  rcases hFirst.bookings with ⟨more, hMore⟩
  rcases hSecond.bookings with ⟨others, hOthers⟩
  refine ⟨hSecond.options.trans hFirst.options,
    hFirst.errors.trans hSecond.errors, ?_, ⟨more ++ others, ?_⟩, ?_⟩
  · intro id value hFound
    exact hSecond.folded id value (hFirst.folded id value hFound)
  · rw [hOthers, hMore, List.append_assoc]
  · intro storage name hName
    exact hSecond.names storage name (hFirst.names storage name hName)

end Context.Grows

namespace Inline

/- Everything that is ready in one is ready in the other. -/
structure Ready.Le (less more : Ready) : Prop where
  constant : ∀ id, less.constant id → more.constant id
  address : ∀ address, less.address address → more.address address
  size : ∀ mode, less.size mode → more.size mode
  checked : less.checked = more.checked
  name : ∀ storage name, less.name storage name → more.name storage name

theorem Ready.Le.refl (ready : Ready) : ready.Le ready :=
  ⟨fun _ hReady => hReady, fun _ hReady => hReady,
    fun _ hReady => hReady, rfl, fun _ _ hReady => hReady⟩

theorem Ready.Le.trans {first : Ready} (hFirst : first.Le second) (hSecond : second.Le third) :
    first.Le third :=
  ⟨fun id hReady => hSecond.constant id (hFirst.constant id hReady), fun address hReady =>
      hSecond.address address (hFirst.address address hReady),
    fun mode hReady => hSecond.size mode (hFirst.size mode hReady),
    hFirst.checked.trans hSecond.checked,
    fun storage name hReady => hSecond.name storage name (hFirst.name storage name hReady)⟩

/- What a context has made ready. -/
def readyOf (tree : SyntaxTree) (ctx : Context) : Ready where
  constant := fun id => ∃ value, ctx.folded.lookup id = some (some value)
  address := fun address =>
    ∃ booking, ctx.signedIn? tree address .declare = .ok (some booking)
  size := fun mode => (tree.modes.byteSize mode).Ends
  checked := ctx.options.checked
  name := ctx.declarations.Has

theorem readyOf_le (hGrows : before.Grows after) :
    (readyOf tree before).Le (readyOf tree after) := by
  constructor
  · rintro id ⟨value, hFound⟩
    exact ⟨value, hGrows.folded id (some value) hFound⟩
  · rintro address ⟨booking, hFound⟩
    rcases hGrows.bookings with ⟨more, hMore⟩
    refine ⟨booking, ?_⟩
    rw [Context.signedIn?, hMore, hGrows.options]
    exact Bookings.signedIn?_append hFound more
  · exact fun _ hReady => hReady
  · exact congrArg Options.checked hGrows.options.symm
  · exact hGrows.names

/- The declarator of a pointer that its own node declares. -/
def Pointer.declarator (pointer : Pointer) : String := "*" ++ (pointer.temp pointer.node).text

/- A booking that the first pass makes for a pointer it declares. -/
def IsDeclared (tree : SyntaxTree) (declarations : Declarations) (booking : Booking) : Prop :=
  booking.phase = .declare ∧ ∃ pointer : Pointer,
    pointer.IsOf tree ∧ booking.address = pointer.address ∧ booking.owner = pointer.node ∧
        declarations.Has pointer.storage pointer.declarator

/-
  What may be declared for a function: the names of its units,
  whether or not it is checked, and its marks.
-/
structure Naming where
  checked : Bool
  mark : String → String → Prop

/- A name that may be declared. -/
inductive Naming.Allows (naming : Naming) (tree : SyntaxTree) : String → String → Prop
  | pointer {pointer : Pointer} (hPointer : pointer.IsOf tree) :
      naming.Allows tree pointer.storage pointer.declarator
  | result {id : NodeId} {result : Result} (hResult : HasResult tree naming.checked id result) :
      naming.Allows tree result.storage result.declarator
  | mark {storage declarator : String} (hMark : naming.mark storage declarator) :
      naming.Allows tree storage declarator

/-
  A context during the first pass of a function, which began with a number of problems. A constant
  without a value is a problem that came up since.
-/
structure Declaring (tree : SyntaxTree) (naming : Naming) (errors : Nat)
    (ctx : Context) : Prop where
  checked : ctx.options.checked = naming.checked
  counted : errors ≤ ctx.errorCount
  settled : ctx.errorCount = errors → ∀ id, ctx.folded.lookup id ≠ some none
  booked : ∀ booking ∈ ctx.bookings, IsDeclared tree ctx.declarations booking
  named : ∀ storage declarator, ctx.declarations.Has storage declarator →
      naming.Allows tree storage declarator
  ordered : ctx.declarations.IsOrdered

theorem Declaring.areValid (hDeclaring : Declaring tree naming errors ctx) :
    ctx.bookings.AreValid tree := by
  intro booking hBooking
  rcases hDeclaring.booked booking hBooking with ⟨-, pointer, hPtr, hAddr, -⟩
  rw [hAddr]
  exact hPtr.valid

/-
  A step of the first pass ends, and what it is to make ready
  is ready from then on unless there is a new problem.
-/
def Declares (tree : SyntaxTree) (naming : Naming) (total : Prop) (step : Context.Task Unit)
    (post : Ready → Prop) : Prop :=
  ∀ errors ctx, Declaring tree naming errors ctx →
    Step.Meets total step ctx fun _ next =>
      Declaring tree naming errors next ∧ ctx.Grows next ∧ (next.errorCount = errors →
          ∀ ready, (readyOf tree next).Le ready → post ready)

namespace Declares

theorem of_pure (hPost : ∀ ready, post ready) : Declares tree naming total (pure ()) post := by
  intro errors ctx hDeclaring
  exact ⟨hDeclaring, .refl ctx, fun _ ready _ => hPost ready⟩

theorem mono (hStep : Declares tree naming total step strong)
    (hPost : ∀ ready, strong ready → post ready) : Declares tree naming total step post := by
  intro errors ctx hDeclaring
  refine (hStep errors ctx hDeclaring).mono ?_
  rintro _ next ⟨hNext, hGrows, hReady⟩
  exact ⟨hNext, hGrows, fun hErrs ready hLe => hPost ready (hReady hErrs ready hLe)⟩

theorem with_size (hStep : Declares tree naming total step post)
    (hSize : (tree.modes.byteSize mode).Ends) :
    Declares tree naming total step fun ready => post ready ∧ ready.size mode := by
  intro errors ctx hDeclaring
  refine (hStep errors ctx hDeclaring).mono ?_
  rintro _ next ⟨hNext, hGrows, hReady⟩
  exact ⟨hNext, hGrows, fun hErrs ready hLe => ⟨hReady hErrs ready hLe, hLe.size mode hSize⟩⟩

/- One step after the other. -/
theorem bind (hFirst : Declares tree naming total first before)
    (hRest : Declares tree naming total (rest ()) after) :
    Declares tree naming total (first >>= rest) fun ready => before ready ∧ after ready := by
  intro errors ctx hDeclaring
  refine .bind (hFirst errors ctx hDeclaring) ?_
  rintro _ mid ⟨hMid, hGrows, hBefore⟩
  refine (hRest errors mid hMid).mono ?_
  rintro _ next ⟨hNext, hMore, hAfter⟩
  refine ⟨hNext, hGrows.trans hMore, ?_⟩
  intro hErrs ready hLe
  have hCount : mid.errorCount = errors := le_antisymm (hErrs ▸ hMore.errors) hMid.counted
  exact ⟨hBefore hCount ready ((readyOf_le hMore).trans hLe), hAfter hErrs ready hLe⟩

theorem bind_left (hFirst : Declares tree naming total first post)
    (hRest : Declares tree naming total (rest ()) fun _ => True) :
    Declares tree naming total (first >>= rest) post :=
  (hFirst.bind hRest).mono fun _ hReady => hReady.1

theorem lift_bind {walk : Walk α} (hWalk : walk = .ok value)
    (hRest : Declares tree naming total (rest value) post) :
    Declares tree naming total (liftM walk >>= rest) post := by
  subst hWalk
  exact hRest

theorem walk_bind {walk : Walk α} (hWalk : total → walk.Ends)
    (hRest : ∀ value, walk = .ok value → Declares tree naming total (rest value) post) :
    Declares tree naming total (liftM walk >>= rest) post :=
  fun errors ctx hDeclaring => .walk_bind hWalk
    fun value hVal => hRest value hVal errors ctx hDeclaring

/- The options that are read are those of the function. -/
theorem get_bind (hRest : ∀ ctx : Context, ctx.options.checked = naming.checked →
        Declares tree naming total (rest ctx) fun ready =>
          ready.checked = naming.checked → post ready) :
    Declares tree naming total (get >>= rest) post := by
  intro errors ctx hDeclaring
  refine .get_bind ((hRest ctx hDeclaring.checked errors ctx hDeclaring).mono ?_)
  rintro _ next ⟨hNext, hGrows, hReady⟩
  refine ⟨hNext, hGrows, ?_⟩
  intro hErrs ready hLe
  refine hReady hErrs ready hLe ?_
  rw [← hLe.checked]
  exact hNext.checked

theorem forM {members : List α} {step : α → Context.Task Unit} {each : α → Ready → Prop}
    (hStep : ∀ member ∈ members, Declares tree naming total (step member) (each member)) :
    Declares tree naming total (members.forM step) fun ready =>
      ∀ member ∈ members, each member ready := by
  induction members with
  | nil => exact .of_pure (by simp)
  | cons first others ih =>
    have hOthers : ∀ member ∈ others, Declares tree naming total (step member) (each member) :=
      fun member hMem => hStep member (List.mem_cons_of_mem _ hMem)
    refine (Declares.bind (hStep first List.mem_cons_self) (ih hOthers)).mono ?_
    intro ready hReady
    exact List.forall_mem_cons.mpr hReady

end Declares

------ Temporaries and Constants

theorem IsDeclared.add (hDecl : IsDeclared tree decls booking) (storage declarator : String) :
    IsDeclared tree (decls.add storage declarator) booking := by
  rcases hDecl with ⟨hPhase, pointer, hPtr, hAddr, hOwner, hHas⟩
  exact ⟨hPhase, pointer, hPtr, hAddr, hOwner, Declarations.has_add.mpr (.inr hHas)⟩

theorem Declaring.named_add (hDeclaring : Declaring tree naming errors ctx)
    (hAllowed : naming.Allows tree storage declarator) (found name : String)
    (hHas : (ctx.declarations.add storage declarator).Has found name) :
    naming.Allows tree found name := by
  rcases Declarations.has_add.mp hHas with ⟨rfl, rfl⟩ | hOld
  · exact hAllowed
  · exact hDeclaring.named found name hOld

theorem declareName_declares (hAllowed : naming.Allows tree storage declarator) :
    Declares tree naming total (declareName storage declarator)
      fun ready => ready.name storage declarator := by
  intro errors ctx hDeclaring
  refine .of_modify ⟨⟨hDeclaring.checked, hDeclaring.counted,
    hDeclaring.settled, ?_, hDeclaring.named_add hAllowed,
    hDeclaring.ordered.add storage declarator⟩, ⟨rfl, le_rfl, fun _ _ hFound => hFound,
      ⟨[], by simp [Context.declare]⟩, ?_⟩, ?_⟩
  · intro booking hBooking
    exact (hDeclaring.booked booking hBooking).add _ _
  · intro found name hHas
    exact Declarations.has_add.mpr (.inr hHas)
  · intro _ ready hLe
    exact hLe.name storage declarator (Declarations.has_add.mpr (.inl ⟨rfl, rfl⟩))

theorem declarePointer_declares (hTree : tree.IsRegular) (hPtr : pointer.IsOf tree) :
    Declares tree naming total (declarePointer tree pointer) fun ready =>
      ready.address pointer.address := by
  intro errors ctx hDeclaring
  rcases (Bookings.signedIn?_meets hTree.isLinked hPtr.valid
    hDeclaring.areValid).answer with ⟨found, hFound, -⟩
  refine .get_bind (.lift_bind hFound ?_)
  cases found with
  | some booking =>
    refine ⟨hDeclaring, .refl ctx, ?_⟩
    intro _ ready hLe
    exact hLe.address pointer.address ⟨booking, hFound⟩
  | none =>
    let booking : Booking := ⟨pointer.address, .declare, pointer.node⟩
    have hBooked : ∀ other ∈ ctx.bookings ++ [booking],
        IsDeclared tree (ctx.declarations.add pointer.storage pointer.declarator) other := by
      intro other hOther
      rcases List.mem_append.mp hOther with hOld | hNew
      · exact (hDeclaring.booked other hOld).add _ _
      · rw [List.mem_singleton.mp hNew]
        exact ⟨rfl, pointer, hPtr, rfl, rfl, Declarations.has_add.mpr (.inl ⟨rfl, rfl⟩)⟩
    have hNext : Declaring tree naming errors
        { ctx.declare pointer.storage ("*" ++ (pointer.temp pointer.node).text) with
          bookings := ctx.bookings ++ [booking] } :=
      ⟨hDeclaring.checked, hDeclaring.counted, hDeclaring.settled, hBooked,
        hDeclaring.named_add (.pointer hPtr), hDeclaring.ordered.add _ _⟩
    refine .modify_bind (.of_modify ⟨hNext, ?_, ?_⟩)
    · exact ⟨rfl, le_rfl, fun _ _ hFound => hFound, ⟨[booking], rfl⟩, fun _ _ hHas =>
          Declarations.has_add.mpr (.inr hHas)⟩
    · intro _ ready hLe
      refine hLe.address pointer.address ?_
      rcases (Bookings.signedIn?_meets hTree.isLinked hPtr.valid
        hNext.areValid).answer with ⟨again, hAgain, hHas⟩
      cases again with
      | some other => exact ⟨other, hAgain⟩
      | none =>
        refine absurd ⟨booking, ?_, rfl, rfl⟩ hHas
        exact List.mem_append_right _ List.mem_cons_self

/- The evaluation of what is written as a constant ends. -/
theorem evaluate_ends (hTree : tree.IsRegular) (hNode : tree.node id = .ok node)
    (hFolded : isFolded tree id node = .ok true) (machine : Machine) :
    ∃ result, (Machine.evaluate tree id).run.run machine = .ok result := by
  refine Machine.evaluate_halts ?_ machine
  have hEvaluates : Machine.Evaluates tree False False [id] (Machine.execute tree id) := by
    unfold isFolded at hFolded
    split at hFolded
    · rename_i hAttr
      refine Machine.evaluates_denoter hNode hAttr ?_
      cases hMode : node.mode with
      | none => exact .of_pure
      | some mode =>
        rcases ModeTable.kind_ends (hTree.inRange.mode_lt hNode hMode) with ⟨kind, hKind⟩
        exact ⟨some kind, by simp [hKind]⟩
    · cases hFolded
    · cases hFolded
    · cases hFolded
    · exact Machine.executeWithin_evaluates hTree.shaped.isReadable False.elim False.elim rfl
        hFolded le_rfl
  exact hEvaluates.halts

theorem declareConstant_declares (hTree : tree.IsRegular) (hNode : tree.node id = .ok node)
    (hFolded : isFolded tree id node = .ok true) :
    Declares tree naming total (declareConstant tree id) fun ready => ready.constant id := by
  intro errors ctx hDeclaring
  refine .get_bind ?_
  cases hLookup : ctx.folded.lookup id with
  | some value =>
    refine ⟨hDeclaring, .refl ctx, ?_⟩
    intro hErrs ready hLe
    cases value with
    | none => exact absurd hLookup (hDeclaring.settled hErrs id)
    | some value => exact hLe.constant id ⟨value, hLookup⟩
  | none =>
    rcases evaluate_ends hTree hNode hFolded ctx.machine with ⟨⟨result, machine⟩, hRun⟩
    refine .bind (Context.fold_meets (fun _ => ⟨node, hNode⟩) fun _ => ⟨_, hRun⟩) ?_
    rintro value next ⟨_, _, -, -, hFolds⟩
    have hOptions : next.options = ctx.options := by cases hFolds <;> rfl
    have hTable : next.folded = ctx.folded := by cases hFolds <;> rfl
    have hBookings : next.bookings = ctx.bookings := by cases hFolds <;> rfl
    have hNames : next.declarations = ctx.declarations := by cases hFolds <;> rfl
    have hCount : next.errorCount = ctx.errorCount + if value = none then 1 else 0 :=
      hFolds.errorCount_eq
    have hErrs : ctx.errorCount ≤ next.errorCount := (Nat.le_add_right _ _).trans_eq hCount.symm
    have hVal : next.errorCount = errors → value ≠ none := by
      intro hSame hNone
      rw [if_pos hNone] at hCount
      have hCounted := hDeclaring.counted
      omega
    have hKept : ∀ other found, ctx.folded.lookup other = some found →
          List.lookup other ((id, value) :: next.folded) = some found := by
      intro other found hFound
      have hOther : (other == id) = false := by
        rw [beq_eq_false_iff_ne]
        rintro rfl
        simp [hLookup] at hFound
      simp [List.lookup_cons, hOther, hTable, hFound]
    refine .of_modify ⟨⟨?_, ?_, ?_, ?_, ?_, ?_⟩, ⟨hOptions, hErrs, hKept, ⟨[], ?_⟩, ?_⟩, ?_⟩
    · dsimp only
      rw [hOptions]
      exact hDeclaring.checked
    · exact hDeclaring.counted.trans hErrs
    · intro hCount other hOther
      have hBefore : ctx.errorCount = errors :=
        le_antisymm (hErrs.trans_eq hCount) hDeclaring.counted
      simp only [List.lookup_cons, hTable] at hOther
      split at hOther
      · exact hVal hCount (Option.some.inj hOther)
      · exact hDeclaring.settled hBefore other hOther
    · dsimp only
      rw [hBookings, hNames]
      exact hDeclaring.booked
    · dsimp only
      rw [hNames]
      exact hDeclaring.named
    · dsimp only
      rw [hNames]
      exact hDeclaring.ordered
    · simp [hBookings]
    · intro storage name hHas
      rw [hNames]
      exact hHas
    · intro hCount ready hLe
      rcases Option.ne_none_iff_exists'.mp (hVal hCount) with ⟨found, hFound⟩
      refine hLe.constant id ⟨found, ?_⟩
      simp [hFound]

------ Forms

variable {written : Ready → NodeId → Prop}

/- The object that a unit designates has a temporary. -/
theorem declareAddress_declares (hTree : tree.IsRegular)
    (hUnit : ∀ kid, part kid → Declares tree naming total (unit kid) fun ready => written ready kid)
    (hAddressed : Addressed tree .all part id) :
    Declares tree naming total (declareAddress tree unit id) fun ready =>
      Addressed tree ready (written ready) id := by
  cases hAddressed with
  | name hAttr hNamed _ =>
    refine .lift_bind hAttr (.lift_bind hNamed ?_)
    refine (declarePointer_declares hTree (isOf_of_derefOf hTree hAttr hNamed).pointer).mono ?_
    intro ready hReady
    exact .name hAttr hNamed hReady
  | element hAttr hElem hPrimary hBase _ hIndices _ =>
    refine .lift_bind hAttr (.lift_bind hElem (.lift_bind hBase ?_))
    refine (Declares.bind (declarePointer_declares hTree
        (isOf_of_baseOf hTree hPrimary hBase).pointer)
      (.bind (.forM fun index hIdx => hUnit index (hIndices index hIdx))
        (declarePointer_declares hTree (Pointer.IsOf.element hAttr hElem)))).mono ?_
    rintro ready ⟨hBaseReady, hWritten, hReady⟩
    exact .element hAttr hElem hPrimary hBase hBaseReady hWritten hReady
  | component hAttr hComp hSecondary hBase _ _ =>
    refine .lift_bind hAttr (.lift_bind hComp (.lift_bind hBase ?_))
    refine (Declares.bind (declarePointer_declares hTree
        (isOf_of_baseOf hTree hSecondary hBase).pointer)
      (declarePointer_declares hTree (Pointer.IsOf.component hAttr hComp))).mono ?_
    rintro ready ⟨hBaseReady, hReady⟩
    exact .component hAttr hComp hSecondary hBase hBaseReady hReady

/- The operation at a node, whether or not its result is kept. -/
theorem operationOf_ends (hTree : tree.IsRegular) (hMode : modeOf tree id = .ok mode)
    (hOps : operandsOf tree id = .ok (builtin, ops)) (checked : Bool) :
    ∃ res, operationOf tree checked id = .ok ⟨builtin, ops, res⟩ ∧
        ∀ found ∈ res, found.temp.owner = id := by
  rcases ModeTable.storageClass?_ends (modeOf_lt hTree hMode) with ⟨storage, hStorage⟩
  simp only [operationOf, hOps, Walk.ok_bind, plainResult, hMode, hStorage]
  split
  · exact ⟨_, rfl, by simp [pairResult]⟩
  · split
    · exact ⟨_, rfl, by simp⟩
    · exact ⟨_, rfl, by simp⟩

theorem declareOperation_declares (hTree : tree.IsRegular) (hAttr : tree.attr id = .ok attr)
    (hShape : attr = .formula ∨ attr = .monadicFormula ∨ attr = .call)
    (hMode : modeOf tree id = .ok mode) (hOps : operandsOf tree id = .ok (builtin, operands))
    (hUnit : ∀ operand ∈ operands, Declares tree naming total (unit operand) fun ready =>
        written ready operand) :
    Declares tree naming total (declareOperation tree unit id) fun ready => ready.Keeps tree id ∧
        ∀ operand ∈ operands, written ready operand := by
  refine .get_bind fun ctx hSame => ?_
  rcases operationOf_ends hTree hMode hOps naming.checked with ⟨result, hOperation, -⟩
  -- Whatever the node keeps is what the operation asks for.
  have hOnly : ∀ {ready : Ready}, ready.checked = naming.checked → ∀ {found},
        HasResult tree ready.checked id found → result = some found := by
    intro ready hChecked found hFound
    rw [hChecked] at hFound
    exact hFound.of_operation hAttr hShape hOperation
  rw [hSame]
  refine .lift_bind hOperation ((Declares.bind (.forM hUnit)
    (?_ : Declares tree naming total _ fun ready => ready.checked = naming.checked →
        ready.Keeps tree id)).mono
      fun ready hReady hChecked => ⟨hReady.2 hChecked, hReady.1⟩)
  cases result with
  | none =>
    refine .of_pure ?_
    intro ready hChecked found hFound
    cases hOnly hChecked hFound
  | some result =>
    have hRes : HasResult tree naming.checked id result :=
      .operation (by rcases hShape with rfl | rfl | rfl <;>
        simp [hAttr]) hOperation rfl
    refine (declareName_declares (.result hRes)).mono ?_
    intro ready hName hChecked found hFound
    cases hOnly hChecked hFound
    exact hName

theorem declareProcedure_declares (hTree : tree.IsRegular)
    (hAttr : tree.attr id = .ok .deproceduring) (hMode : modeOf tree id = .ok mode)
    (hProc : procedureOf tree id = .ok builtin) :
    Declares tree naming total (declareProcedure tree id) fun ready => ready.Keeps tree id := by
  rcases ModeTable.storageClass?_ends (modeOf_lt hTree hMode) with ⟨storage, hStorage⟩
  have hRes : plainResult tree id = .ok ⟨⟨"tmp", id⟩,
      storage.getD "A68_REAL", Temp.text ⟨"tmp", id⟩⟩ := by
    simp [plainResult, hMode, hStorage]
  refine .lift_bind hProc (.lift_bind hRes ((declareName_declares
      (.result (.procedure hAttr hRes))).mono ?_))
  intro ready hName found hFound
  have hPlain := hFound.of_procedure hAttr
  rw [hRes, Except.ok.injEq] at hPlain
  exact hPlain ▸ hName

theorem declareWidening_declares (hAttr : tree.attr id = .ok .widening)
    (hWidening : wideningOf tree id = .ok (operand, isComplex))
    (hUnit : Declares tree naming total (unit operand) fun ready => written ready operand) :
    Declares tree naming total (declareWidening tree unit id) fun ready =>
      ready.Keeps tree id ∧ written ready operand := by
  refine .lift_bind hWidening ((Declares.bind hUnit (?_ : Declares tree naming total _ fun ready =>
      ready.Keeps tree id)).mono fun ready hReady => hReady.symm)
  split
  · rename_i hComplex
    subst hComplex
    refine (declareName_declares (.result (.widening hAttr hWidening))).mono ?_
    intro ready hName found hFound
    rw [(hFound.of_widening hAttr hWidening).2]
    exact hName
  · rename_i hPlain
    refine .of_pure ?_
    intro ready found hFound
    exact absurd (hFound.of_widening hAttr hWidening).1 hPlain

variable (hTree : tree.IsRegular) (hModes : total → tree.modes.IsSound)

include hTree hModes

theorem declareDisplay_declares (hAttr : tree.attr id = .ok .collateralClause)
    (hMode : modeOf tree id = .ok display.mode) (hDisplay : displayOf tree id = .ok display)
    (hUnit : ∀ member ∈ display.members, Declares tree naming total (unit member) fun ready =>
        written ready member) :
    Declares tree naming total (declareDisplay tree unit id) fun ready =>
      (ready.Keeps tree id ∧ (display.isComplex = false → ready.size display.mode)) ∧
        ∀ member ∈ display.members, written ready member := by
  refine .lift_bind hDisplay ((Declares.bind (.forM hUnit)
    (?_ : Declares tree naming total _ fun ready =>
      ready.Keeps tree id ∧ (display.isComplex = false → ready.size display.mode))).mono
      fun ready hReady => hReady.symm)
  split
  · rename_i hComplex
    refine (declareName_declares (.result (.pair hAttr hDisplay hComplex))).mono ?_
    intro ready hName
    refine ⟨?_, by simp [hComplex]⟩
    intro found hFound
    rcases hFound.of_display hAttr hDisplay with ⟨-, rfl⟩ | ⟨hPlain, -⟩
    · exact hName
    · simp [hComplex] at hPlain
  · rename_i hPlain
    have hSize : total → (tree.modes.byteSize display.mode).Ends := fun hSound =>
      (hModes hSound).byteSize_ends (modeOf_lt hTree hMode)
    refine .walk_bind hSize fun size hFoundSize => ?_
    refine ((declareName_declares (.result (.bytes hAttr hDisplay
      (by simpa using hPlain) hFoundSize))).with_size ⟨size, hFoundSize⟩).mono ?_
    rintro ready ⟨hName, hSized⟩
    refine ⟨?_, fun _ => hSized⟩
    intro found hFound
    rcases hFound.of_display hAttr hDisplay with ⟨hComplex, -⟩ | ⟨-, other, hOther, rfl⟩
    · exact absurd hComplex hPlain
    · rw [hFoundSize, Except.ok.injEq] at hOther
      exact hOther ▸ hName

theorem declareShape_declares
    (hUnit : ∀ kid, part kid → Declares tree naming total (unit kid) fun ready => written ready kid)
    (hNode : tree.node id = .ok node) (hForm : Form tree .all part id node) :
    Declares tree naming total (declareShape tree unit id node) fun ready =>
      Form tree ready (written ready) id node := by
  have hRead : tree.attr id = .ok node.attr := SyntaxTree.attr_eq hNode
  unfold declareShape
  cases hForm with
  | name hAttr hMode hNamed _ =>
    have hNodeAttr : tree.attr id = .ok .identifier := by rw [SyntaxTree.attr_eq hNode, hAttr]
    rw [hAttr]
    refine .lift_bind hNamed ((declarePointer_declares hTree
      (isOf_of_fetchOf hNodeAttr hNamed).pointer).mono ?_)
    intro ready hReady
    exact .name hAttr hMode hNamed hReady
  | dereferencing hAttr hMode hOp hAddressed =>
    rw [hAttr]
    refine .lift_bind hOp (.lift_bind hMode ?_)
    have hAddr := declareAddress_declares hTree hUnit hAddressed
    refine Declares.mono ?_ fun ready hReady => .dereferencing hAttr hMode hOp hReady
    -- An identifier is declared in place, as an address is.
    cases hAddressed with
    | name hOperandAttr hNamed _ =>
      unfold declareAddress at hAddr
      rw [hOperandAttr] at hAddr ⊢
      exact hAddr
    | element hOperandAttr | component hOperandAttr => exact .lift_bind hOperandAttr hAddr
  | object hAttr hMode hAddressed =>
    have hAddr := declareAddress_declares hTree hUnit hAddressed
    rcases hAttr with hAttr | hAttr
    all_goals
      rw [hAttr]
      refine (hAddr.bind_left (.lift_bind hMode (.of_pure fun _ => trivial))).mono ?_
      intro ready hReady
      exact .object (by simp [hAttr]) hMode hReady
  | operation hAttr hMode _ hOps hParts =>
    have hOperation := declareOperation_declares hTree hRead
      hAttr hMode hOps fun operand hOp => hUnit operand (hParts operand hOp)
    refine Declares.mono ?_ fun ready hReady => .operation hAttr hMode (And.left hReady) hOps
        (And.right hReady)
    rcases hAttr with hAttr | hAttr | hAttr
    all_goals
      rw [hAttr]
      exact hOperation
  | procedure hAttr hMode _ hProc =>
    rw [hAttr] at hRead ⊢
    refine (declareProcedure_declares hTree hRead hMode hProc).mono ?_
    intro ready hKeeps
    exact .procedure hAttr hMode hKeeps hProc
  | enclosed hAttr hOnly hPart =>
    refine Declares.mono ?_ fun ready hReady => .enclosed hAttr hOnly hReady
    rcases hAttr with hAttr | hAttr | hAttr | hAttr
    all_goals
      rw [hAttr]
      exact .lift_bind (childOf_eq hOnly rfl) (hUnit _ hPart)
  | widening hAttr _ hWidening hPart =>
    rw [hAttr] at hRead ⊢
    refine (declareWidening_declares hRead hWidening (hUnit _ hPart)).mono ?_
    rintro ready ⟨hKeeps, hReady⟩
    exact .widening hAttr hKeeps hWidening hReady
  | relation hAttr hRel hLeft hRight =>
    rw [hAttr]
    refine .lift_bind hRel (((hUnit _ hLeft).bind (hUnit _ hRight)).mono ?_)
    rintro ready ⟨hLeftReady, hRightReady⟩
    exact .relation hAttr hRel hLeftReady hRightReady
  | nihil hAttr =>
    rw [hAttr]
    exact .of_pure fun _ => .nihil hAttr
  | choice hAttr hChoice hGuard hYes hNo =>
    rename_i choice
    refine Declares.mono ?_ fun ready (hReady : written ready choice.guard ∧
        written ready choice.yes ∧ written ready choice.no) =>
      .choice hAttr hChoice hReady.1 hReady.2.1 hReady.2.2
    rcases hAttr with hAttr | hAttr
    all_goals
      rw [hAttr]
      exact .lift_bind hChoice ((hUnit _ hGuard).bind ((hUnit _ hYes).bind (hUnit _ hNo)))
  | display hAttr hMode _ _ hDisplay hFields hCount hSome hMembers =>
    rw [hAttr] at hRead ⊢
    refine (declareDisplay_declares hTree hModes hRead hMode hDisplay fun member hMem =>
        hUnit member (hMembers member hMem)).mono ?_
    rintro ready ⟨⟨hKeeps, hSized⟩, hReady⟩
    exact .display hAttr hMode hKeeps hSized hDisplay hFields hCount hSome hReady
  | assignation hAttr hAssign hMode hSrc hAddressed =>
    rw [hAttr]
    refine .lift_bind hAssign (((hUnit _ hSrc).bind
      (declareAddress_declares hTree hUnit hAddressed)).mono ?_)
    rintro ready ⟨hSourceReady, hReady⟩
    exact .assignation hAttr hAssign hMode hSourceReady hReady

/- What can be written once everything is ready can be written when it was declared. -/
theorem declareWithin_declares (hWritable : WritableWithin tree .all depth id) :
    Declares tree naming total (declareWithin tree depth id) fun ready =>
      WritableWithin tree ready depth id := by
  induction depth generalizing id with
  | zero => exact hWritable.elim
  | succ depth ih =>
    rcases hWritable with ⟨node, hNode, ⟨hFolded, -⟩ | ⟨hFolded, hForm⟩⟩
    · refine .lift_bind hNode (.lift_bind hFolded
        ((declareConstant_declares hTree hNode hFolded).mono ?_))
      intro ready hReady
      exact ⟨node, hNode, .inl ⟨hFolded, hReady⟩⟩
    · refine .lift_bind hNode (.lift_bind hFolded
        ((declareShape_declares hTree hModes (fun kid hKid => ih hKid) hNode hForm).mono ?_))
      intro ready hReady
      exact ⟨node, hNode, .inr ⟨hFolded, hReady⟩⟩

theorem declareUnit_declares (hWritable : Writable tree .all id) :
    Declares tree naming total (declareUnit tree id) fun ready => Writable tree ready id :=
  declareWithin_declares hTree hModes hWritable

end Inline

end Algol68
