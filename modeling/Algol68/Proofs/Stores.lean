import Algol68.Proofs.LocalNames
import Algol68.Proofs.Clauses
import Algol68.Proofs.Temporaries

/-
  Slices, and the stores that move their elements.

  The element of a slice is found from the objects of the variables that its indexer dereferences.
  A store into one of them disturbs the slice: the temporary of the element stays where it was.
-/

------ Variables of Slices and Stores

namespace Algol68

namespace Figure

/- The variable that the first of some parts names. -/
def named : List Figure → List TagId
  | .mk .identifier _ (some tag) _ _ :: _ => [tag]
  | _ => []

mutual

/- The variables that are dereferenced in a fragment. -/
def dereferenced : Figure → List TagId
  | .mk attr _ _ _ parts =>
    (if attr = .dereferencing then named parts else []) ++ dereferencedOf parts

/- The variables that are dereferenced in fragments. -/
def dereferencedOf : List Figure → List TagId
  | [] => []
  | part :: rest => dereferenced part ++ dereferencedOf rest

end

end Figure

namespace SyntaxTree

open Inline Emission

variable (tree : SyntaxTree)

/- The indexer of a slice dereferences a variable. -/
def IndexedBy (id : NodeId) (tag : TagId) : Prop :=
  tree.attr id = .ok .slice ∧ ∃ indexer figure, childOf tree id 1 = .ok indexer ∧
      tree.figure indexer = .ok figure ∧ tag ∈ figure.dereferenced

/- The variable that a name, a slice or a selection is part of. -/
inductive IsPartOf (tree : SyntaxTree) (id : NodeId) (tag : TagId) : Prop
  | name {entry : Tag} (hAttr : tree.attr id = .ok .identifier)
      (hTag : tagOf tree id = .ok (tag, entry)) :
      IsPartOf tree id tag
  | slice {primary : NodeId} {entry : Tag} (hAttr : tree.attr id = .ok .slice)
      (hPrimary : childOf tree id 0 = .ok primary) (hTag : tagOf tree primary = .ok (tag, entry)) :
      IsPartOf tree id tag
  | selection {secondary : NodeId} {entry : Tag} (hAttr : tree.attr id = .ok .selection)
      (hSecondary : childOf tree id 1 = .ok secondary)
      (hTag : tagOf tree secondary = .ok (tag, entry)) :
      IsPartOf tree id tag

/- A node stores into a variable, or gives it its first value. -/
inductive StoresTo (tree : SyntaxTree) (id : NodeId) (tag : TagId) : Prop
  | assignation {destination : NodeId} (hAttr : tree.attr id = .ok .assignation)
      (hDestination : childOf tree id 0 = .ok destination) (hPart : tree.IsPartOf destination tag) :
      StoresTo tree id tag
  | declaration {node : Node} (hAttr : tree.attr id = .ok .variableDeclaration)
      (hNode : tree.node id = .ok node) (hTag : node.tag = some tag) :
      StoresTo tree id tag

/- A node stores into a variable that a slice is found from. -/
def Disturbs (store slice : NodeId) : Prop :=
  ∃ tag, tree.StoresTo store tag ∧ tree.IndexedBy slice tag

/- Slices of one variable with equal indexers. -/
def Alike (first second : NodeId) : Prop :=
  ∃ one two, elementOf tree first = .ok one ∧ elementOf tree second = .ok two ∧
      one.pointer.address.Matches tree two.pointer.address

/- The temporary of an element that is found from a variable. -/
def Tracks (temp : Temp) (tag : TagId) : Prop :=
  ∃ pointer : Pointer, pointer.IsOf tree ∧ temp = pointer.temp pointer.node ∧
      tree.IndexedBy pointer.node tag

/- A temporary that leads into a variable. -/
inductive Enters (tree : SyntaxTree) : Temp → TagId → Prop
  | pointer {pointer : Pointer} {tag : TagId} (hPointer : pointer.IsOf tree)
      (hPart : tree.IsPartOf pointer.node tag) :
      Enters tree (pointer.temp pointer.node) tag
  | reference {id : NodeId} {node : Node} {entry : Tag} {tag : TagId}
      (hAttr : tree.attr id = .ok .variableDeclaration) (hNode : tree.node id = .ok node)
      (hTag : node.tag = some tag) :
      Enters tree (referenceOf id entry) tag

end SyntaxTree

------ Stale Temporaries

variable {tree : SyntaxTree}

namespace Event

variable {uses : List Temp}

/- A variable is stored into here, or where other code is run. -/
inductive Changes (tree : SyntaxTree) : Event → TagId → Prop
  | store {pointer : Temp} {tag : TagId} (hEnters : tree.Enters pointer tag) :
      Changes tree (.store pointer) tag
  | leave {node store : NodeId} {tag : TagId} (hHolds : tree.Holds node store)
      (hStore : tree.StoresTo store tag) :
      Changes tree (.leave node) tag

/- A variable is changed that an element is found from. -/
def Upsets (tree : SyntaxTree) (event : Event) (temp : Temp) : Prop :=
  ∃ tag, event.Changes tree tag ∧ tree.Tracks temp tag

/-
  The temporary of an element was given its value before a
  store that moved the element, and not again since.
-/
def IsStale (tree : SyntaxTree) (events : List Event) (temp : Temp) : Prop :=
  ∃ early event late, events = early ++ event :: late ∧ event.Upsets tree temp ∧
      .assign temp ∈ early ∧ .assign temp ∉ late

/- What is read along a path is not stale then. -/
def AreFresh (tree : SyntaxTree) (past events : List Event) : Prop :=
  ∀ early temp late, events = early ++ .use temp :: late → ¬ IsStale tree (past ++ early) temp

/- A temporary becomes stale by one of the events, or stays so. -/
theorem IsStale.of_append (hStale : IsStale tree (past ++ events) temp) :
    (∃ event ∈ events, event.Upsets tree temp) ∨
      IsStale tree past temp ∧ .assign temp ∉ events := by
  rcases hStale with ⟨early, event, late, hEvents, hUpsets, hAssign, hNone⟩
  rcases List.append_eq_append_iff.mp hEvents with ⟨rest, rfl, hSplit⟩ | ⟨rest, hSplit, hLate⟩
  · left
    exact ⟨event, by simp [hSplit], hUpsets⟩
  · cases rest with
    | nil =>
      left
      rw [List.nil_append] at hLate
      exact ⟨event, hLate ▸ List.mem_cons_self, hUpsets⟩
    | cons first others =>
      rw [List.cons_append, List.cons.injEq] at hLate
      rcases hLate with ⟨rfl, rfl⟩
      rw [List.mem_append, not_or] at hNone
      exact .inr ⟨⟨early, event, others, hSplit, hUpsets, hAssign, hNone.1⟩, hNone.2⟩

theorem IsStale.of_calm (hCalm : ∀ event ∈ events, ¬ event.Upsets tree temp)
    (hStale : IsStale tree (past ++ events) temp) : IsStale tree past temp := by
  rcases hStale.of_append with ⟨event, hEvent, hUpsets⟩ | ⟨hPast, -⟩
  · exact absurd hUpsets (hCalm event hEvent)
  · exact hPast

theorem not_upsets_use {read : Temp} : ¬ (Event.use read).Upsets tree temp := by
  rintro ⟨tag, hChanges, -⟩
  cases hChanges

theorem not_upsets_assign : ¬ (Event.assign target).Upsets tree temp := by
  rintro ⟨tag, hChanges, -⟩
  cases hChanges

theorem IsStale.of_uses (hStale : IsStale tree (past ++ uses.map .use) temp) :
    IsStale tree past temp := by
  refine hStale.of_calm ?_
  intro event hEvent
  rcases List.mem_map.mp hEvent with ⟨read, -, rfl⟩
  exact not_upsets_use

theorem AreFresh.nil : AreFresh tree past [] := by
  intro early temp late hEvents
  simp at hEvents

/- One path after the other. -/
theorem AreFresh.append (hFirst : AreFresh tree past first)
    (hSecond : AreFresh tree (past ++ first) second) : AreFresh tree past (first ++ second) := by
  intro early temp late hEvents
  rcases List.append_eq_append_iff.mp hEvents with ⟨rest, rfl, hSplit⟩ | ⟨rest, hSplit, hLate⟩
  · have hFresh := hSecond rest temp late hSplit
    rwa [List.append_assoc] at hFresh
  · cases rest with
    | nil =>
      subst hSplit
      simpa using hSecond [] temp late hLate.symm
    | cons event others =>
      rcases hLate with ⟨rfl, -⟩
      exact hFirst early temp others hSplit

theorem AreFresh.of_uses (hUses : ∀ temp ∈ uses, ¬ IsStale tree past temp) :
    AreFresh tree past (uses.map .use) := by
  intro early temp late hEvents hStale
  rcases List.map_eq_append_iff.mp hEvents with ⟨first, second, rfl, rfl, hSecond⟩
  rcases List.map_eq_cons_iff.mp hSecond with ⟨found, others, rfl, hFound, -⟩
  cases hFound
  exact hUses temp (by simp) hStale.of_uses

theorem AreFresh.of_no_use (hUse : ∀ temp, .use temp ∉ events) : AreFresh tree past events := by
  intro early temp late hEvents
  exact absurd (by simp [hEvents]) (hUse temp)

/- What was not stale, or was assigned, is not stale unless an event upsets it. -/
theorem not_isStale_append {known : Temp → Prop}
    (hKnown : ∀ temp, known temp → ¬ IsStale tree past temp)
    (hHad : known temp ∨ .assign temp ∈ events)
    (hCalm : ∀ event ∈ events, ¬ event.Upsets tree temp) :
    ¬ IsStale tree (past ++ events) temp := by
  intro hStale
  rcases hStale.of_append with ⟨event, hEvent, hUpsets⟩ | ⟨hPast, hNone⟩
  · exact hCalm event hEvent hUpsets
  · exact hHad.elim (fun hTemp => hKnown temp hTemp hPast) hNone

end Event

------ Variables of Temporaries

variable {id : NodeId}

namespace SyntaxTree

open Inline

/- A node is part of one variable. -/
theorem IsPartOf.unique (hPart : tree.IsPartOf id tag) (hOther : tree.IsPartOf id other) :
    tag = other := by
  cases hPart with
  | name hAttr hTag =>
    cases hOther with
    | name _ hAgain =>
      rw [hTag, Except.ok.injEq, Prod.mk.injEq] at hAgain
      exact hAgain.1
    | slice hSlice | selection hSlice => cases hAttr.symm.trans hSlice
  | slice hAttr hPrimary hTag =>
    cases hOther with
    | name hName | selection hName => cases hAttr.symm.trans hName
    | slice _ hFound hAgain =>
      cases hPrimary.symm.trans hFound
      rw [hTag, Except.ok.injEq, Prod.mk.injEq] at hAgain
      exact hAgain.1
  | selection hAttr hSecondary hTag =>
    cases hOther with
    | name hName | slice hName => cases hAttr.symm.trans hName
    | selection _ hFound hAgain =>
      cases hSecondary.symm.trans hFound
      rw [hTag, Except.ok.injEq, Prod.mk.injEq] at hAgain
      exact hAgain.1

theorem Alike.of_common (hFirst : tree.Alike id first) (hSecond : tree.Alike id second) :
    tree.Alike first second := by
  rcases hFirst with ⟨one, two, hOne, hTwo, hMatches⟩
  rcases hSecond with ⟨again, three, hAgain, hThree, hOther⟩
  cases hOne.symm.trans hAgain
  exact ⟨two, three, hTwo, hThree, hMatches.symm.trans hOther⟩

end SyntaxTree

namespace Inline

variable {pointer first : Pointer} (hPointer : pointer.IsOf tree)

include hPointer

/- The variable that a pointer leads into names its address. -/
theorem Pointer.IsOf.exists_part :
    ∃ tag entry, tree.IsPartOf pointer.node tag ∧ pointer.address.name = bookingName tag entry := by
  cases hPointer with
  | fetch hAttr hNamed =>
    rcases fetchOf_eq_ok hNamed with ⟨tag, entry, _, hTag, -, rfl⟩
    exact ⟨tag, entry, .name hAttr hTag, rfl⟩
  | deref hAttr hNamed =>
    rcases derefOf_eq_ok hNamed with ⟨tag, entry, _, _, hTag, -, -, rfl⟩
    exact ⟨tag, entry, .name hAttr hTag, rfl⟩
  | element hAttr hElem =>
    rcases elementOf_eq_ok hElem with
      ⟨_, _, tag, entry, _, _, _, _, hPrimary, -, hTag, -, -, -, -, rfl⟩
    exact ⟨tag, entry, .slice hAttr hPrimary hTag, rfl⟩
  | component hAttr hComp =>
    rcases componentOf_eq_ok hComp with
      ⟨_, _, tag, entry, _, _, _, _, _, _, -, hSecondary, hTag, -, -, -, -, -, rfl⟩
    exact ⟨tag, entry, .selection hAttr hSecondary hTag, rfl⟩

/- Pointers with one temporary lead into one variable. -/
theorem Pointer.IsOf.isPartOf_of_matches (hFirst : first.IsOf tree)
    (hMatches : first.address.Matches tree pointer.address) (hPart : tree.IsPartOf first.node tag) :
    tree.IsPartOf pointer.node tag := by
  rcases hPointer.exists_part with ⟨found, entry, hFound, hName⟩
  rcases hFirst.exists_part with ⟨again, second, hAgain, hOther⟩
  have hNames : first.address.name = pointer.address.name :=
    congrArg (fun view => view.2.1) hMatches
  rw [hName, hOther] at hNames
  rw [hPart.unique hAgain, (bookingName_inj hNames).2]
  exact hFound

theorem Pointer.IsOf.exists_element (hSlice : tree.attr pointer.node = .ok .slice) :
    ∃ elem, elementOf tree pointer.node = .ok elem ∧ elem.pointer = pointer := by
  have hAt := hPointer.pointerAt_eq
  rw [hPointer.slice.mp hSlice] at hAt
  exact Walk.map_eq_ok.mp hAt

theorem Pointer.IsOf.exists_indexer (hSlice : tree.attr pointer.node = .ok .slice) :
    ∃ indexer print, childOf tree pointer.node 1 = .ok indexer ∧
        pointer.address.payload = some ⟨indexer, print⟩ := by
  rcases hPointer.exists_element hSlice with ⟨elem, hElem, hSame⟩
  rcases elementOf_eq_ok hElem with
    ⟨_, indexer, _, _, _, _, print, _, -, hIndexer, -, -, -, -, -, rfl⟩
  exact ⟨indexer, print, hIndexer, hSame ▸ rfl⟩

/- Slices with one temporary are found from the same variables. -/
theorem Pointer.IsOf.indexedBy_of_matches (hFirst : first.IsOf tree)
    (hMatches : first.address.Matches tree pointer.address)
    (hIndexed : tree.IndexedBy first.node tag) : tree.IndexedBy pointer.node tag := by
  rcases hIndexed with ⟨hSlice, indexer, figure, hIndexer, hFigure, hTag⟩
  have hAction : first.address.action = pointer.address.action :=
    congrArg (fun view => view.1) hMatches
  have hOther : tree.attr pointer.node = .ok .slice :=
    hPointer.slice.mpr (hAction ▸ hFirst.slice.mp hSlice)
  rcases hFirst.exists_indexer hSlice with ⟨found, _, hFound, hPayload⟩
  rcases hPointer.exists_indexer hOther with ⟨again, _, hAgain, hSecond⟩
  cases hIndexer.symm.trans hFound
  have hFigures : tree.figure indexer = tree.figure again := by
    have hViews := congrArg (fun view => view.2.2) hMatches
    simpa only [Address.view, hPayload, hSecond, Option.map_some,
      Option.some.injEq] using hViews
  exact ⟨hOther, again, figure, hAgain, hFigures ▸ hFigure, hTag⟩

omit hPointer

theorem Owner.exists_temp (hTree : tree.IsRegular) (hDecl : AreDeclared tree ctx)
    (hPointer : pointer.IsOf tree) (hOwner : Owner tree ctx pointer.address owner) :
    ∃ first : Pointer, first.IsOf tree ∧
      first.address.Matches tree pointer.address ∧ pointer.temp owner = first.temp first.node := by
  rcases hOwner.exists_pointer hTree hDecl hPointer with ⟨first, hFirst, rfl, hMatches, -⟩
  refine ⟨first, hFirst, hMatches, ?_⟩
  unfold Pointer.temp
  rw [hFirst.stem_eq hTree hPointer hMatches]

variable (hTree : tree.IsRegular) (hDecl : AreDeclared tree ctx)

include hTree hDecl

theorem FoundAt.indexedBy (hFound : FoundAt tree ctx id temp) (hTracks : tree.Tracks temp tag) :
    tree.IndexedBy id tag ∧ tree.Alike temp.owner id := by
  rcases hFound with ⟨pointer, owner, hPointer, rfl, hOwner, rfl⟩
  rcases hOwner.exists_temp hTree hDecl hPointer with ⟨first, hFirst, hMatches, hTemp⟩
  rcases hTracks with ⟨other, hOther, hSame, hIndexed⟩
  rw [hTemp] at hSame
  rw [← hFirst.eq_of_temp hOther hSame] at hIndexed
  have hAgain := hPointer.indexedBy_of_matches hFirst hMatches hIndexed
  rcases hFirst.exists_element hIndexed.1 with ⟨one, hOne, rfl⟩
  rcases hPointer.exists_element hAgain.1 with ⟨two, hTwo, rfl⟩
  rw [hTemp]
  exact ⟨hAgain, one, two, hOne, hTwo, hMatches⟩

/- What a temporary enters is read off the unit it is used for. -/
theorem FoundAt.isPartOf (hFound : FoundAt tree ctx id temp) (hEnters : tree.Enters temp tag) :
    tree.IsPartOf id tag := by
  rcases hFound with ⟨pointer, owner, hPointer, rfl, hOwner, rfl⟩
  rcases hOwner.exists_temp hTree hDecl hPointer with ⟨first, hFirst, hMatches, hTemp⟩
  rw [hTemp] at hEnters
  generalize hSame : first.temp first.node = found at hEnters
  cases hEnters with
  | pointer hOther hPart =>
    rw [← hFirst.eq_of_temp hOther hSame] at hPart
    exact hPointer.isPartOf_of_matches hFirst hMatches hPart
  | @reference declared _ _ _ hAttr _ _ =>
    have hNode : first.node = declared := congrArg Temp.owner hSame
    rw [← hNode] at hAttr
    exact absurd (Names.pointer_ne hFirst hAttr) (by decide)

/- A temporary of a unit that tracks a variable is of a slice. -/
theorem Belongs.exists_slice (hBelongs : Belongs tree ctx id temp)
    (hTracks : tree.Tracks temp tag) : ∃ slice, tree.Holds id slice ∧ tree.IndexedBy slice tag ∧
      tree.Alike temp.owner slice := by
  cases hBelongs with
  | @pointer pointer owner hPointer hHolds hOwner =>
    have hFound : FoundAt tree ctx pointer.node (pointer.temp owner) :=
      ⟨pointer, owner, hPointer, rfl, hOwner, rfl⟩
    exact ⟨pointer.node, hHolds, hFound.indexedBy hTree hDecl hTracks⟩
  | @result lower _ hHolds hRes hName =>
    rcases hTracks with ⟨pointer, hPointer, hTemp, -⟩
    rcases hRes.temp_eq with ⟨_, -, hResultTemp⟩
    rcases hRes.exists_attr with ⟨attr, hKeeps, hAttr⟩
    have hNode : lower = pointer.node := congrArg Temp.owner (hResultTemp.symm.trans hTemp)
    rw [hNode] at hAttr
    have hShape := Names.pointer_ne hPointer hAttr
    simp only [List.mem_cons, List.not_mem_nil, or_false] at hKeeps hShape
    rcases hShape with rfl | rfl | rfl <;> simp at hKeeps

omit hTree hDecl

------ Stores of Units

theorem StoredBy.exists_store (hTree : tree.IsRegular) (hDecl : AreDeclared tree ctx)
    (hStored : StoredBy tree ctx id temp) (hEnters : tree.Enters temp tag) :
    ∃ store, tree.Holds id store ∧ tree.attr store = .ok .assignation ∧
        tree.StoresTo store tag := by
  cases hStored with
  | mk hHolds hAttr hDest hFound =>
    exact ⟨_, hHolds, hAttr, .assignation hAttr hDest (hFound.isPartOf hTree hDecl hEnters)⟩

/- What changes along a path through the code of a unit. -/
theorem Placed.exists_store (hTree : tree.IsRegular) (hDecl : AreDeclared tree ctx)
    (hPlaced : Placed tree ctx checked id before body after asked)
    (hRuns : Stmt.RunsOf allowed choices body events) (hEvent : event ∈ events)
    (hChanges : event.Changes tree tag) :
    ∃ store, tree.Holds id store ∧ tree.attr store = .ok .assignation ∧
        tree.StoresTo store tag := by
  rcases hRuns.exists_stmt _ hEvent with ⟨stmt, hStmt, hMay⟩
  have hEffect : event ∈ stmt.effects := by
    cases hChanges with
    | store | leave => exact hMay
  rcases (hPlaced.stmts stmt hStmt).stores event hEffect with ⟨pointer, rfl, hStored⟩
  cases hChanges with
  | store hEnters => exact hStored.exists_store hTree hDecl hEnters

end Inline

end Algol68
