import Algol68.Planner
import Algol68.Proofs.Code
import Algol68.Proofs.Tiers

/-
  The ways that plans take.

  A fragment is planned along a way down from its node. The way passes clauses and their parts,
  none of which is basic. Where it meets an item that is not basic, or the sources of a
  declaration that is left to the interpreter, these are visited instead. The units that are
  written in place are reached without meeting any such child.
-/

------ Delegation

namespace Algol68

/- Whether the items of a list stand directly in a node. -/
def Attribute.listsItems : Attribute → Bool
  | .serialClause | .collateralClause | .inPart => true
  | _ => false

variable {attr : Attribute}

variable {tree : SyntaxTree} {id : NodeId}

namespace SyntaxTree

open Relation

variable {start : NodeId}

/- A declaration that is left to the interpreter. -/
def IsInterpreted (tree : SyntaxTree) (tier : Nat) (id : NodeId) : Prop :=
  ∃ attr, tree.attr id = .ok attr ∧ attr.isDeclaration = true ∧ ¬ (attr = .variableDeclaration ∧
      Planner.isAllocation tree id tier = .ok true)

/- A child that is visited instead of being written in place. -/
inductive Delegates (tree : SyntaxTree) (tier : Nat) (id kid : NodeId) : Prop
  | item {attr kidAttr : Attribute} (hAttr : tree.attr id = .ok attr)
      (hLists : attr.listsItems = true) (hKid : tree.attr kid = .ok kidAttr)
      (hUnit : kidAttr.isDeclaration = false) (hOther : tree.isBasic kid tier = .ok false)
  | source (hInterpreted : tree.IsInterpreted tier id)

/- A child that is not visited in its own right. -/
structure Keeps (tree : SyntaxTree) (tier : Nat) (id kid : NodeId) : Prop where
  child : tree.IsChild id kid
  kept : ¬ tree.Delegates tier id kid

/- The nodes that a plan passes, none of which is basic. -/
inductive Way (tree : SyntaxTree) (tier : Nat) (start : NodeId) : NodeId → Prop
  | start (hOther : tree.isBasic start tier ≠ .ok true) : Way tree tier start start
  | step {id kid : NodeId} (hWay : Way tree tier start id) (hKeeps : tree.Keeps tier id kid)
      (hOther : tree.isBasic kid tier ≠ .ok true) :
      Way tree tier start kid

/- The nodes that are reached without a visit. -/
def Thread (tree : SyntaxTree) (tier : Nat) : NodeId → NodeId → Prop :=
  ReflTransGen (tree.Keeps tier)

theorem Way.thread (hWay : tree.Way tier start id) : tree.Thread tier start id := by
  induction hWay with
  | start _ => exact .refl
  | step _ hKeeps _ ih => exact ih.tail hKeeps

theorem Thread.holds (hThread : tree.Thread tier start id) : tree.Holds start id := by
  induction hThread with
  | refl => exact .refl tree start
  | tail _ hKeeps ih => exact ReflTransGen.tail ih hKeeps.child

/- A unit that is written in place. -/
structure Exposed (tree : SyntaxTree) (tier : Nat) (start id : NodeId) : Prop where
  thread : tree.Thread tier start id
  basic : tree.isBasic id tier = .ok true

/- The nodes at which problems may come up. -/
def Exposes (tree : SyntaxTree) (tier : Nat) (start inner : NodeId) : Prop :=
  inner = start ∨ ∃ unit, tree.Exposed tier start unit ∧ tree.Holds unit inner

/- What a node that is no declaration does not delegate. -/
theorem keeps_of (hAttr : tree.attr id = .ok attr) (hOther : attr.isDeclaration = false)
    (hKept : attr.listsItems = true → ∀ kidAttr, tree.attr kid = .ok kidAttr →
      kidAttr.isDeclaration = false → tree.isBasic kid tier ≠ .ok false)
    (hChild : tree.IsChild id kid) : tree.Keeps tier id kid := by
  refine ⟨hChild, ?_⟩
  intro hDelegates
  cases hDelegates with
  | item hFound hLists hKid hUnit hNot =>
    cases hAttr.symm.trans hFound
    exact hKept hLists _ hKid hUnit hNot
  | source hInterpreted =>
    rcases hInterpreted with ⟨found, hFound, hDeclares, -⟩
    rw [hAttr, Except.ok.injEq] at hFound
    rw [← hFound, hOther] at hDeclares
    cases hDeclares

theorem keeps_of_attr (hAttr : tree.attr id = .ok attr)
    (hList : attr.listsItems = false) (hOther : attr.isDeclaration = false)
    (hChild : tree.IsChild id kid) : tree.Keeps tier id kid := by
  refine keeps_of hAttr hOther ?_ hChild
  intro hLists
  cases hList.symm.trans hLists

theorem keeps_of_isBasic (hAttr : tree.attr id = .ok attr)
    (hOther : attr.isDeclaration = false) (hBasic : tree.isBasic kid tier = .ok true)
    (hChild : tree.IsChild id kid) : tree.Keeps tier id kid := by
  refine keeps_of hAttr hOther ?_ hChild
  intro _ _ _ _ hNot
  cases hBasic.symm.trans hNot

theorem not_isBasic_of_attr (hAttr : tree.attr id = .ok attr)
    (hOther : attr.mayBeBasic = false) : tree.isBasic id tier ≠ .ok true := by
  intro hBasic
  cases (mayBeBasic_of_isBasic hAttr hBasic).symm.trans hOther

theorem Way.of_attr (hWay : tree.Way tier start id) (hAttr : tree.attr id = .ok attr)
    (hList : attr.listsItems = false) (hDeclares : attr.isDeclaration = false)
    (hChild : tree.IsChild id kid) (hKid : tree.attr kid = .ok kidAttr)
    (hOther : kidAttr.mayBeBasic = false) : tree.Way tier start kid :=
  hWay.step (keeps_of_attr hAttr hList hDeclares hChild) (not_isBasic_of_attr hKid hOther)

theorem isChild_of_sub? (hShaped : tree.IsShaped) (hSub : tree.sub? id = .ok (some kid)) :
    tree.IsChild id kid := by
  rcases Walk.bind_eq_ok.mp hSub with ⟨node, hNode, hFound⟩
  rcases hShaped.children_ends hNode with ⟨kids, hKids⟩
  have hHead := sub_eq_head? hNode hKids
  rw [Except.ok.inj hFound] at hHead
  exact ⟨kids, hKids, List.mem_of_mem_head? hHead.symm⟩

theorem isChild_of_firstChildren (hShaped : tree.IsShaped)
    (hKids : tree.firstChildren id count = .ok kids) (hKid : kid ∈ kids) : tree.IsChild id kid := by
  rcases Walk.bind_eq_ok.mp hKids with ⟨first, hFirst, -⟩
  rcases Walk.bind_eq_ok.mp hFirst with ⟨node, hNode, -⟩
  rcases hShaped.children_ends hNode with ⟨all, hAll⟩
  rw [firstChildren_eq hAll, Except.ok.injEq] at hKids
  subst hKids
  exact ⟨all, hAll, List.mem_of_mem_take hKid⟩

theorem isChild_of_child? (hShaped : tree.IsShaped)
    (hKid : tree.child? id pos = .ok (some kid)) : tree.IsChild id kid := by
  rcases Walk.bind_eq_ok.mp hKid with ⟨kids, hKids, hFound⟩
  exact isChild_of_firstChildren hShaped hKids (List.mem_of_getElem? (Except.ok.inj hFound))

end SyntaxTree

------ Items

variable {serial : NodeId}

namespace Planner

open SyntaxTree

/- An item of a list that a plan comes to. -/
structure Listed (tree : SyntaxTree) (tier : Nat) (start list id : NodeId) : Prop where
  child : tree.IsChild list id
  lists : ∃ attr, tree.attr list = .ok attr ∧ attr.listsItems = true
  thread : tree.Thread tier start list
  way : ∀ attr, tree.attr id = .ok attr → (attr.isDeclaration = true ∨
      tree.isBasic id tier = .ok false) → tree.Way tier start list

namespace Listed

variable (hListed : Listed tree tier start list id)

include hListed

theorem exists_attr : ∃ attr, tree.attr list = .ok attr ∧ attr.isDeclaration = false := by
  rcases hListed.lists with ⟨attr, hAttr, hLists⟩
  exact ⟨attr, hAttr, by cases attr <;> first | rfl | cases hLists⟩

theorem exposed (hBasic : tree.isBasic id tier = .ok true) : tree.Exposed tier start id := by
  rcases hListed.exists_attr with ⟨attr, hAttr, hOther⟩
  exact ⟨hListed.thread.tail (keeps_of_isBasic hAttr hOther hBasic hListed.child), hBasic⟩

theorem keeps (hAttr : tree.attr id = .ok attr)
    (hDeclares : attr.isDeclaration = true) : tree.Keeps tier list id := by
  rcases hListed.exists_attr with ⟨listAttr, hList, hOther⟩
  refine keeps_of hList hOther ?_ hListed.child
  intro _ found hFound hUnit
  cases hAttr.symm.trans hFound
  cases hDeclares.symm.trans hUnit

theorem way_of_isDeclaration (hAttr : tree.attr id = .ok attr)
    (hDeclares : attr.isDeclaration = true) : tree.Way tier start id := by
  have hOther : attr.mayBeBasic = false := by cases attr <;> first | rfl | cases hDeclares
  exact (hListed.way attr hAttr (.inl hDeclares)).step (hListed.keeps hAttr hDeclares)
    (not_isBasic_of_attr hAttr hOther)

theorem delegates (hAttr : tree.attr id = .ok attr)
    (hUnit : attr.isDeclaration = false) (hBasic : tree.isBasic id tier = .ok false) :
    tree.Way tier start list ∧ tree.IsChild list id ∧ tree.Delegates tier list id := by
  rcases hListed.lists with ⟨listAttr, hList, hLists⟩
  exact ⟨hListed.way attr hAttr (.inr hBasic), hListed.child, .item hList hLists hAttr hUnit hBasic⟩

end Listed

/- The first value of a variable that is allocated in place. -/
theorem exposed_of_isAllocation (hShaped : tree.IsShaped) (hListed : Listed tree tier start list id)
    (hAttr : tree.attr id = .ok .variableDeclaration)
    (hAllocation : isAllocation tree id tier = .ok true) (hSub : tree.sub? id = .ok (some init))
    (hBasic : tree.isBasic init tier = .ok true) : tree.Exposed tier start init := by
  have hKept : ¬ tree.Delegates tier id init := by
    intro hDelegates
    cases hDelegates with
    | item hFound hLists _ _ _ =>
      rw [hAttr, Except.ok.injEq] at hFound
      rw [← hFound] at hLists
      cases hLists
    | source hInterpreted =>
      rcases hInterpreted with ⟨attr, hFound, -, hNot⟩
      rw [hAttr, Except.ok.injEq] at hFound
      exact hNot ⟨hFound.symm, hAllocation⟩
  exact ⟨(hListed.thread.tail (hListed.keeps hAttr rfl)).tail
    ⟨isChild_of_sub? hShaped hSub, hKept⟩, hBasic⟩

------ Serial Clauses

/- A serial clause that a plan comes to. -/
structure Reached (tree : SyntaxTree) (tier : Nat) (start serial : NodeId) : Prop where
  thread : tree.Thread tier start serial
  way : tree.isBasicSerial serial tier ≠ .ok true → tree.Way tier start serial

variable (hShaped : tree.IsShaped)

include hShaped

/- The item of a serial clause of one unit is basic. -/
theorem Reached.listed (hReached : Reached tree tier start serial)
    (hSerial : tree.attr serial = .ok .serialClause) (hChild : tree.IsChild serial id) :
    Listed tree tier start serial id := by
  refine ⟨hChild, ⟨_, hSerial, rfl⟩, hReached.thread, ?_⟩
  intro attr hAttr hReason
  apply hReached.way
  intro hBasic
  rcases isBasic_of_isBasicSerial hShaped hBasic with
    ⟨only, onlyAttr, -, hKids, hOnly, hUnit, hOnlyBasic⟩
  rcases hChild with ⟨kids, hFound, hMem⟩
  cases hKids.symm.trans hFound
  rcases List.mem_singleton.mp hMem with rfl
  cases hAttr.symm.trans hOnly
  rcases hReason with hDeclares | hOther
  · cases hUnit.symm.trans hDeclares
  · cases hOnlyBasic.symm.trans hOther

/- The serial clause of a part that a plan comes to. -/
theorem reached_of_part (hAttr : tree.attr part = .ok attr) (hHolds : attr.holdsSerial = true)
    (hSub : tree.sub? part = .ok (some serial)) (hThread : tree.Thread tier start part)
    (hWay : tree.isBasicSerial serial tier ≠ .ok true → tree.Way tier start part) :
    Reached tree tier start serial := by
  have hPlain : attr.listsItems = false ∧ attr.isDeclaration = false := by
    cases attr <;> first | exact ⟨rfl, rfl⟩ | cases hHolds
  have hKeeps : tree.Keeps tier part serial := keeps_of_attr hAttr hPlain.1 hPlain.2
      (isChild_of_sub? hShaped hSub)
  have hSerial : tree.attr serial = .ok .serialClause := by
    rcases Classifier.attr_eq_ok.mp hAttr with ⟨node, hNode, rfl⟩
    rcases hShaped.serialChild hNode hHolds with ⟨only, hKids, hOnly⟩
    cases (sub?_eq hKids).symm.trans hSub
    exact hOnly
  refine ⟨hThread.tail hKeeps, ?_⟩
  intro hOther
  refine (hWay hOther).step hKeeps ?_
  intro hBasic
  exact hOther (isBasicSerial_of_isBasic hSerial hBasic)

omit hShaped

------ Parts of Clauses

/- The clauses that choose one of their parts. -/
def choiceClauses : List Attribute := [.conditionalClause, .elifPart, .caseClause, .ousePart]

theorem way_of_part (hWay : tree.Way tier start id)
    (hChoice : ∃ attr ∈ choiceClauses, tree.attr id = .ok attr) (hChild : tree.IsChild id kid)
    (hKid : tree.attr kid = .ok kidAttr) (hPart : kidAttr.mayBeBasic = false) :
    tree.Way tier start kid := by
  rcases hChoice with ⟨attr, hMem, hAttr⟩
  have hPlain : attr.listsItems = false ∧ attr.isDeclaration = false := by
    clear hAttr
    revert attr
    decide
  exact hWay.of_attr hAttr hPlain.1 hPlain.2 hChild hKid hPart

/- What stands first in a part of a loop. -/
def InPart (tree : SyntaxTree) (loop : NodeId) (attrs : List Attribute) (kid : NodeId) : Prop :=
  ∃ part attr, tree.IsChild loop part ∧ tree.attr part = .ok attr ∧ attr ∈ attrs ∧
      tree.sub? part = .ok (some kid)

/- What stands in a part of a loop is reached. -/
theorem InPart.thread (hShaped : tree.IsShaped) (hWay : tree.Way tier start id)
    (hAttr : tree.attr id = .ok .loopClause) (hAttrs : ∀ attr ∈ attrs, attr ∈ Attribute.loopParts)
    (hInPart : InPart tree id attrs kid) :
    ∃ part attr, attr ∈ attrs ∧ tree.attr part = .ok attr ∧ tree.sub? part = .ok (some kid) ∧
        tree.Way tier start part ∧ tree.Thread tier start kid := by
  rcases hInPart with ⟨part, attr, hChild, hPartAttr, hMem, hSub⟩
  have hPlain : attr.listsItems = false ∧ attr.isDeclaration = false ∧ attr.mayBeBasic = false := by
    have hPart := hAttrs attr hMem
    clear hMem hPartAttr
    revert attr
    decide
  have hPartWay : tree.Way tier start part := hWay.of_attr hAttr rfl rfl hChild hPartAttr hPlain.2.2
  exact ⟨part, attr, hMem, hPartAttr, hSub, hPartWay,
    hPartWay.thread.tail (keeps_of_attr hPartAttr hPlain.1
      hPlain.2.1 (isChild_of_sub? hShaped hSub))⟩

end Planner

end Algol68
