import Algol68.Proofs.Code

/-
  Ancestors in a forest.

  A node of a forest has one parent at most, so that the nodes that hold a given one stand in a
  line. What a node holds is thus told apart from what its siblings hold.
-/

------ Neighbours

namespace Algol68

namespace SyntaxTree

open Relation

variable {tree : SyntaxTree} {id : NodeId}

/- The next sibling of a node. -/
def IsNext (tree : SyntaxTree) (id other : NodeId) : Prop :=
  ∃ node, tree.node id = .ok node ∧ node.next = some other

/- What stands in a list of siblings comes after the first. -/
theorem Siblings.follows (hSibs : tree.Siblings first ids) (hMem : id ∈ ids) :
    ∃ head, first = some head ∧ ReflTransGen tree.IsNext head id := by
  induction ids generalizing first with
  | nil => cases hMem
  | cons head rest ih =>
    rcases hSibs with ⟨hFirst, node, hNode, hRest⟩
    refine ⟨head, hFirst, ?_⟩
    rcases List.mem_cons.mp hMem with rfl | hLater
    · exact .refl
    · rcases ih hRest hLater with ⟨second, hSecond, hFollows⟩
      exact .head ⟨node, hNode, hSecond⟩ hFollows

/- A list of siblings goes on to the last one. -/
theorem Siblings.mem_of_isNext (hSibs : tree.Siblings first ids) (hMem : id ∈ ids)
    (hNext : tree.IsNext id other) : other ∈ ids := by
  induction ids generalizing first with
  | nil => cases hMem
  | cons head rest ih =>
    rcases hSibs with ⟨-, node, hNode, hRest⟩
    apply List.mem_cons_of_mem
    rcases List.mem_cons.mp hMem with rfl | hLater
    · rcases hNext with ⟨found, hFound, hOther⟩
      cases hNode.symm.trans hFound
      rw [hOther] at hRest
      exact List.mem_of_mem_head? hRest.head?_eq
    · exact ih hRest hLater

theorem exists_first_of_isChild (hChild : tree.IsChild id kid) :
    ∃ node first, tree.node id = .ok node ∧ node.sub = some first ∧
        ReflTransGen tree.IsNext first kid := by
  rcases hChild with ⟨kids, hKids, hKid⟩
  rcases exists_node_of_children hKids with ⟨node, hNode, hSibs⟩
  rcases hSibs.follows hKid with ⟨first, hFirst, hFollows⟩
  exact ⟨node, first, hNode, hFirst, hFollows⟩

theorem IsChild.of_isNext (hChild : tree.IsChild id kid) (hNext : tree.IsNext kid other) :
    tree.IsChild id other := by
  rcases hChild with ⟨kids, hKids, hKid⟩
  rcases exists_node_of_children hKids with ⟨_, -, hSibs⟩
  exact ⟨kids, hKids, hSibs.mem_of_isNext hKid hNext⟩

/- So are all that stand between the first child and a child. -/
theorem IsChild.of_follows {node : Node} (hChild : tree.IsChild id kid)
    (hNode : tree.node id = .ok node) (hFirst : node.sub = some first)
    (hFollows : ReflTransGen tree.IsNext first other) : tree.IsChild id other := by
  rcases hChild with ⟨kids, hKids, -⟩
  induction hFollows with
  | refl =>
    have hHead := sub_eq_head? hNode hKids
    rw [hFirst] at hHead
    exact ⟨kids, hKids, List.mem_of_mem_head? hHead.symm⟩
  | tail _ hNext ih => exact ih.of_isNext hNext

------ Parents

/- A node contains what its children hold. -/
def Contains (tree : SyntaxTree) (id inner : NodeId) : Prop := TransGen tree.IsChild id inner

namespace Contains

theorem holds (hContains : tree.Contains id lower) : tree.Holds id lower :=
  hContains.to_reflTransGen

theorem of_child (hHolds : tree.Holds id kid) (hChild : tree.IsChild kid lower) :
    tree.Contains id lower :=
  TransGen.tail' hHolds hChild

theorem of_isChild (hChild : tree.IsChild id kid) (hHolds : tree.Holds kid lower) :
    tree.Contains id lower :=
  TransGen.head' hChild hHolds

theorem trans_holds (hContains : tree.Contains id kid) (hHolds : tree.Holds kid lower) :
    tree.Contains id lower :=
  TransGen.trans_left hContains hHolds

end Contains

theorem Holds.trans_contains (hHolds : tree.Holds id kid) (hContains : tree.Contains kid lower) :
    tree.Contains id lower :=
  TransGen.trans_right hHolds hContains

theorem Holds.eq_or_contains (hHolds : tree.Holds id lower) : lower = id ∨ tree.Contains id lower :=
  reflTransGen_iff_eq_or_transGen.mp hHolds

theorem Contains.path (hContains : tree.Contains id lower) : TransGen tree.Link id lower := by
  induction hContains with
  | single hChild =>
    rcases hChild with ⟨kids, hKids, hKid⟩
    exact path_of_child hKids hKid
  | tail _ hChild ih =>
    rcases hChild with ⟨kids, hKids, hKid⟩
    exact ih.trans (path_of_child hKids hKid)

namespace IsForest

variable (hForest : tree.IsForest)

include hForest

theorem not_contains_self : ¬ tree.Contains id id :=
  fun hContains => hForest.acyclic id hContains.path

theorem not_holds_of_contains (hContains : tree.Contains id lower) : ¬ tree.Holds lower id :=
  fun hHolds => hForest.not_contains_self (hContains.trans_holds hHolds)

theorem not_first_of_isNext {node : Node} (hNode : tree.node id = .ok node)
    (hSub : node.sub = some kid) : ¬ tree.IsNext before kid := by
  rintro ⟨other, hOther, hNext⟩
  have hSame : before = id := hForest.unique before id kid ⟨other, hOther, .inr hNext⟩
      ⟨node, hNode, .inl hSub⟩
  subst hSame
  cases hNode.symm.trans hOther
  exact hForest.apart before node kid hNode hSub hNext

/- A node and what stands before it have the same parent. -/
theorem isChild_of_isNext (hNext : tree.IsNext before kid) (hChild : tree.IsChild id kid) :
    tree.IsChild id before := by
  rcases exists_first_of_isChild hChild with ⟨node, first, hNode, hFirst, hFollows⟩
  cases hFollows with
  | refl => exact absurd hNext (hForest.not_first_of_isNext hNode hFirst)
  | @tail last _ hBefore hLast =>
    have hSame : last = before := by
      rcases hLast with ⟨lastNode, hLastNode, hLastNext⟩
      rcases hNext with ⟨beforeNode, hBeforeNode, hBeforeNext⟩
      exact hForest.unique last before kid ⟨lastNode, hLastNode, .inr hLastNext⟩
        ⟨beforeNode, hBeforeNode, .inr hBeforeNext⟩
    subst hSame
    exact hChild.of_follows hNode hFirst hBefore

theorem parent_unique (hChild : tree.IsChild id kid) (hOther : tree.IsChild other kid) :
    id = other := by
  rcases exists_first_of_isChild hChild with ⟨node, first, hNode, hFirst, hFollows⟩
  clear hChild
  -- Both parents are found by going back to the first child.
  induction hFollows with
  | refl =>
    rcases exists_first_of_isChild hOther with
      ⟨otherNode, otherFirst, hOtherNode, hOtherFirst, hBack⟩
    cases hBack with
    | refl =>
      exact hForest.unique id other first ⟨node, hNode, .inl hFirst⟩
        ⟨otherNode, hOtherNode, .inl hOtherFirst⟩
    | tail _ hNext => exact absurd hNext (hForest.not_first_of_isNext hNode hFirst)
  | tail _ hNext ih => exact ih (hForest.isChild_of_isNext hNext hOther)

theorem holds_of_contains (hChild : tree.IsChild id kid) (hContains : tree.Contains outer kid) :
    tree.Holds outer id := by
  rcases TransGen.tail'_iff.mp hContains with ⟨parent, hHolds, hParent⟩
  rcases hForest.parent_unique hChild hParent with rfl
  exact hHolds

/- Of two nodes that hold a third, one holds the other. -/
theorem comparable (hHolds : tree.Holds id lower) (hOther : tree.Holds other lower) :
    tree.Contains id other ∨ tree.Holds other id := by
  have hUnique : Relator.RightUnique (Function.swap tree.IsChild) :=
    fun _ _ _ hLeft hRight => hForest.parent_unique hLeft hRight
  have hTotal := ReflTransGen.total_of_right_unique hUnique
    (reflTransGen_swap.mpr hHolds) (reflTransGen_swap.mpr hOther)
  rcases hTotal with hUp | hDown
  · exact .inr (reflTransGen_swap.mp hUp)
  · have hBelow : tree.Holds id other := reflTransGen_swap.mp hDown
    rcases hBelow.eq_or_contains with rfl | hContains
    · exact .inr (.refl tree _)
    · exact .inl hContains

theorem not_contains_sibling (hChild : tree.IsChild id kid) (hOther : tree.IsChild id other) :
    ¬ tree.Contains kid other := by
  intro hContains
  exact hForest.not_contains_self (.of_isChild hChild (hForest.holds_of_contains hOther hContains))

end IsForest

------ Outermost Nodes

variable {root : NodeId}

theorem exists_sibling_holds (hShaped : tree.IsShaped) (hTops : tree.Siblings (some root) tops)
    (hPath : ReflTransGen tree.Link root id) : ∃ top ∈ tops, tree.Holds top id := by
  induction hPath with
  | refl => exact ⟨root, List.mem_of_mem_head? hTops.head?_eq, .refl tree root⟩
  | @tail id other _ hLink ih =>
    rcases ih with ⟨top, hTop, hHolds⟩
    rcases hLink with ⟨node, hNode, hSub | hNext⟩
    · rcases hShaped.children_ends hNode with ⟨kids, hKids⟩
      have hHead := sub_eq_head? hNode hKids
      rw [hSub] at hHead
      have hKid := List.mem_of_mem_head? hHead.symm
      exact ⟨top, hTop, hHolds.trans (.of_child hKids hKid)⟩
    · have hAfter : tree.IsNext id other := ⟨node, hNode, hNext⟩
      -- What stands behind an outermost node is one as well.
      rcases ReflTransGen.cases_tail hHolds with
        rfl | ⟨parent, hParent, hChild⟩
      · exact ⟨other, hTops.mem_of_isNext hTop hAfter, .refl tree other⟩
      · exact ⟨top, hTop, ReflTransGen.tail hParent (hChild.of_isNext hAfter)⟩

/- Outermost nodes do not hold each other. -/
theorem IsForest.not_contains_top (hForest : tree.IsForest) (hTops : tree.Siblings (some root) tops)
    (hTop : top ∈ tops) (hOther : other ∈ tops) : ¬ tree.Contains top other := by
  intro hContains
  rcases TransGen.tail'_iff.mp hContains with ⟨parent, hHolds, hChild⟩
  rcases hTops.follows hOther with ⟨first, hFirst, hFollows⟩
  cases hFirst
  -- The first of them is a child of the same node as the other.
  have hRoot : tree.IsChild parent root := by
    clear hContains hHolds hOther
    induction hFollows with
    | refl => exact hChild
    | tail _ hNext ih => exact ih (hForest.isChild_of_isNext hNext hChild)
  have hDown : TransGen tree.Link top root := (Contains.of_child hHolds hRoot).path
  rcases hTops.follows hTop with ⟨first, hFirst, hAcross⟩
  cases hFirst
  have hLinks : ReflTransGen tree.Link root top := by
    clear hContains hDown hHolds hTop
    induction hAcross with
    | refl => exact .refl
    | tail _ hNext ih =>
      rcases hNext with ⟨node, hNode, hNext⟩
      exact ih.tail ⟨node, hNode, .inr hNext⟩
  exact hForest.acyclic root (TransGen.trans_right hLinks hDown)

end SyntaxTree

end Algol68
