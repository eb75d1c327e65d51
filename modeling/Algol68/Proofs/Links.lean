import Mathlib.Data.Finset.Card
import Mathlib.Data.Finset.Range
import Mathlib.Logic.Relation
import Algol68.Tree
import Algol68.Proofs.Walk

/-
  The links of a tree: lists of siblings, forests, and the
  rank that goes down along every link of a forest.
-/

------ Nodes in Range

namespace Algol68

namespace Store

variable {entity α : Type} {store : Store entity α}

theorem fetch_eq_ok : store.fetch handle = .ok entry ↔ store.get? handle = some entry := by
  unfold fetch
  cases store.get? handle <;> simp

theorem exists_fetch (hRange : handle.number < store.size) :
    ∃ entry, store.fetch handle = .ok entry := by
  have hBound : handle.number < store.entries.size := hRange
  refine ⟨store.entries[handle.number], ?_⟩
  rw [fetch_eq_ok]
  exact Array.getElem?_eq_getElem hBound

theorem lt_size_of_fetch (hFetch : store.fetch handle = .ok entry) :
    handle.number < store.size := by
  rw [fetch_eq_ok] at hFetch
  exact (Array.getElem?_eq_some_iff.mp hFetch).1

end Store

------ Lists of Siblings

variable {node : Node} {tree : SyntaxTree} {id : NodeId}

namespace SyntaxTree

/- The nodes met from a first one on by following siblings. -/
def Siblings (tree : SyntaxTree) : Option NodeId → List NodeId → Prop
  | first, [] => first = none
  | first, id :: rest =>
    first = some id ∧ ∃ node, tree.node id = .ok node ∧ Siblings tree node.next rest

/- A bounded walk along siblings gives the list of them. -/
theorem siblingsWithin_eq_ok :
    tree.siblingsWithin fuel first = .ok ids ↔ tree.Siblings first ids ∧ ids.length ≤ fuel := by
  induction fuel generalizing first ids with
  | zero =>
    cases first <;> cases ids <;>
      simp [siblingsWithin, Siblings]
  | succ fuel ih =>
    cases first with
    | none => cases ids <;> simp [siblingsWithin, Siblings]
    | some id =>
      cases hNode : tree.node id with
      | error fault =>
        cases ids <;>
          simp [siblingsWithin, Siblings, hNode]
        rintro rfl node hOther
        simp [hNode] at hOther
      | ok node =>
        simp only [siblingsWithin, hNode, Walk.ok_bind, Walk.bind_eq_ok, ih]
        cases ids with
        | nil => simp [Siblings]
        | cons other rest =>
          simp only [Siblings, Option.some.injEq, Walk.pure_eq_ok, Except.ok.injEq,
            List.cons.injEq, List.length_cons]
          constructor
          · rintro ⟨found, ⟨hRest, hLen⟩, rfl, rfl⟩
            exact ⟨⟨rfl, node, hNode, hRest⟩, by omega⟩
          · rintro ⟨⟨rfl, other, hOther, hRest⟩, hLen⟩
            obtain rfl : node = other := by simpa [hNode] using hOther
            exact ⟨rest, ⟨hRest, by omega⟩, rfl, rfl⟩

theorem Siblings.exists_node (hSibs : tree.Siblings first ids) (hMem : id ∈ ids) :
    ∃ node, tree.node id = .ok node := by
  induction ids generalizing first with
  | nil => simp at hMem
  | cons head rest ih =>
    obtain ⟨-, node, hNode, hRest⟩ := hSibs
    rcases List.mem_cons.mp hMem with rfl | hLater
    · exact ⟨node, hNode⟩
    · exact ih hRest hLater

theorem Siblings.head?_eq (hSibs : tree.Siblings first ids) : ids.head? = first := by
  cases ids with
  | nil => exact hSibs.symm
  | cons id rest => exact hSibs.1.symm

theorem Siblings.exists_rest (hSibs : tree.Siblings (some head) ids) :
    ∃ rest node, ids = head :: rest ∧ tree.node head = .ok node ∧
      tree.Siblings node.next rest := by
  cases ids with
  | nil => cases hSibs
  | cons other rest =>
    rcases hSibs with ⟨hSame, node, hNode, hRest⟩
    cases hSame
    exact ⟨rest, node, rfl, hNode, hRest⟩

theorem children_eq_ok :
    tree.children id = .ok kids ↔ ∃ node, tree.node id = .ok node ∧ tree.Siblings node.sub kids ∧
          kids.length ≤ tree.bound := by
  simp [children, sub?, Walk.bind_eq_ok, siblingsWithin_eq_ok]

theorem Siblings.firstSiblings_eq (hSibs : tree.Siblings first ids) (count : Nat) :
    tree.firstSiblings count first = .ok (ids.take count) := by
  induction count generalizing first ids with
  | zero => simp [firstSiblings]
  | succ count ih =>
    cases ids with
    | nil =>
      obtain rfl : first = none := hSibs
      simp [firstSiblings]
    | cons id rest =>
      obtain ⟨rfl, node, hNode, hRest⟩ := hSibs
      simp [firstSiblings, hNode, ih hRest]

------ Reading Children

theorem exists_node_of_children (hKids : tree.children id = .ok kids) :
    ∃ node, tree.node id = .ok node ∧ tree.Siblings node.sub kids := by
  obtain ⟨node, hNode, hSibs, -⟩ := children_eq_ok.mp hKids
  exact ⟨node, hNode, hSibs⟩

theorem siblings_of_children (hNode : tree.node id = .ok node)
    (hKids : tree.children id = .ok kids) : tree.Siblings node.sub kids := by
  obtain ⟨other, hOther, hSibs, -⟩ := children_eq_ok.mp hKids
  obtain rfl : node = other := by simpa [hNode] using hOther
  exact hSibs

theorem sub_eq_head? (hNode : tree.node id = .ok node) (hKids : tree.children id = .ok kids) :
    node.sub = kids.head? :=
  (siblings_of_children hNode hKids).head?_eq.symm

variable (hKids : tree.children id = .ok kids)

include hKids

theorem sub?_eq : tree.sub? id = .ok kids.head? := by
  obtain ⟨node, hNode, -⟩ := exists_node_of_children hKids
  simp [sub?, hNode, sub_eq_head? hNode hKids]

theorem firstChildren_eq (count : Nat) : tree.firstChildren id count = .ok (kids.take count) := by
  obtain ⟨node, hNode, hSibs⟩ := exists_node_of_children hKids
  simp [firstChildren, sub?, hNode, hSibs.firstSiblings_eq count]

theorem child?_eq (pos : Nat) : tree.child? id pos = .ok kids[pos]? := by
  simp [child?, firstChildren_eq hKids]

theorem exists_node_of_child (hKid : kid ∈ kids) : ∃ node, tree.node kid = .ok node := by
  obtain ⟨node, hNode, hSibs⟩ := exists_node_of_children hKids
  exact hSibs.exists_node hKid

omit hKids

theorem attr_eq (hNode : tree.node id = .ok node) : tree.attr id = .ok node.attr := by
  simp [attr, hNode]

theorem mode?_eq (hNode : tree.node id = .ok node) : tree.mode? id = .ok node.mode := by
  simp [mode?, hNode]

theorem is_eq (hNode : tree.node id = .ok node) (attr : Attribute) :
    tree.is id attr = .ok (node.attr == attr) := by
  simp [is, hNode]

/- A walk that asks siblings in turn asks the members of a list. -/
theorem Siblings.anySibling_eq (hSibs : tree.Siblings first ids)
    (test : NodeId → Node → Walk Bool) (hFuel : ids.length ≤ fuel) :
    tree.anySibling test fuel first = ids.anyM fun id => tree.node id >>= test id := by
  induction ids generalizing first fuel with
  | nil =>
    obtain rfl : first = none := hSibs
    cases fuel <;> simp [anySibling]
  | cons id rest ih =>
    obtain ⟨rfl, node, hNode, hRest⟩ := hSibs
    obtain ⟨less, rfl⟩ : ∃ less, fuel = less + 1 := ⟨fuel - 1, by simp at hFuel; omega⟩
    have hLess : rest.length ≤ less := by simpa using hFuel
    simp only [anySibling, hNode, Walk.ok_bind, List.anyM, ih hRest hLess]
    rcases test id node with fault | _ | _ <;> rfl

end SyntaxTree

------ Counting What Is Reached

namespace Handle

open Relation

variable {entity : Type}

open Classical in
/- The number of handles below `size` that a handle leads to, directly or through others. -/
noncomputable def reachCount
    (leads : Handle entity → Handle entity → Prop)
    (size : Nat)
    (handle : Handle entity) : Nat :=
  ((Finset.range size).filter fun number => TransGen leads handle ⟨number⟩).card

theorem reachCount_le (leads : Handle entity → Handle entity → Prop) (size : Nat)
    (handle : Handle entity) : handle.reachCount leads size ≤ size := by
  classical
  exact (Finset.card_filter_le _ _).trans_eq (Finset.card_range _)

/- There are no more handles than entries that they can be of. -/
theorem length_le {handles : List (Handle entity)} (hNodup : handles.Nodup)
    (hRange : ∀ handle ∈ handles, handle.number < size) : handles.length ≤ size := by
  have hNumbers : (handles.map number).Nodup := hNodup.map fun _ _ => ext
  have hSubset : handles.map number ⊆ List.range size := by
    intro number hNum
    rcases List.mem_map.mp hNum with ⟨handle, hHandle, rfl⟩
    exact List.mem_range.mpr (hRange handle hHandle)
  simpa using (hNumbers.subperm hSubset).length_le

/- What does not lead to itself is counted before its successors. -/
theorem reachCount_lt {other : Handle entity} (hPath : TransGen leads handle other)
    (hAcyclic : ¬ TransGen leads other other) (hRange : other.number < size) :
    other.reachCount leads size < handle.reachCount leads size := by
  refine Finset.card_lt_card (Finset.ssubset_iff_of_subset ?_ |>.mpr ⟨other.number, ?_, ?_⟩)
  · intro number hNum
    simp only [Finset.mem_filter] at hNum ⊢
    exact ⟨hNum.1, hPath.trans hNum.2⟩
  · simp only [Finset.mem_filter, Finset.mem_range]
    exact ⟨hRange, hPath⟩
  · simp only [Finset.mem_filter, not_and]
    intro _
    exact hAcyclic

end Handle

------ Forests

namespace SyntaxTree

open Relation

/- One node leads to another as its child or next sibling. -/
def Link (tree : SyntaxTree) (id other : NodeId) : Prop :=
  ∃ node, tree.node id = .ok node ∧ (node.sub = some other ∨ node.next = some other)

/- No node leads back to itself, and every node is reached by one link at most. -/
structure IsForest (tree : SyntaxTree) : Prop where
  acyclic : ∀ id, ¬ TransGen tree.Link id id
  unique : ∀ left right id, tree.Link left id → tree.Link right id → left = right
  apart : ∀ id node other, tree.node id = .ok node → node.sub = some other → node.next ≠ some other

/- A measure that goes down along links rules out cycles. -/
theorem acyclic_of_measure (measure : NodeId → Nat)
    (hMeasure : ∀ id other, tree.Link id other → measure other < measure id) (id : NodeId) :
    ¬ TransGen tree.Link id id := by
  have hDown : ∀ other, TransGen tree.Link id other → measure other < measure id := by
    intro other hPath
    induction hPath with
    | single hLink => exact hMeasure id _ hLink
    | tail _ hLink ih => exact (hMeasure _ _ hLink).trans ih
  intro hCycle
  exact Nat.lt_irrefl _ (hDown id hCycle)

/- The number of nodes that a node leads to. -/
noncomputable def rank
    (tree : SyntaxTree)
    (id : NodeId) : Nat :=
  id.reachCount tree.Link tree.nodes.size

theorem rank_lt_bound (id : NodeId) : tree.rank id < tree.bound := by
  have hSize : tree.rank id ≤ tree.nodes.size := id.reachCount_le tree.Link tree.nodes.size
  have hBound : tree.nodes.size + 1 ≤ tree.bound := Nat.le_mul_of_pos_right _ (Nat.succ_pos _)
  omega

theorem IsForest.rank_lt (hForest : tree.IsForest) (hPath : TransGen tree.Link id other)
    (hNode : tree.node other = .ok node) : tree.rank other < tree.rank id :=
  Handle.reachCount_lt hPath (hForest.acyclic other) (Store.lt_size_of_fetch hNode)

/- A sibling is reached by links from what leads to the first. -/
theorem Siblings.path (hSibs : tree.Siblings first ids)
    (hFirst : ∀ head, first = some head → tree.Link id head) (hMem : other ∈ ids) :
    TransGen tree.Link id other := by
  induction ids generalizing first id with
  | nil => simp at hMem
  | cons head rest ih =>
    obtain ⟨hHead, node, hNode, hRest⟩ := hSibs
    have hLink : tree.Link id head := hFirst head hHead
    rcases List.mem_cons.mp hMem with rfl | hLater
    · exact .single hLink
    · refine .head hLink (ih hRest ?_ hLater)
      intro next hNext
      exact ⟨node, hNode, .inr hNext⟩

theorem path_of_child (hKids : tree.children id = .ok kids) (hKid : kid ∈ kids) :
    TransGen tree.Link id kid := by
  obtain ⟨node, hNode, hSibs⟩ := exists_node_of_children hKids
  refine hSibs.path ?_ hKid
  intro head hHead
  exact ⟨node, hNode, .inl hHead⟩

theorem IsForest.rank_lt_of_child (hForest : tree.IsForest) (hKids : tree.children id = .ok kids)
    (hKid : kid ∈ kids) : tree.rank kid < tree.rank id := by
  obtain ⟨node, hNode⟩ := exists_node_of_child hKids hKid
  exact hForest.rank_lt (path_of_child hKids hKid) hNode

end SyntaxTree

end Algol68
