import Algol68.Proofs.Links
import Algol68.Tree.Builder

/-
  Lists of children and the links that store them.

  The order of children is kept in the children, so a node that is added writes into nodes that
  were added before. As long as no node is in two lists, the links of all nodes agree with the
  lists, and they form a forest.
-/

------ Changed Entries

namespace Algol68

open List

namespace Store

variable {entity α : Type} {store next : Store entity α} {handle : Handle entity} {change : α → α}

theorem get?_push_of_some (entry : α) (hOld : store.get? handle = some old) :
    (store.push entry).get? handle = some old := by
  rw [store.get?_push_of_lt entry (Array.getElem?_eq_some_iff.mp hOld).1, hOld]

theorem get?_push (store : Store entity α) (entry : α) (handle : Handle entity) :
    (store.push entry).get? handle =
      if handle = store.nextHandle then some entry else store.get? handle := by
  simp [get?, push, nextHandle, size, Array.getElem?_push, Handle.ext_iff]

theorem get?_nextHandle (store : Store entity α) : store.get? store.nextHandle = none := by
  simp [get?, nextHandle, size]

/- Only the entry at the handle is changed. -/
theorem modify_eq_ok (hNext : store.modify handle change = .ok next) :
    next.size = store.size ∧ ∃ entry, store.get? handle = some entry ∧ ∀ other,
      next.get? other = if other = handle then some (change entry) else store.get? other := by
  unfold modify at hNext
  split at hNext
  · rename_i entry hEntry
    cases hNext
    refine ⟨by simp [size], entry, hEntry, ?_⟩
    intro other
    have hRange := (Array.getElem?_eq_some_iff.mp hEntry).1
    simp [get?, Array.getElem?_setIfInBounds, hRange, Handle.ext_iff, eq_comm]
  · cases hNext

end Store

------ Linking Siblings

namespace TreeBuilder

variable {built : List (NodeId × List NodeId)} {kids : List NodeId} {id other : NodeId}
  {node : Node} {nodes after : Store NodeEntity Node} {builder : TreeBuilder}

/- Nodes of which some are linked as siblings. -/
structure Relinks (nodes after : Store NodeEntity Node) (kids : List NodeId) : Prop where
  sub : ∀ id first, (∃ node, after.get? id = some node ∧ node.sub = first) ↔
    ∃ node, nodes.get? id = some node ∧ node.sub = first
  kept : ∀ id ∉ kids, after.get? id = nodes.get? id
  next : kids.Nodup → ∀ pos kid, kids[pos]? = some kid →
    ∃ node, after.get? kid = some node ∧ node.next = kids[pos + 1]?

theorem modifyNode_meets : Step.Meets False (modifyNode id change) builder fun _ next =>
    ∃ nodes node, next = { builder with tree := { builder.tree with nodes := nodes } } ∧
      nodes.size = builder.tree.nodes.size ∧ builder.tree.nodes.get? id = some node ∧
      ∀ other, nodes.get? other =
        if other = id then some (change node) else builder.tree.nodes.get? other := by
  refine .get_bind (.walk_bind False.elim ?_)
  intro nodes hNodes
  rcases Store.modify_eq_ok hNodes with ⟨hSize, node, hNode, hGet⟩
  exact ⟨nodes, node, rfl, hSize, hNode, hGet⟩

theorem linkSiblings_meets :
    Step.Meets False (linkSiblings kids) builder fun _ next => ∃ nodes,
      next = { builder with tree := { builder.tree with nodes := nodes } } ∧
      nodes.size = builder.tree.nodes.size ∧ Relinks builder.tree.nodes nodes kids := by
  induction kids using linkSiblings.induct generalizing builder with
  | case1 => exact ⟨_, rfl, rfl, fun _ _ => Iff.rfl, fun _ _ => rfl, by simp⟩
  | case2 last =>
    refine .mono modifyNode_meets ?_
    rintro _ _ ⟨nodes, node, rfl, hSize, hNode, hGet⟩
    exact ⟨nodes, rfl, hSize, by grind, by grind, by grind⟩
  | case3 first second rest ih =>
    refine .bind modifyNode_meets ?_
    rintro _ _ ⟨mid, node, rfl, hSize, hNode, hGet⟩
    refine .mono ih ?_
    rintro _ _ ⟨nodes, rfl, hSame, hRelinks⟩
    refine ⟨nodes, rfl, hSame.trans hSize, ?_, ?_, ?_⟩
    · intro id first
      rw [hRelinks.sub]
      grind
    · intro id hId
      rw [hRelinks.kept, hGet] <;> grind
    · rintro hNodup (_ | pos) kid hKid
      · rw [hRelinks.kept, hGet] <;> grind
      · exact hRelinks.next hNodup.of_cons pos kid hKid

------ Links of Lists

/- A node has another as its first child, or else as its next sibling. -/
def Leads (nodes : Store NodeEntity Node) (down : Bool) (id other : NodeId) : Prop :=
  ∃ node, nodes.get? id = some node ∧ (if down then node.sub else node.next) = some other

/- Nodes that are linked as lists of children say. -/
structure Links (nodes : Store NodeEntity Node) (built : List (NodeId × List NodeId)) : Prop where
  listed : ∀ id node, nodes.get? id = some node → ∃ kids, (id, kids) ∈ built
  sub : ∀ id kids, (id, kids) ∈ built → ∃ node, nodes.get? id = some node ∧ node.sub = kids.head?
  next : ∀ id kids, (id, kids) ∈ built → ∀ pos kid, kids[pos]? = some kid →
    ∃ node, nodes.get? kid = some node ∧ node.next = kids[pos + 1]?
  target : ∀ down left right, Leads nodes down left right →
    ∃ id kids, (id, kids) ∈ built ∧ right ∈ kids
  source : ∀ down level left right id, Leads nodes down left id → Leads nodes level right id →
    down = level ∧ left = right
  falls : ∃ rank : NodeId → Nat, ∀ down left right,
    Leads nodes down left right → rank right < rank left

/- A list that nothing leads into can be put on top. -/
theorem exists_rank (hPath : (id :: kids).Nodup)
    (hFree : ∀ down left right, Leads nodes down left right → right ∉ id :: kids)
    (hFalls : ∃ rank : NodeId → Nat, ∀ down left right,
      Leads nodes down left right → rank right < rank left) :
    ∃ rank : NodeId → Nat,
      (∀ down left right, Leads nodes down left right → rank right < rank left) ∧
      ∀ (pos : Nat) left right, (id :: kids)[pos]? = some left → kids[pos]? = some right →
        rank right < rank left := by
  induction kids generalizing id with
  | nil => simpa using hFalls
  | cons kid rest ih =>
    rcases ih hPath.of_cons (by grind) with ⟨rank, hOld, hRest⟩
    refine ⟨fun other => if other = id then rank id + rank kid + 1 else rank other, ?_, ?_⟩
    · grind
    · rintro (_ | pos) left right hLeft hRight
      · grind
      · have := hRest pos left right hLeft hRight
        grind

namespace Links

variable (hRelinks : Relinks nodes after kids) (hSub : node.sub = kids.head?)
  (hNext : node.next = none)

include hRelinks hSub hNext

/- The links of an added node are those along its list. -/
theorem leads_push (hNodup : kids.Nodup) (hLeads : Leads (after.push node) down id other) :
    (∃ pos : Nat, (after.nextHandle :: kids)[pos]? = some id ∧ kids[pos]? = some other ∧
      down = decide (pos = 0)) ∨ Leads nodes down id other := by
  rcases hLeads with ⟨found, hFound, hOther⟩
  rw [Store.get?_push] at hFound
  split at hFound
  · cases hFound
    exact .inl ⟨0, by grind [head?_eq_getElem?]⟩
  · rcases (hRelinks.sub id found.sub).mp ⟨found, hFound, rfl⟩ with ⟨before, hBefore, hSame⟩
    by_cases hKid : id ∈ kids
    · rcases mem_iff_getElem?.mp hKid with ⟨pos, hPos⟩
      have hFollows := hRelinks.next hNodup pos id hPos
      cases down with
      | true => exact .inr ⟨before, hBefore, by grind⟩
      | false => exact .inl ⟨pos + 1, hPos, by grind⟩
    · have hKept := hRelinks.kept id hKid
      exact .inr ⟨before, hBefore, by grind⟩

theorem push (hLinks : Links nodes built)
    (hNodup : (kids ++ built.flatMap Prod.snd).Nodup) :
    Links (after.push node) ((after.nextHandle, kids) :: built) := by
  have hKids := (nodup_append.mp hNodup).1
  have hApart : ∀ id list, (id, list) ∈ built → ∀ kid ∈ list, kid ∉ kids := by
    intro id list hList kid hOld hKid
    exact (nodup_append'.mp hNodup).2.2 hKid (mem_flatMap.mpr ⟨_, hList, hOld⟩)
  clear hNodup
  have hGet := after.get?_push node
  have hNew := after.get?_nextHandle
  have hLater : ∀ id list, (id, list) ∈ (after.nextHandle, kids) :: built → ∀ (pos : Nat) kid,
      list[pos]? = some kid →
        ∃ found, after.get? kid = some found ∧ found.next = list[pos + 1]? := by
    intro id list hList pos kid hKid
    rcases mem_cons.mp hList with hSame | hList
    · cases hSame
      exact hRelinks.next hKids pos kid hKid
    · rw [hRelinks.kept kid (hApart id list hList kid (mem_of_getElem? hKid))]
      exact hLinks.next id list hList pos kid hKid
  have hFree : ∀ id list, (id, list) ∈ (after.nextHandle, kids) :: built →
      after.nextHandle ∉ list := by
    intro id list hList hMem
    rcases mem_iff_getElem?.mp hMem with ⟨pos, hPos⟩
    have := hLater id list hList pos _ hPos
    grind
  have hCases : ∀ {down id other}, Leads (after.push node) down id other → _ :=
    leads_push hRelinks hSub hNext hKids
  have hSame : ∀ (pos place : Nat) id, kids[pos]? = some id → kids[place]? = some id →
      pos = place := by
    intro pos place id hPos hPlace
    have hBound := (List.getElem?_eq_some_iff.mp hPos).1
    exact (getElem?_inj hBound hKids).mp (hPos.trans hPlace.symm)
  have hTarget := hLinks.target
  rcases exists_rank (nodup_cons.mpr ⟨hFree _ kids mem_cons_self, hKids⟩) (by grind) hLinks.falls
    with ⟨rank, hRank, hPath⟩
  refine ⟨?_, ?_, ?_, ?_, ?_, rank, ?_⟩
  · intro id found hFound
    have := hLinks.listed id
    have := hRelinks.sub id found.sub
    grind
  · intro id list hList
    have := hLinks.sub id list
    have := hRelinks.sub id list.head?
    grind
  · grind
  · grind
  · have := hLinks.source
    grind
  · grind

------ Finished Trees

omit hRelinks hSub hNext

variable {tree : SyntaxTree} (hLinks : Links tree.nodes built)

theorem exists_leads (hLink : tree.Link id other) : ∃ down, Leads tree.nodes down id other := by
  rcases hLink with ⟨node, hNode, hSub | hNext⟩
  · exact ⟨true, node, Store.fetch_eq_ok.mp hNode, hSub⟩
  · exact ⟨false, node, Store.fetch_eq_ok.mp hNode, hNext⟩

include hLinks

theorem isForest : tree.IsForest where
  acyclic := by
    rcases hLinks.falls with ⟨rank, hFalls⟩
    refine SyntaxTree.acyclic_of_measure rank ?_
    intro id other hLink
    rcases exists_leads hLink with ⟨down, hLeads⟩
    exact hFalls down id other hLeads
  unique := by
    intro left right id hLeft hRight
    rcases exists_leads hLeft with ⟨down, hLeft⟩
    rcases exists_leads hRight with ⟨level, hRight⟩
    exact (hLinks.source down level left right id hLeft hRight).2
  apart := by
    intro id node other hNode hSub hNext
    have hNode := Store.fetch_eq_ok.mp hNode
    cases (hLinks.source true false id id other ⟨node, hNode, hSub⟩ ⟨node, hNode, hNext⟩).1

omit hLinks in
/- Siblings that are linked in order. -/
theorem siblings (hKids : ∀ pos kid, kids[pos]? = some kid →
    ∃ node, tree.nodes.get? kid = some node ∧ node.next = kids[pos + 1]?) :
    tree.Siblings kids.head? kids := by
  induction kids with
  | nil => rfl
  | cons first rest ih =>
    rcases hKids 0 first rfl with ⟨node, hNode, hNext⟩
    refine ⟨rfl, node, Store.fetch_eq_ok.mpr hNode, ?_⟩
    rw [hNext, getElem?_cons_succ, ← head?_eq_getElem?]
    exact ih fun pos kid hKid => hKids (pos + 1) kid hKid

theorem children_eq (hNodup : kids.Nodup) (hKids : (id, kids) ∈ built) :
    tree.children id = .ok kids := by
  have hSibs := siblings (hLinks.next id kids hKids)
  rcases hLinks.sub id kids hKids with ⟨node, hNode, hHead⟩
  have hLength := Handle.length_le hNodup fun kid hKid => by
    rcases hSibs.exists_node hKid with ⟨node, hNode⟩
    exact Store.lt_size_of_fetch hNode
  exact SyntaxTree.children_eq_ok.mpr ⟨node, Store.fetch_eq_ok.mpr hNode, hHead ▸ hSibs,
    hLength.trans ((Nat.le_succ _).trans (Nat.le_mul_of_pos_right _ (Nat.succ_pos _)))⟩

end Links

end TreeBuilder

end Algol68
