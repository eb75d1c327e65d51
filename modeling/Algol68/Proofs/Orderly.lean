import Mathlib.Data.List.Pairwise
import Algol68.Proofs.Conformity

/-
  A check for conforming trees.

  A tree whose links and modes all point in one direction of
  their stores can be checked node by node.
-/

------ Entries of Stores

namespace Algol68

namespace Store

variable {entity : Type} {α : Type} {store : Store entity α}

theorem mem_toList_of_fetch (hFetch : store.fetch handle = .ok entry) :
    (handle, entry) ∈ store.toList := by
  have hFound : store.entries[handle.number]? = some entry := fetch_eq_ok.mp hFetch
  have hBound : handle.number < store.size := lt_size_of_fetch hFetch
  refine List.mem_iff_getElem?.mpr ⟨handle.number, ?_⟩
  refine List.getElem?_zip_eq_some.mpr ⟨?_, ?_⟩
  · simp [handles, List.getElem?_range hBound]
  · simpa using hFound

end Store

------ Orderly Tables

namespace ModeTable

open Relation

/- Whether every mode is made of modes before it. -/
def isOrderly (table : ModeTable) : Bool :=
  table.modes.toList.all fun entry => entry.2.kind.hasDimensions &&
      entry.2.kind.parts.all fun part => decide (part.number < entry.1.number)

variable {table : ModeTable}

theorem part_lt_of_isOrderly (hOrderly : table.isOrderly = true)
    (hEntry : table.modes.fetch mode = .ok entry) (hPart : part ∈ entry.kind.parts) :
    part.number < mode.number := by
  have hEach := List.all_eq_true.mp hOrderly _ (Store.mem_toList_of_fetch hEntry)
  have hParts := (Bool.and_eq_true_iff.mp hEach).2
  exact of_decide_eq_true (List.all_eq_true.mp hParts part hPart)

theorem acyclic_of_lt (hLess : ∀ mode part, relates mode part → part.number < mode.number)
    (mode : ModeId) : ¬ TransGen relates mode mode := by
  have hDown : ∀ part, TransGen relates mode part → part.number < mode.number := by
    intro part hPath
    induction hPath with
    | single hStep => exact hLess mode _ hStep
    | tail _ hStep ih => exact (hLess _ _ hStep).trans ih
  exact fun hCycle => Nat.lt_irrefl _ (hDown mode hCycle)

theorem isSound_of_isOrderly (hOrderly : table.isOrderly = true) : table.IsSound where
  parts := by
    intro mode entry hEntry part hPart
    exact (part_lt_of_isOrderly hOrderly hEntry hPart).trans (Store.lt_size_of_fetch hEntry)
  rows := by
    intro mode entry hEntry
    have hEach := List.all_eq_true.mp hOrderly _ (Store.mem_toList_of_fetch hEntry)
    exact (Bool.and_eq_true_iff.mp hEach).1
  heldApart := by
    apply acyclic_of_lt
    rintro mode part ⟨entry, hEntry, hPart⟩
    exact part_lt_of_isOrderly hOrderly hEntry (ModeKind.mem_parts_of_mem_held hPart)
  spelledApart := by
    apply acyclic_of_lt
    rintro mode part ⟨entry, hEntry, -, hPart⟩
    exact part_lt_of_isOrderly hOrderly hEntry hPart

end ModeTable

------ Orderly Trees

variable (tree : SyntaxTree) (id : NodeId) (node : Node)

namespace SyntaxTree

/- Whether a link leads to a later node of the tree. -/
def isOrderlyLink (link : Option NodeId) : Bool :=
  link.all fun other =>
    decide (id.number < other.number) &&
      decide (other.number < tree.nodes.size)

/- Whether the handles of a node are as they should be. -/
def isOrderlyNode : Bool :=
  tree.isOrderlyLink id node.sub && tree.isOrderlyLink id node.next && node.mode.all (fun mode =>
      decide (mode.number < tree.modes.size)) &&
    node.tag.all (fun tag => decide (tag.number < tree.tags.size)) &&
    node.table.all (fun table => decide (table.number < tree.tables.size))

/- Whether a node has the children its attribute asks for. -/
def isShapedNode : Bool :=
  match tree.children id with
  | .ok kids =>
    match kids.mapM tree.attr with
    | .ok attrs => node.attr.allows attrs
    | .error _ => false
  | .error _ => false

/- Whether an identifier has a tag of its mode. -/
def isNamedNode : Bool :=
  match node.attr, node.tag with
  | .identifier, some tag =>
    match tree.tags.fetch tag with
    | .ok entry => node.mode == some entry.mode
    | .error _ => false
  | .identifier, none => false
  | _, _ => true

/- Whether the handles of a tag are in range. -/
def isOrderlyTag (tag : Tag) : Bool :=
  decide (tag.mode.number < tree.modes.size) && tag.value.all (fun id =>
      decide (id.number < tree.nodes.size)) &&
    tag.body.all (fun id => decide (id.number < tree.nodes.size))

/- The nodes that are linked from others. -/
def linked : List NodeId :=
  tree.nodes.toList.flatMap fun entry => entry.2.sub.toList ++ entry.2.next.toList

/- Whether a tree conforms, links lead to later nodes, and modes are made of earlier ones. -/
def isOrderly : Bool :=
  tree.root.any (fun id =>
    decide (id.number < tree.nodes.size)) &&
    tree.modes.isOrderly &&
    decide tree.linked.Nodup &&
    (tree.tags.toList.all fun entry => tree.isOrderlyTag entry.2) &&
    (tree.nodes.toList.all fun entry => tree.isOrderlyNode entry.1 entry.2 &&
        tree.isShapedNode entry.1 entry.2 && tree.isNamedNode entry.2)

------ Conformity

variable {tree : SyntaxTree} {id : NodeId} {node : Node}

/- What the check finds out about every node. -/
structure NodesAreOrderly (tree : SyntaxTree) : Prop where
  orderly : ∀ id node, tree.node id = .ok node → tree.isOrderlyNode id node = true
  shaped : ∀ id node, tree.node id = .ok node → tree.isShapedNode id node = true
  named : ∀ id node, tree.node id = .ok node → tree.isNamedNode node = true

theorem nodesAreOrderly_of_all
    (hAll : (tree.nodes.toList.all fun entry => tree.isOrderlyNode entry.1 entry.2 &&
        tree.isShapedNode entry.1 entry.2 && tree.isNamedNode entry.2) = true) :
    tree.NodesAreOrderly := by
  have hEach : ∀ id node, tree.node id = .ok node → (tree.isOrderlyNode id node = true ∧
        tree.isShapedNode id node = true) ∧ tree.isNamedNode node = true := by
    intro id node hNode
    have hEntry := List.all_eq_true.mp hAll _ (Store.mem_toList_of_fetch hNode)
    simpa using hEntry
  exact ⟨fun id node hNode => (hEach id node hNode).1.1,
    fun id node hNode => (hEach id node hNode).1.2, fun id node hNode => (hEach id node hNode).2⟩

theorem isShaped_of_isShapedNode
    (hShaped : ∀ id node, tree.node id = .ok node → tree.isShapedNode id node = true) :
    tree.IsShaped := by
  intro id node hNode
  have hNodeShaped := hShaped id node hNode
  unfold isShapedNode at hNodeShaped
  split at hNodeShaped
  · rename_i kids hKids
    split at hNodeShaped
    · rename_i attrs hAttrs
      exact ⟨kids, attrs, hKids, hAttrs, hNodeShaped⟩
    · cases hNodeShaped
  · cases hNodeShaped

theorem exists_tag_of_isNamedNode (hNamed : tree.isNamedNode node = true)
    (hAttr : node.attr = .identifier) :
    ∃ tag entry, node.tag = some tag ∧ tree.tags.fetch tag = .ok entry ∧
        node.mode = some entry.mode := by
  unfold isNamedNode at hNamed
  rw [hAttr] at hNamed
  cases hTag : node.tag with
  | none =>
    rw [hTag] at hNamed
    cases hNamed
  | some tag =>
    rw [hTag] at hNamed
    dsimp only at hNamed
    split at hNamed
    · rename_i entry hEntry
      exact ⟨tag, entry, rfl, hEntry, eq_of_beq hNamed⟩
    · cases hNamed

theorem isInRange_of_isOrderlyNode (hOrderly : tree.isOrderlyNode id node = true) :
    node.IsInRange tree := by
  simp only [isOrderlyNode, isOrderlyLink, Bool.and_eq_true,
    Option.all_eq_true, decide_eq_true_eq] at hOrderly
  rcases hOrderly with ⟨⟨⟨⟨hSub, hNext⟩, hMode⟩, hTag⟩, hTable⟩
  exact ⟨fun other hOther => (hSub other hOther).2,
    fun other hOther => (hNext other hOther).2, hMode, hTag, hTable⟩

/- The links of orderly nodes lead to later ones. -/
theorem lt_of_link
    (hOrderly : ∀ id node, tree.node id = .ok node → tree.isOrderlyNode id node = true)
    (hLink : tree.Link id other) : id.number < other.number ∧ other.number < tree.nodes.size := by
  rcases hLink with ⟨node, hNode, hLinked⟩
  have hNodeOrderly := hOrderly id node hNode
  simp only [isOrderlyNode, isOrderlyLink, Bool.and_eq_true,
    Option.all_eq_true, decide_eq_true_eq] at hNodeOrderly
  rcases hLinked with hSub | hNext
  · exact hNodeOrderly.1.1.1.1 other hSub
  · exact hNodeOrderly.1.1.1.2 other hNext

/- A node reached by one link only makes no two nodes meet. -/
theorem eq_of_link_of_nodup (hNodup : tree.linked.Nodup) (hLeft : tree.Link left other)
    (hRight : tree.Link right other) : left = right := by
  rcases hLeft with ⟨leftNode, hLeftNode, hLeftLink⟩
  rcases hRight with ⟨rightNode, hRightNode, hRightLink⟩
  have hSymm : Std.Symm (Function.onFun List.Disjoint fun entry : NodeId × Node =>
        entry.2.sub.toList ++ entry.2.next.toList) :=
    ⟨fun _ _ hApart => hApart.symm⟩
  have hApart := (List.nodup_flatMap.mp hNodup).2.forall (Store.mem_toList_of_fetch hLeftNode)
    (Store.mem_toList_of_fetch hRightNode)
  by_contra hDifferent
  have hDisjoint := hApart fun hSame => hDifferent (congrArg Prod.fst hSame)
  apply hDisjoint (a := other)
  · simpa using hLeftLink
  · simpa using hRightLink

theorem isForest_of_isOrderlyNode (hNodes : tree.NodesAreOrderly) (hNodup : tree.linked.Nodup) :
    tree.IsForest where
  acyclic := by
    apply acyclic_of_measure fun id => tree.nodes.size - id.number
    intro id other hLink
    have hLess := lt_of_link hNodes.orderly hLink
    omega
  unique := fun _ _ _ => eq_of_link_of_nodup hNodup
  apart := by
    intro id node other hNode hSub hNext
    have hOwn := (List.nodup_flatMap.mp hNodup).1 _ (Store.mem_toList_of_fetch hNode)
    rw [hSub, hNext] at hOwn
    simp at hOwn

/- A tree that passes the check is as mode checking leaves it. -/
theorem conforms_of_isOrderly (hOrderly : tree.isOrderly = true) : tree.Conforms := by
  simp only [isOrderly, Bool.and_eq_true, decide_eq_true_eq, Option.any_eq_true] at hOrderly
  rcases hOrderly with ⟨⟨⟨⟨⟨root, hRoot, hRange⟩, hModes⟩, hNodup⟩, hTags⟩, hAll⟩
  have hNodes := nodesAreOrderly_of_all hAll
  have hSound := ModeTable.isSound_of_isOrderly hModes
  refine ⟨⟨⟨?_, ?_, ?_, hSound.toIsInRange⟩, isForest_of_isOrderlyNode hNodes hNodup,
    isShaped_of_isShapedNode hNodes.shaped, ?_⟩, ?_, hSound⟩
  · intro id hId
    rw [Option.mem_def, hRoot, Option.some.injEq] at hId
    rw [← hId]
    exact hRange
  · exact fun id node hNode => isInRange_of_isOrderlyNode (hNodes.orderly id node hNode)
  · intro id tag hTag
    have hEntry := List.all_eq_true.mp hTags _ (Store.mem_toList_of_fetch hTag)
    simp only [isOrderlyTag, Bool.and_eq_true, Option.all_eq_true, decide_eq_true_eq] at hEntry
    exact ⟨hEntry.1.1, hEntry.1.2, hEntry.2⟩
  · exact fun id node hNode => exists_tag_of_isNamedNode (hNodes.named id node hNode)
  · rw [hRoot]
    rfl

end SyntaxTree

end Algol68
