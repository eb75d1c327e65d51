import Algol68.Proofs.Modes

/-
  Trees as mode checking leaves them.

  The children of a node are those that its attribute asks for, every handle is in range, the
  links form a forest, and identifiers are bound to tags of their mode.
-/

------ The Table of Children

namespace Algol68

namespace Attribute

/- The parts of a loop clause in their order. -/
def loopParts : List Attribute :=
  [.forPart, .fromPart, .byPart, .toPart, .downtoPart, .whilePart, .doPart, .untilPart]

/- Whether the one child is a serial clause. -/
def holdsSerial : Attribute → Bool
  | .closedClause | .ifPart | .thenPart | .elsePart
  | .casePart | .outPart | .whilePart | .doPart => true
  | _ => false

/- Whether there is one child, which may be any node. -/
def holdsUnit : Attribute → Bool
  | .particularProgram | .fromPart | .byPart | .toPart
  | .downtoPart | .untilPart | .dereferencing
  | .deproceduring | .cast | .widening | .voiding
  | .uniting | .identityDeclaration | .procedureDeclaration
  | .routineText => true
  | _ => false

/- The number of children of formulas and the like. -/
def childCount? : Attribute → Option Nat
  | .formula | .identityRelation => some 3
  | .monadicFormula | .slice | .selection
  | .assignation => some 2
  | _ => none

/-
  Whether a clause with these two parts and perhaps a third may have children of given attributes.
-/
def allowsParts (first second : Attribute) (tails kids : List Attribute) : Bool :=
  kids == [first, second] || tails.any fun tail => kids == [first, second, tail]

/-
  Whether a node may have children of given attributes. Where a unit, an operand or a source is
  asked for, any node will do. Without arguments a procedure is deprocedured, not called.
-/
def allows (attr : Attribute) (kids : List Attribute) : Bool :=
  if attr.holdsSerial then kids == [.serialClause]
  else if attr.holdsUnit then kids.length == 1
  else
    match attr with
    | .conditionalClause | .elifPart => allowsParts .ifPart .thenPart [.elsePart, .elifPart] kids
    | .caseClause | .ousePart => allowsParts .casePart .inPart [.outPart, .ousePart] kids
    | .loopClause =>
      kids.isSublist loopParts && kids.contains .doPart &&
        !(kids.contains .toPart && kids.contains .downtoPart)
    | .formula => kids.length == 3 && kids[1]? == some .operator
    | .monadicFormula => kids.length == 2 && kids[0]? == some .operator
    | .call => decide (1 < kids.length)
    | .slice => kids.length == 2 && kids[1]? == some .indexer
    | .selection => kids.length == 2 && kids[0]? == some .selector
    | .identityRelation => kids.length == 3 && (kids[1]? == some .is || kids[1]? == some .isnt)
    | .assignation => kids.length == 2
    | .variableDeclaration => decide (kids.length ≤ 1)
    | _ => true

end Attribute

------ Shapes

variable {tree : SyntaxTree} {id : NodeId} {node : Node}

namespace SyntaxTree

/- Every node has the children that its attribute asks for. -/
def IsShaped (tree : SyntaxTree) : Prop :=
  ∀ id node, tree.node id = .ok node → ∃ kids attrs, tree.children id = .ok kids ∧
      kids.mapM tree.attr = .ok attrs ∧ node.attr.allows attrs = true

/- The children of a clause with two parts and perhaps a tail. -/
private theorem parts_of_allowsParts
    (hParts : Attribute.allowsParts first second tails attrs = true)
    (hAttrs : List.Forall₂ (fun kid attr => tree.attr kid = .ok attr) kids attrs) :
    ∃ left right tail, kids = left :: right :: Option.toList tail ∧ tree.attr left = .ok first ∧
        tree.attr right = .ok second ∧ ∀ part ∈ tail, ∃ attr ∈ tails,
          tree.attr part = .ok attr := by
  simp only [Attribute.allowsParts, Bool.or_eq_true, beq_iff_eq, List.any_eq_true] at hParts
  rcases hParts with rfl | ⟨last, hLast, rfl⟩
  · obtain ⟨left, _, hLeft, hRest, rfl⟩ := List.forall₂_cons_right_iff.mp hAttrs
    obtain ⟨right, _, hRight, hNone, rfl⟩ := List.forall₂_cons_right_iff.mp hRest
    obtain rfl := List.forall₂_nil_right_iff.mp hNone
    exact ⟨left, right, none, rfl, hLeft, hRight, by simp⟩
  · obtain ⟨left, _, hLeft, hRest, rfl⟩ := List.forall₂_cons_right_iff.mp hAttrs
    obtain ⟨right, _, hRight, hTail, rfl⟩ := List.forall₂_cons_right_iff.mp hRest
    obtain ⟨part, _, hPart, hNone, rfl⟩ := List.forall₂_cons_right_iff.mp hTail
    obtain rfl := List.forall₂_nil_right_iff.mp hNone
    refine ⟨left, right, some part, rfl, hLeft, hRight, ?_⟩
    rintro other ⟨⟩
    exact ⟨last, hLast, hPart⟩

namespace IsShaped

variable (hShaped : tree.IsShaped) (hNode : tree.node id = .ok node)

include hShaped hNode

theorem exists_children : ∃ kids attrs, tree.children id = .ok kids ∧
      List.Forall₂ (fun kid attr => tree.attr kid = .ok attr)
        kids attrs ∧ node.attr.allows attrs = true := by
  obtain ⟨kids, attrs, hKids, hAttrs, hAllows⟩ := hShaped id node hNode
  exact ⟨kids, attrs, hKids, Walk.mapM_eq_ok.mp hAttrs, hAllows⟩

theorem children_ends : (tree.children id).Ends := by
  obtain ⟨kids, -, hKids, -⟩ := hShaped id node hNode
  exact ⟨kids, hKids⟩

theorem serialChild (hAttr : node.attr.holdsSerial = true) :
    ∃ serial, tree.children id = .ok [serial] ∧ tree.attr serial = .ok .serialClause := by
  obtain ⟨kids, attrs, hKids, hAttrs, hAllows⟩ := hShaped.exists_children hNode
  simp only [Attribute.allows, hAttr, if_true, beq_iff_eq] at hAllows
  subst hAllows
  obtain ⟨serial, rest, hSerial, hRest, rfl⟩ := List.forall₂_cons_right_iff.mp hAttrs
  obtain rfl := List.forall₂_nil_right_iff.mp hRest
  exact ⟨serial, hKids, hSerial⟩

theorem unitChild (hAttr : node.attr.holdsUnit = true) : ∃ kid, tree.children id = .ok [kid] := by
  obtain ⟨kids, attrs, hKids, hAttrs, hAllows⟩ := hShaped.exists_children hNode
  have hSerial : node.attr.holdsSerial = false := by
    cases hCase : node.attr <;> simp_all [Attribute.holdsUnit, Attribute.holdsSerial]
  simp only [Attribute.allows, hSerial, hAttr, if_true,
    Bool.false_eq_true, if_false, beq_iff_eq] at hAllows
  obtain ⟨kid, rfl⟩ := List.length_eq_one_iff.mp (hAttrs.length_eq.trans hAllows)
  exact ⟨kid, hKids⟩

/- A node with one child, which it was found to start with. -/
theorem children_eq_of_sub (hAttr : (node.attr.holdsUnit || node.attr.holdsSerial) = true)
    (hSub : node.sub = some kid) : tree.children id = .ok [kid] := by
  have hOnly : ∃ only, tree.children id = .ok [only] := by
    rcases Bool.or_eq_true_iff.mp hAttr with hUnit | hSerial
    · exact hShaped.unitChild hNode hUnit
    · rcases hShaped.serialChild hNode hSerial with ⟨serial, hKids, -⟩
      exact ⟨serial, hKids⟩
  rcases hOnly with ⟨only, hKids⟩
  have hHead := sub_eq_head? hNode hKids
  rw [hSub, List.head?_cons, Option.some.injEq] at hHead
  rw [hHead]
  exact hKids

theorem exists_children_length (hAttr : node.attr.childCount? = some count) :
    ∃ kids, tree.children id = .ok kids ∧ kids.length = count := by
  obtain ⟨kids, attrs, hKids, hAttrs, hAllows⟩ := hShaped.exists_children hNode
  refine ⟨kids, hKids, hAttrs.length_eq.trans ?_⟩
  cases hCase : node.attr <;>
    simp_all [Attribute.childCount?, Attribute.allows, Attribute.holdsSerial, Attribute.holdsUnit]

theorem conditionalChildren (hAttr : node.attr = .conditionalClause ∨ node.attr = .elifPart) :
    ∃ ifPart thenPart tail, tree.children id = .ok (ifPart :: thenPart :: Option.toList tail) ∧
        tree.attr ifPart = .ok .ifPart ∧ tree.attr thenPart = .ok .thenPart ∧
        ∀ part ∈ tail, tree.attr part = .ok .elsePart ∨ tree.attr part = .ok .elifPart := by
  obtain ⟨kids, attrs, hKids, hAttrs, hAllows⟩ := hShaped.exists_children hNode
  have hParts : Attribute.allowsParts .ifPart .thenPart [.elsePart, .elifPart] attrs = true := by
    rcases hAttr with hAttr | hAttr <;>
      simpa [hAttr, Attribute.allows, Attribute.holdsSerial, Attribute.holdsUnit] using hAllows
  obtain ⟨ifPart, thenPart, tail, rfl, hIf, hThen, hTail⟩ := parts_of_allowsParts hParts hAttrs
  refine ⟨ifPart, thenPart, tail, hKids, hIf, hThen, ?_⟩
  simpa using hTail

theorem caseChildren (hAttr : node.attr = .caseClause ∨ node.attr = .ousePart) :
    ∃ casePart inPart tail, tree.children id = .ok (casePart :: inPart :: Option.toList tail) ∧
        tree.attr casePart = .ok .casePart ∧ tree.attr inPart = .ok .inPart ∧
        ∀ part ∈ tail, tree.attr part = .ok .outPart ∨ tree.attr part = .ok .ousePart := by
  obtain ⟨kids, attrs, hKids, hAttrs, hAllows⟩ := hShaped.exists_children hNode
  have hParts : Attribute.allowsParts .casePart .inPart [.outPart, .ousePart] attrs = true := by
    rcases hAttr with hAttr | hAttr <;>
      simpa [hAttr, Attribute.allows, Attribute.holdsSerial, Attribute.holdsUnit] using hAllows
  obtain ⟨casePart, inPart, tail, rfl, hCase, hIn, hTail⟩ := parts_of_allowsParts hParts hAttrs
  refine ⟨casePart, inPart, tail, hKids, hCase, hIn, ?_⟩
  simpa using hTail

theorem loopChildren (hAttr : node.attr = .loopClause) :
    ∃ kids, tree.children id = .ok kids ∧ (∀ kid ∈ kids, ∃ attr ∈ Attribute.loopParts,
        tree.attr kid = .ok attr) ∧
      ∃ kid ∈ kids, tree.attr kid = .ok .doPart := by
  obtain ⟨kids, attrs, hKids, hAttrs, hAllows⟩ := hShaped.exists_children hNode
  simp only [Attribute.allows, hAttr, Attribute.holdsSerial,
    Attribute.holdsUnit, Bool.false_eq_true, if_false, Bool.and_eq_true, List.isSublist_iff_sublist,
    List.contains_iff_mem] at hAllows
  obtain ⟨⟨hParts, hBody⟩, -⟩ := hAllows
  refine ⟨kids, hKids, ?_, ?_⟩
  · intro kid hKid
    obtain ⟨attr, hMem, hKidAttr⟩ := Walk.exists_of_forall₂ hAttrs.flip hKid
    exact ⟨attr, hParts.subset hMem, hKidAttr⟩
  · obtain ⟨kid, hKid, hKidAttr⟩ := Walk.exists_of_forall₂ hAttrs hBody
    exact ⟨kid, hKid, hKidAttr⟩

end IsShaped

end SyntaxTree

------ Ranges

/- The handles of a node are in range. -/
structure Node.IsInRange (node : Node) (tree : SyntaxTree) : Prop where
  sub : ∀ id ∈ node.sub, id.number < tree.nodes.size
  next : ∀ id ∈ node.next, id.number < tree.nodes.size
  mode : ∀ mode ∈ node.mode, mode.number < tree.modes.size
  tag : ∀ tag ∈ node.tag, tag.number < tree.tags.size
  table : ∀ table ∈ node.table, table.number < tree.tables.size

/- The handles of a tag are in range. -/
structure Tag.IsInRange (tag : Tag) (tree : SyntaxTree) : Prop where
  mode : tag.mode.number < tree.modes.size
  value : ∀ id ∈ tag.value, id.number < tree.nodes.size
  body : ∀ id ∈ tag.body, id.number < tree.nodes.size

namespace SyntaxTree

/- All handles that a tree holds are in range. -/
structure IsInRange (tree : SyntaxTree) : Prop where
  root : ∀ id ∈ tree.root, id.number < tree.nodes.size
  nodes : ∀ id node, tree.node id = .ok node → node.IsInRange tree
  tags : ∀ id tag, tree.tags.fetch id = .ok tag → tag.IsInRange tree
  modes : tree.modes.IsInRange

------ Conforming Trees

/-
  A tree with handles in range, links that form a forest, the children that attributes ask for,
  and identifiers of their tags' modes.
-/
structure IsRegular (tree : SyntaxTree) : Prop where
  inRange : tree.IsInRange
  forest : tree.IsForest
  shaped : tree.IsShaped
  named : ∀ id node, tree.node id = .ok node → node.attr = .identifier →
      ∃ tag entry, node.tag = some tag ∧ tree.tags.fetch tag = .ok entry ∧
          node.mode = some entry.mode

/- A tree as mode checking leaves it, with a root. -/
structure Conforms (tree : SyntaxTree) : Prop extends tree.IsRegular where
  rooted : tree.root.isSome
  modes : tree.modes.IsSound

namespace IsInRange

variable (hTree : tree.IsInRange)

include hTree

theorem mode_lt (hNode : tree.node id = .ok node) (hMode : node.mode = some mode) :
    mode.number < tree.modes.size :=
  (hTree.nodes id node hNode).mode mode hMode

theorem mode?_lt (hMode : tree.mode? id = .ok (some mode)) : mode.number < tree.modes.size := by
  rcases Walk.bind_eq_ok.mp hMode with ⟨node, hNode, hFound⟩
  exact hTree.mode_lt hNode (Except.ok.inj hFound)

theorem tagMode_lt (hTag : tree.tags.fetch tag = .ok entry) : entry.mode.number < tree.modes.size :=
  (hTree.tags tag entry hTag).mode

theorem tag_ends (hNode : tree.node id = .ok node) (hTag : node.tag = some tag) :
    (tree.tags.fetch tag).Ends :=
  Store.exists_fetch ((hTree.nodes id node hNode).tag tag hTag)

theorem tag?_ends (hNode : (tree.node id).Ends) : (tree.tag? id).Ends := by
  refine .bind hNode ?_
  intro found hFound
  cases hTag : found.tag with
  | none => exact .of_pure
  | some tag => exact .bind (hTree.tag_ends hFound hTag) fun _ _ => .of_pure

theorem builtin?_ends (hNode : (tree.node id).Ends) : (tree.builtin? id).Ends := by
  refine .bind (hTree.tag?_ends hNode) ?_
  rintro (_ | tag) _ <;> exact .of_pure

theorem table?_ends (hNode : (tree.node id).Ends) : (tree.table? id).Ends := by
  refine .bind hNode ?_
  intro found hFound
  cases hTable : found.table with
  | none => exact .of_pure
  | some table =>
    refine .bind (Store.exists_fetch ?_) fun _ _ => .of_pure
    exact (hTree.nodes id found hFound).table table hTable

theorem value_exists (hTag : tree.tags.fetch tag = .ok entry) (hVal : entry.value = some val) :
    (tree.node val).Ends :=
  Store.exists_fetch ((hTree.tags tag entry hTag).value val hVal)

end IsInRange

------ Finite Trees

open Relation

/- Links that lead to nodes, and never back. -/
structure IsLinked (tree : SyntaxTree) : Prop where
  leads : ∀ id other, tree.Link id other → (tree.node other).Ends
  acyclic : ∀ id, ¬ TransGen tree.Link id id

/- A tree with handles in range, and links that never lead back. -/
structure IsFinite (tree : SyntaxTree) : Prop where
  inRange : tree.IsInRange
  acyclic : ∀ id, ¬ TransGen tree.Link id id

theorem IsFinite.isLinked (hTree : tree.IsFinite) : tree.IsLinked := by
  refine ⟨?_, hTree.acyclic⟩
  rintro id other ⟨node, hNode, hSub | hNext⟩
  · exact Store.exists_fetch ((hTree.inRange.nodes id node hNode).sub other hSub)
  · exact Store.exists_fetch ((hTree.inRange.nodes id node hNode).next other hNext)

namespace IsRegular

variable (hTree : tree.IsRegular)

include hTree

theorem isFinite : tree.IsFinite := ⟨hTree.inRange, hTree.forest.acyclic⟩

theorem isLinked : tree.IsLinked := hTree.isFinite.isLinked

theorem children_ends (hNode : tree.node id = .ok node) : (tree.children id).Ends :=
  hTree.shaped.children_ends hNode

end IsRegular

/- A node of the tree that is below another. -/
structure IsPart (tree : SyntaxTree) (id part : NodeId) : Prop where
  exists_node : ∃ node, tree.node part = .ok node
  rank_lt : tree.rank part < tree.rank id

theorem IsPart.trans (hPart : tree.IsPart id part) (hDeeper : tree.IsPart part deeper) :
    tree.IsPart id deeper :=
  ⟨hDeeper.exists_node, hDeeper.rank_lt.trans hPart.rank_lt⟩

namespace IsLinked

variable (hTree : tree.IsLinked)

include hTree

theorem isPart_of_path (hPath : TransGen tree.Link id other) : tree.IsPart id other := by
  rcases TransGen.tail'_iff.mp hPath with ⟨last, -, hLink⟩
  rcases hTree.leads last other hLink with ⟨node, hNode⟩
  exact ⟨⟨node, hNode⟩, Handle.reachCount_lt hPath (hTree.acyclic other)
    (Store.lt_size_of_fetch hNode)⟩

/- There are no more siblings than nodes below what leads to them. -/
theorem exists_siblings (hFirst : ∀ head ∈ first, tree.Link id head) :
    ∃ ids, tree.Siblings first ids ∧ ids.length ≤ tree.rank id := by
  induction hRank : tree.rank id using Nat.strong_induction_on generalizing id first with
  | _ rank ih =>
    cases first with
    | none => exact ⟨[], rfl, Nat.zero_le _⟩
    | some head =>
      have hPart := hTree.isPart_of_path (.single (hFirst head rfl))
      rcases hPart.exists_node with ⟨node, hNode⟩
      have hLess : tree.rank head < rank := hRank ▸ hPart.rank_lt
      rcases ih _ hLess (fun next hNext => ⟨node, hNode, .inr hNext⟩) rfl with ⟨rest, hRest, hLen⟩
      exact ⟨head :: rest, ⟨rfl, node, hNode, hRest⟩, by rw [List.length_cons]; omega⟩

theorem exists_children (hNode : tree.node id = .ok node) :
    ∃ kids, tree.children id = .ok kids ∧ kids.length < tree.bound := by
  rcases hTree.exists_siblings fun head hHead => ⟨node, hNode, .inl hHead⟩ with ⟨kids, hKids, hLen⟩
  have hBound := hLen.trans_lt (tree.rank_lt_bound id)
  exact ⟨kids, children_eq_ok.mpr ⟨node, hNode, hKids, hBound.le⟩, hBound⟩

theorem children_ends (hNode : (tree.node id).Ends) : (tree.children id).Ends := by
  rcases hNode with ⟨node, hNode⟩
  rcases hTree.exists_children hNode with ⟨kids, hKids, -⟩
  exact ⟨kids, hKids⟩

theorem isPart_of_child (hKids : tree.children id = .ok kids) (hKid : other ∈ kids) :
    tree.IsPart id other :=
  hTree.isPart_of_path (path_of_child hKids hKid)

theorem isPart_of_sub (hNode : tree.node id = .ok node) (hSub : node.sub = some other) :
    tree.IsPart id other :=
  hTree.isPart_of_path (.single ⟨node, hNode, .inl hSub⟩)

end IsLinked

end SyntaxTree

end Algol68
