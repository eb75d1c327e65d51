import Algol68.Proofs.Judgement

/-
  The answers of the classifier.

  A unit leads to its parts, which have a lower rank, or to the source of an identity declaration,
  whose tag is then being followed and is not followed again. The weight of a query at a unit goes
  down in both cases and stays below the bound of walks, so that every question is answered on a
  tree with finite links. Of the tier the classifier reads only how it compares with those of the
  shapes. So one walk over the shapes tells that there is an answer, and what a change of depth
  and what a change of tier makes of it.
-/

------ Walks That Go Along

namespace Algol68

namespace Walk

/- What is kept of a walk. -/
inductive Extent
  /- All that becomes of it. -/
  | all
  /- Its answers. -/
  | answers
  /- What it accepts. -/
  | accepts

/- The outcomes that are kept. -/
def Extent.covers : Extent → Walk Bool → Prop
  | .all, _ => True
  | .answers, outcome => outcome.Ends
  | .accepts, outcome => outcome = .ok true

theorem Extent.covers_true (extent : Extent) : extent.covers (.ok true) := by
  cases extent with
  | all => trivial
  | answers => exact ⟨true, rfl⟩
  | accepts => rfl

/- The first walk ends if it must, and the second one keeps what is kept of the first one. -/
structure Follows (total : Prop) (extent : Extent) (first second : Walk Bool) : Prop where
  ends : total → first.Ends
  keeps : extent.covers first → second = first

namespace Follows

theorem of_ends (hWalk : total → walk.Ends) : Follows total extent walk walk :=
  ⟨hWalk, fun _ => rfl⟩

theorem of_pure : Follows total extent (pure val) (pure val) := of_ends fun _ => .of_pure

theorem settled (hFollows : Follows True .all first second) : first.Ends := hFollows.ends trivial

theorem answer (hFollows : Follows total .answers first second) (hFirst : first = .ok value) :
    second = .ok value :=
  (hFollows.keeps ⟨value, hFirst⟩).trans hFirst

theorem accept (hFollows : Follows total extent first second) (hFirst : first = .ok true) :
    second = .ok true := by
  subst hFirst
  exact hFollows.keeps extent.covers_true

theorem rest {left : α → Walk Bool} (hWalk : total → walk.Ends)
    (hRest : ∀ val, walk = .ok val → Follows total extent (left val) (right val)) :
    Follows total extent (walk >>= left) (walk >>= right) where
  ends := fun hTotal => .bind (hWalk hTotal) fun val hVal => (hRest val hVal).ends hTotal
  keeps := by
    cases walk with
    | ok val => exact (hRest val rfl).keeps
    | error fault => exact fun _ => rfl

theorem and (hFirst : Follows total extent first second)
    (hRest : first = .ok true → Follows total extent left right) :
    Follows total extent (first.and left) (second.and right) where
  ends := fun hTotal => .and (hFirst.ends hTotal) fun hYes => (hRest hYes).ends hTotal
  keeps := by
    intro hCovers
    rcases first with fault | _ | _
    · rw [hFirst.keeps hCovers]
      rfl
    · rw [hFirst.keeps hCovers]
      rfl
    · rw [hFirst.keeps extent.covers_true]
      exact (hRest rfl).keeps hCovers

/- An answer that must be yes for the whole to be accepted. -/
theorem bind (hFirst : Follows total extent first second)
    (hRest : ∀ val, Follows total extent (left val) (right val)) (hFalse : left false ≠ .ok true) :
    Follows total extent (first >>= left) (second >>= right) where
  ends := fun hTotal => .bind (hFirst.ends hTotal) fun val _ => (hRest val).ends hTotal
  keeps := by
    intro hCovers
    rcases first with fault | _ | _
    · rw [hFirst.keeps hCovers]
      rfl
    · have hHere : extent.covers (.ok false) := by
        cases extent with
        | all => trivial
        | answers => exact ⟨false, rfl⟩
        | accepts => exact absurd hCovers hFalse
      rw [hFirst.keeps hHere]
      exact (hRest false).keeps hCovers
    · rw [hFirst.keeps extent.covers_true]
      exact (hRest true).keeps hCovers

theorem ite [Decidable condition] (hYes : condition → Follows total extent first second)
    (hNo : ¬ condition → Follows total extent left right) :
    Follows total extent (if condition then first else left)
      (if condition then second else right) := by
  split
  · exact hYes ‹_›
  · exact hNo ‹_›

theorem when [Decidable condition] (hYes : condition → Follows total extent first second) :
    Follows total extent (if condition then first else pure false)
      (if condition then second else pure false) :=
  .ite hYes fun _ => .of_pure

/- What is asked under a condition that may get weaker. -/
theorem gate [Decidable low] [Decidable high] (hUp : low → high)
    (hDown : extent ≠ .accepts → high → low) (hYes : Follows total extent first second) :
    Follows total extent (if low then first else pure false)
      (if high then second else pure false) := by
  by_cases hLow : low
  · rw [if_pos hLow, if_pos (hUp hLow)]
    exact hYes
  · rw [if_neg hLow]
    refine ⟨fun _ => .of_pure, fun hCovers => ?_⟩
    have hNot : ¬ high := by
      intro hHigh
      refine hLow (hDown ?_ hHigh)
      rintro rfl
      cases hCovers
    rw [if_neg hNot]

theorem holdsOf
    (hAnswer : ∀ found ∈ val, Follows total extent (left found) (right found)) :
    Follows total extent (Walk.holdsOf val left) (Walk.holdsOf val right) := by
  cases val with
  | none => exact .of_pure
  | some found => exact hAnswer found rfl

theorem allM {members : List α}
    (hTest : ∀ member ∈ members, Follows total extent (left member) (right member)) :
    Follows total extent (members.allM left) (members.allM right) := by
  induction members with
  | nil => exact .of_pure
  | cons first rest ih =>
    apply (hTest first List.mem_cons_self).bind
    · intro answer
      cases answer with
      | true => exact ih fun member hMem => hTest member (List.mem_cons_of_mem _ hMem)
      | false => exact .of_pure
    · intro hYes
      cases hYes

end Follows

end Walk

------ Reading Parts

variable {tree : SyntaxTree} {id : NodeId}

namespace SyntaxTree

open Walk

section Parts

variable (hTree : total → tree.IsFinite) (hNode : total → (tree.node id).Ends)

include hTree hNode

theorem children_follows (hRest : ∀ kids, (∀ kid ∈ kids, total → tree.IsPart id kid) →
      Follows total extent (left kids) (right kids)) :
    Follows total extent (tree.children id >>= left) (tree.children id >>= right) := by
  refine .rest (fun hTotal => (hTree hTotal).isLinked.children_ends (hNode hTotal)) ?_
  intro kids hKids
  exact hRest kids fun kid hKid hTotal => (hTree hTotal).isLinked.isPart_of_child hKids hKid

theorem firstChildren_follows (hRest : ∀ kids, (∀ kid ∈ kids, total → tree.IsPart id kid) →
      Follows total extent (left kids) (right kids)) :
    Follows total extent (tree.firstChildren id count >>= left)
      (tree.firstChildren id count >>= right) := by
  have hAll := fun hTotal => (hTree hTotal).isLinked.children_ends (hNode hTotal)
  refine .rest (fun hTotal => (hAll hTotal).elim fun _ hKids =>
    ⟨_, firstChildren_eq hKids count⟩) ?_
  intro kids hFound
  refine hRest kids fun kid hKid hTotal => ?_
  rcases hAll hTotal with ⟨all, hKids⟩
  rw [firstChildren_eq hKids, Except.ok.injEq] at hFound
  subst hFound
  exact (hTree hTotal).isLinked.isPart_of_child hKids (List.mem_of_mem_take hKid)

theorem child?_follows (hRest : ∀ found, (∀ kid ∈ found, total → tree.IsPart id kid) →
      Follows total extent (left found) (right found)) :
    Follows total extent (tree.child? id pos >>= left) (tree.child? id pos >>= right) := by
  unfold child?
  rw [bind_assoc, bind_assoc]
  refine firstChildren_follows hTree hNode ?_
  intro kids hParts
  exact hRest _ fun kid hKid => hParts kid (List.mem_of_getElem? hKid)

theorem sub?_follows (hRest : ∀ found, (∀ kid ∈ found, total → tree.IsPart id kid) →
      Follows total extent (left found) (right found)) :
    Follows total extent (tree.sub? id >>= left) (tree.sub? id >>= right) := by
  unfold sub?
  rw [bind_assoc, bind_assoc]
  refine .rest hNode ?_
  intro node hFound
  exact hRest _ fun kid hKid hTotal => (hTree hTotal).isLinked.isPart_of_sub hFound hKid

end Parts

------ Labels

namespace IsFinite

variable (hTree : tree.IsFinite)

include hTree

theorem hasLabelsWithin_ends (hNode : (tree.node id).Ends) (hFuel : tree.rank id < fuel) :
    (tree.hasLabelsWithin fuel id).Ends := by
  induction fuel generalizing id with
  | zero => omega
  | succ fuel ih =>
    rcases hTree.isLinked.children_ends hNode with ⟨kids, hKids⟩
    rcases children_eq_ok.mp hKids with ⟨_, hSame, hSibs, hLen⟩
    simp only [hasLabelsWithin, sub?, hSame, Walk.ok_bind,
      Walk.pure_eq_ok, hSibs.anySibling_eq _ hLen]
    refine .anyM ?_
    intro kid hKid
    have hPart := hTree.isLinked.isPart_of_child hKids hKid
    have hRank := hPart.rank_lt
    refine .bind hPart.exists_node ?_
    intro found _
    split
    · exact .of_pure
    · exact .of_pure
    · exact ih hPart.exists_node (by omega)

theorem hasLabels_ends (hNode : (tree.node id).Ends) : (tree.hasLabels id).Ends :=
  hTree.hasLabelsWithin_ends hNode (tree.rank_lt_bound id)

end IsFinite

end SyntaxTree

------ Tiers

variable {node : Node} {query : Query}

namespace Classifier

open Walk SyntaxTree

/- A tier admits the shapes that another one admits, and no more if refusals are to be kept. -/
structure Climbs (extent : Extent) (tier higher : Nat) : Prop where
  up : min tier Tier.clauses ≤ min higher Tier.clauses
  down : extent ≠ .accepts → min higher Tier.clauses ≤ min tier Tier.clauses

theorem Climbs.refl (tier : Nat) : Climbs extent tier tier :=
  ⟨Nat.le_refl _, fun _ => Nat.le_refl _⟩

/- What is asked only from a tier on. -/
theorem Climbs.gate (hClimbs : Climbs extent tier higher) (hLeast : least ≤ Tier.clauses)
    (hYes : Follows total extent first second) :
    Follows total extent (if least ≤ tier then first else pure false)
      (if least ≤ higher then second else pure false) := by
  refine .gate ?_ ?_ hYes
  · have hUp := hClimbs.up
    omega
  · intro hExtent
    have hDown := hClimbs.down hExtent
    omega

/- The query at another tier. -/
abbrev Query.on (query : Query) (tier : Nat) : Query := { query with tier := tier }

theorem Climbs.basic (hClimbs : Climbs extent query.tier higher) (hLeast : least ≤ Tier.clauses)
    (hYes : Follows total extent first second) :
    Follows total extent (if query.isBasicAt least then first else pure false)
      (if (query.on higher).isBasicAt least then second
      else pure false) := by
  rcases query with ⟨_ | _, _, _⟩
  · simpa [Query.isBasicAt] using hClimbs.gate hLeast hYes
  · exact .of_pure

theorem Climbs.admitted (hClimbs : Climbs extent query.tier higher) (hLeast : least ≤ Tier.clauses)
    (hYes : Follows total extent first second) :
    Follows total extent (if query.admits least then first else pure false)
      (if (query.on higher).admits least then second
      else pure false) := by
  rcases query with ⟨_ | _, _, _⟩
  · simpa [Query.admits] using hClimbs.gate hLeast hYes
  · exact hYes

------ Shapes without Units in Them

section Reading

variable (hTree : tree.IsFinite) (hNode : (tree.node id).Ends)

include hTree hNode

theorem isValueName_ends : (isValueName tree id).Ends := by
  refine .bind (hTree.inRange.tag?_ends hNode) ?_
  rintro (_ | tag) _ <;> exact .of_pure

theorem isKnownOperator_ends : (isKnownOperator tree query id).Ends := by
  refine .bind (hTree.inRange.builtin?_ends hNode) ?_
  rintro (_ | builtin) _ <;> exact .of_pure

theorem isReferenceName_ends : (isReferenceName tree id).Ends := by
  refine .bind hNode ?_
  intro found hFound
  split
  · exact ModeTable.isRef_ends (hTree.inRange.mode_lt hFound ‹_›)
  · exact .of_pure

omit hNode

theorem deproceduring_ends (hNode : tree.node id = .ok node) : (deproceduring tree node).Ends := by
  unfold deproceduring
  split
  · rename_i op hSub
    refine .bind (hTree.inRange.builtin?_ends
      (hTree.isLinked.isPart_of_sub hNode hSub).exists_node) ?_
    rintro (_ | builtin) _ <;> exact .of_pure
  · exact .of_pure

theorem hasBasicElements_ends (hMode : mode.number < tree.modes.size) :
    (hasBasicElements tree mode).Ends := by
  refine .bind (hTree.inRange.modes.rowElement?_ends hMode) ?_
  intro found hFound
  refine .holdsOf ?_
  rintro elem rfl
  have hElem := hTree.inRange.modes.rowElement_lt hFound
  refine .and (hTree.inRange.modes.isBasicNonRow_ends hElem) ?_
  intro _
  exact (ModeTable.isRef_ends hElem).not

end Reading

theorem isWidening_ends (hSrc : source.number < tree.modes.size)
    (hTarget : target.number < tree.modes.size) : (isWidening tree source target).Ends := by
  refine .bind (ModeTable.kind_ends hSrc) ?_
  intro sourceKind _
  refine .bind (ModeTable.kind_ends hTarget) ?_
  intro targetKind _
  split <;> exact .of_pure

section Names

variable (hTree : total → tree.IsFinite) (hNode : total → (tree.node id).Ends)

include hTree hNode

theorem selection_follows : Follows total extent (selection tree id) (selection tree id) := by
  refine firstChildren_follows hTree hNode ?_
  intro kids hParts
  split
  · rename_i sel secondary
    refine .rest (fun hTotal => (hParts secondary (by simp) hTotal).exists_node) ?_
    intro named hNamed
    split
    · rename_i mode _ hMode
      refine .of_ends fun hTotal => ?_
      have hModes := (hTree hTotal).inRange.modes
      have hRange := (hTree hTotal).inRange.mode_lt hNamed hMode
      refine .bind (ModeTable.deref?_ends hRange) ?_
      intro target hTarget
      have hObj : (target.getD mode).number < tree.modes.size := by
        cases target with
        | none => exact hRange
        | some object => exact hModes.deref_lt hTarget
      refine .and (hModes.isBasicStruct_ends hObj) ?_
      intro _
      refine .bind (hParts sel (by simp) hTotal).exists_node ?_
      intro other _
      exact .bind (ModeTable.field?_ends hObj _) fun _ _ => .of_pure
    · exact .of_pure
  · exact .of_pure

theorem identityRelation_follows :
    Follows total extent (identityRelation tree id) (identityRelation tree id) := by
  refine firstChildren_follows hTree hNode ?_
  intro kids hParts
  split
  · rename_i left _ right
    refine .of_ends fun hTotal => ?_
    have hLeft := (hParts left (by simp) hTotal).exists_node
    have hRight := (hParts right (by simp) hTotal).exists_node
    have hLeftName := isReferenceName_ends (hTree hTotal) hLeft
    have hRightName := isReferenceName_ends (hTree hTotal) hRight
    have hLeftNil : (tree.is left .nihil).Ends := .bind hLeft fun _ _ => .of_pure
    have hRightNil : (tree.is right .nihil).Ends := .bind hRight fun _ _ => .of_pure
    refine .or (.and hLeftName fun _ => .or hRightName fun _ => hRightNil) ?_
    intro _
    exact .and hLeftNil fun _ => hRightName
  · exact .of_pure

end Names

------ Shapes Made of Units

/-
  One judge answers for the parts of a node and for the source of every declaration that is not
  followed yet, if it must, and another one keeps what is kept of its answers.
-/
structure FollowsBelow (tree : SyntaxTree) (total : Prop) (extent : Extent) (shallow deep : Judge)
    (query : Query) (id : NodeId) : Prop where
  parts : ∀ asked higher part, asked.active = query.active → Climbs extent asked.tier higher →
      (total → tree.IsPart id part) →
        Follows total extent (shallow asked part) (deep (asked.on higher) part)
  sources : ∀ tag source, tag ∉ query.active → tag.number < tree.tags.size →
      (total → (tree.node source).Ends) →
        Follows total extent (shallow (query.following tag) source)
          (deep (query.following tag) source)

section Shapes

variable (hTree : total → tree.IsFinite)
variable (hBelow : FollowsBelow tree total extent shallow deep query id)
variable (hClimbs : Climbs extent query.tier higher)

include hBelow

theorem FollowsBelow.of_part (hPart : total → tree.IsPart id part) :
    FollowsBelow tree total extent shallow deep query part where
  parts := fun asked higher deeper hActive hClimbs hDeeper =>
    hBelow.parts asked higher deeper hActive hClimbs fun hTotal =>
      (hPart hTotal).trans (hDeeper hTotal)
  sources := hBelow.sources

include hClimbs in
theorem FollowsBelow.part {part : NodeId} (hPart : total → tree.IsPart id part) :
    Follows total extent (shallow query part) (deep (query.on higher) part) :=
  hBelow.parts query higher part rfl hClimbs hPart

include hTree

theorem identifier_follows (hNode : tree.node id = .ok node) :
    Follows total extent (identifier tree shallow query node)
      (identifier tree deep (query.on higher) node) := by
  unfold identifier
  dsimp only
  split
  · exact .of_pure
  · rename_i tag hTag
    refine .rest (fun hTotal => (hTree hTotal).inRange.tag_ends hNode hTag) ?_
    intro entry hEntry
    split
    · exact .of_pure
    · exact .of_pure
    · split
      · rename_i source _ hSrc
        refine .ite (fun _ => .of_pure) ?_
        intro hFresh
        exact hBelow.sources tag source (by simpa using hFresh) (Store.lt_size_of_fetch hEntry)
          fun hTotal => (hTree hTotal).inRange.value_exists hEntry hSrc
      · exact .of_pure

section Nodes

variable (hNode : total → (tree.node id).Ends)

include hNode hClimbs

theorem formula_follows : Follows total extent (formula tree shallow query id)
      (formula tree deep (query.on higher) id) := by
  refine firstChildren_follows hTree hNode ?_
  intro kids hParts
  split
  · rename_i left operator right
    refine .and (.of_ends fun hTotal => isKnownOperator_ends (hTree hTotal)
      (hParts operator (by simp) hTotal).exists_node) ?_
    intro _
    refine .and (hBelow.part hClimbs (hParts left (by simp))) ?_
    intro _
    exact hBelow.part hClimbs (hParts right (by simp))
  · exact .of_pure

theorem monadicFormula_follows : Follows total extent (monadicFormula tree shallow query id)
      (monadicFormula tree deep (query.on higher) id) := by
  refine firstChildren_follows hTree hNode ?_
  intro kids hParts
  split
  · rename_i operator op
    refine .and (.of_ends fun hTotal => isKnownOperator_ends (hTree hTotal)
      (hParts operator (by simp) hTotal).exists_node) ?_
    intro _
    exact hBelow.part hClimbs (hParts op (by simp))
  · exact .of_pure

theorem call_follows :
    Follows total extent (call tree shallow query id) (call tree deep (query.on higher) id) := by
  refine firstChildren_follows hTree hNode ?_
  intro kids hParts
  split
  · rename_i callee
    refine .rest (fun hTotal => (hTree hTotal).inRange.builtin?_ends
      (hParts callee (by simp) hTotal).exists_node) ?_
    rintro (_ | builtin) _
    · exact .of_pure
    · refine .ite (fun _ => .of_pure) ?_
      intro _
      refine children_follows hTree hNode ?_
      intro all hAll
      refine .when fun _ => .allM ?_
      intro arg hArg
      exact hBelow.part hClimbs (hAll arg (List.mem_of_mem_tail hArg))
  · exact .of_pure

theorem indexer_follows : Follows total extent (indexer tree shallow query id)
      (indexer tree deep (query.on higher) id) := by
  have hLow : Climbs extent (min query.tier Tier.units) (min higher Tier.units) := by
    constructor
    · have hUp := hClimbs.up
      omega
    · intro hExtent
      have hDown := hClimbs.down hExtent
      omega
  refine .rest hNode ?_
  intro node _
  refine .when fun _ => children_follows hTree hNode ?_
  intro indices hParts
  refine .allM ?_
  intro index hIdx
  have hPart := hParts index hIdx
  refine .rest (fun hTotal => (hPart hTotal).exists_node) ?_
  intro inner _
  exact .when fun _ => hBelow.parts query.ofIndices _ index rfl hLow hPart

theorem slice_follows :
    Follows total extent (slice tree shallow query id) (slice tree deep (query.on higher) id) := by
  refine firstChildren_follows hTree hNode ?_
  intro kids hParts
  split
  · rename_i primary index
    refine .rest (fun hTotal => (hParts primary (by simp) hTotal).exists_node) ?_
    intro named hNamed
    split
    · rename_i mode _ hMode
      refine .rest (fun hTotal => hasBasicElements_ends (hTree hTotal)
        ((hTree hTotal).inRange.mode_lt hNamed hMode)) ?_
      intro elems _
      refine .rest (fun hTotal => .bind (hNode hTotal) fun _ _ => .of_pure) ?_
      intro whole hWhole
      refine .rest (fun hTotal => .holdsOf ?_) ?_
      · rintro found rfl
        exact (hTree hTotal).inRange.modes.isBasicNonRow_ends
          ((hTree hTotal).inRange.mode?_lt hWhole)
      · intro _ _
        have hIdx := hParts index (by simp)
        exact .when fun _ => indexer_follows hTree (hBelow.of_part hIdx) hClimbs
          fun hTotal => (hIdx hTotal).exists_node
    · exact .of_pure
  · exact .of_pure

theorem destination_follows (hMode : total → mode.number < tree.modes.size) :
    Follows total extent (destination tree shallow query id mode)
      (destination tree deep (query.on higher) id mode) := by
  refine .rest (fun hTotal => .bind (hNode hTotal) fun _ _ => .of_pure) ?_
  intro attr _
  split
  · refine .of_ends fun hTotal => .and ((hTree hTotal).inRange.modes.isBasic_ends (hMode hTotal)) ?_
    intro _
    exact isValueName_ends (hTree hTotal) (hNode hTotal)
  · exact slice_follows hTree hBelow hClimbs hNode
  · exact selection_follows hTree hNode
  · exact .of_pure

theorem assignation_follows : Follows total extent (assignation tree shallow query id)
      (assignation tree deep (query.on higher) id) := by
  refine firstChildren_follows hTree hNode ?_
  intro kids hParts
  split
  · rename_i target source
    have hTarget := hParts target (by simp)
    have hSrc := hParts source (by simp)
    have hModes : ∀ part, (total → tree.IsPart id part) → total → (tree.mode? part).Ends :=
      fun _ hPart hTotal => .bind (hPart hTotal).exists_node fun _ _ => .of_pure
    refine .rest (hModes target hTarget) ?_
    intro targetMode hTargetMode
    refine .rest (hModes source hSrc) ?_
    intro sourceMode hSourceMode
    split
    · have hRange := fun hTotal => (hTree hTotal).inRange.mode?_lt hTargetMode
      refine .rest (fun hTotal => ModeTable.deref?_ends (hRange hTotal)) ?_
      intro object _
      refine .when fun _ => .and (.of_ends fun hTotal =>
        (hTree hTotal).inRange.modes.isBasicNonRow_ends
          ((hTree hTotal).inRange.mode?_lt hSourceMode)) ?_
      intro _
      refine .and (destination_follows hTree (hBelow.of_part hTarget) hClimbs
        (fun hTotal => (hTarget hTotal).exists_node) hRange) ?_
      intro _
      exact hBelow.part hClimbs hSrc
    · exact .of_pure
  · exact .of_pure

theorem singleUnit_follows : Follows total extent (singleUnit tree shallow query id)
      (singleUnit tree deep (query.on higher) id) := by
  refine .rest (fun hTotal => .bind (hNode hTotal) fun _ _ => .of_pure) ?_
  intro attr _
  refine .when fun _ => .and (.of_ends fun hTotal =>
    ((hTree hTotal).hasLabels_ends (hNode hTotal)).not) ?_
  intro _
  refine firstChildren_follows hTree hNode ?_
  intro kids hParts
  split
  · rename_i only
    have hPart := hParts only (by simp)
    refine .rest (fun hTotal => .bind (hPart hTotal).exists_node fun _ _ => .of_pure) ?_
    intro attr _
    exact .ite (fun _ => .of_pure) fun _ => hBelow.part hClimbs hPart
  · exact .of_pure

theorem collateral_follows : Follows total extent (collateral tree shallow query id)
      (collateral tree deep (query.on higher) id) := by
  refine .rest (fun hTotal => .bind (hNode hTotal) fun _ _ => .of_pure) ?_
  intro found hFound
  split
  · exact .of_pure
  · have hMode := fun hTotal => (hTree hTotal).inRange.mode?_lt hFound
    refine .and (.of_ends fun hTotal =>
      (hTree hTotal).inRange.modes.isBasicStruct_ends (hMode hTotal)) ?_
    intro _
    refine .rest (fun hTotal => ModeTable.kind_ends (hMode hTotal)) ?_
    intro kind _
    split
    · refine children_follows hTree hNode ?_
      intro members hParts
      exact .when fun _ => .allM fun member hMem => hBelow.part hClimbs (hParts member hMem)
    · exact .of_pure

end Nodes

section Operands

variable (hNode : tree.node id = .ok node)

include hNode hClimbs

theorem dereferencing_follows : Follows total extent (dereferencing tree shallow query node)
      (dereferencing tree deep (query.on higher) node) := by
  unfold dereferencing
  split
  · exact .of_pure
  · rename_i op hSub
    have hPart := fun hTotal => (hTree hTotal).isLinked.isPart_of_sub hNode hSub
    have hOp := fun hTotal => (hPart hTotal).exists_node
    refine .rest hOp ?_
    intro inner hInner
    split
    · exact .of_pure
    · rename_i mode hMode
      refine .and (.of_ends fun hTotal => ?_) ?_
      · have hRange := (hTree hTotal).inRange.mode_lt hInner hMode
        exact .and (ModeTable.isRef_ends hRange) fun _ =>
          (hTree hTotal).inRange.modes.isBasic_ends hRange
      · intro _
        split
        · exact .of_ends fun hTotal => isValueName_ends (hTree hTotal) (hOp hTotal)
        · exact hClimbs.gate (by decide) (slice_follows hTree (hBelow.of_part hPart) hClimbs hOp)
        · exact hClimbs.gate (by decide) (selection_follows hTree hOp)
        · exact .of_pure

theorem widening_follows (hMode : total → mode.number < tree.modes.size) :
    Follows total extent (widening tree shallow query node mode)
      (widening tree deep (query.on higher) node mode) := by
  unfold widening
  split
  · exact .of_pure
  · rename_i op hSub
    have hPart := fun hTotal => (hTree hTotal).isLinked.isPart_of_sub hNode hSub
    refine .rest (fun hTotal => .bind (hPart hTotal).exists_node fun _ _ => .of_pure) ?_
    intro found hFound
    split
    · exact .of_pure
    · refine .and (.of_ends fun hTotal => isWidening_ends
        ((hTree hTotal).inRange.mode?_lt hFound) (hMode hTotal)) ?_
      intro _
      exact hBelow.part hClimbs hPart

theorem voiding_follows : Follows total extent (voiding tree shallow query node)
      (voiding tree deep (query.on higher) node) := by
  unfold voiding
  split
  · exact .of_pure
  · rename_i op hSub
    have hPart := fun hTotal => (hTree hTotal).isLinked.isPart_of_sub hNode hSub
    have hOp := fun hTotal => (hPart hTotal).exists_node
    refine .rest (fun hTotal => .bind (hOp hTotal) fun _ _ => .of_pure) ?_
    intro attr _
    refine .ite ?_ fun _ => hBelow.part hClimbs hPart
    intro _
    exact assignation_follows hTree (hBelow.of_part hPart) hClimbs hOp

end Operands

section Clauses

variable {found : Option NodeId} (hParts : ∀ serial ∈ found, total → tree.IsPart id serial)

include hClimbs hParts

theorem singleUnitPart_follows : Follows total extent (singleUnitPart tree shallow query found)
      (singleUnitPart tree deep (query.on higher) found) := by
  refine .holdsOf ?_
  intro serial hSerial
  have hPart := hParts serial hSerial
  exact singleUnit_follows hTree (hBelow.of_part hPart) hClimbs
    fun hTotal => (hPart hTotal).exists_node

theorem selectorPart_follows : Follows total extent (selectorPart tree shallow query mode found)
      (selectorPart tree deep (query.on higher) mode found) := by
  refine .holdsOf ?_
  intro serial hSerial
  have hPart := hParts serial hSerial
  have hNode := fun hTotal => (hPart hTotal).exists_node
  refine .rest (fun hTotal => .bind (hNode hTotal) fun _ _ => .of_pure) ?_
  intro _ _
  exact .when fun _ => singleUnit_follows hTree (hBelow.of_part hPart) hClimbs hNode

end Clauses

include hClimbs

/- A chain of continuations goes down in rank. -/
theorem conditional_follows (hNode : total → (tree.node id).Ends)
    (hFuel : total → tree.rank id < fuel) :
    Follows total extent (conditional tree shallow query fuel id)
      (conditional tree deep (query.on higher) fuel id) := by
  induction fuel generalizing id with
  | zero => exact .of_ends fun hTotal => absurd (hFuel hTotal) (Nat.not_lt_zero _)
  | succ fuel ih =>
    refine firstChildren_follows hTree hNode ?_
    intro kids hParts
    split
    · rename_i ifPart thenPart
      have hIf := hParts ifPart (by simp)
      have hThen := hParts thenPart (by simp)
      refine sub?_follows hTree (fun hTotal => (hIf hTotal).exists_node) ?_
      intro guard hGuard
      refine (selectorPart_follows hTree (hBelow.of_part hIf) hClimbs hGuard).bind ?_
        (by simp [Walk.bind_eq_ok])
      intro _
      refine sub?_follows hTree (fun hTotal => (hThen hTotal).exists_node) ?_
      intro yes hYes
      refine (singleUnitPart_follows hTree (hBelow.of_part hThen) hClimbs hYes).bind ?_
        (by simp [Walk.bind_eq_ok])
      intro _
      refine child?_follows hTree hNode ?_
      intro tail hTail
      refine Follows.bind (.holdsOf ?_) (fun _ => .of_pure) (by simp)
      intro part hFound
      have hPart := hTail part hFound
      refine .rest (fun hTotal => (hPart hTotal).exists_node) ?_
      intro partNode hPartNode
      split
      · exact singleUnitPart_follows hTree (hBelow.of_part hPart) hClimbs
          fun serial hSerial hTotal => (hTree hTotal).isLinked.isPart_of_sub hPartNode hSerial
      · refine ih (hBelow.of_part hPart) (fun hTotal => (hPart hTotal).exists_node) ?_
        intro hTotal
        have hRank := (hPart hTotal).rank_lt
        have hBound := hFuel hTotal
        omega
      · exact .of_pure
    · exact .of_pure

theorem shape_follows (hNode : tree.node id = .ok node)
    (hMode : total → mode.number < tree.modes.size) :
    Follows total extent (shape tree shallow query id node mode)
      (shape tree deep (query.on higher) id node mode) := by
  have hEnds : total → (tree.node id).Ends := fun _ => ⟨node, hNode⟩
  have hSub : ∀ part ∈ node.sub, total → tree.IsPart id part :=
    fun _ hPart hTotal => (hTree hTotal).isLinked.isPart_of_sub hNode hPart
  have hUnits : Tier.indexing ≤ Tier.clauses := by decide
  have hClauses : Tier.clauses ≤ Tier.clauses := Nat.le_refl _
  unfold shape
  split
  · exact .of_pure
  · exact identifier_follows hTree hBelow hNode
  · exact .when fun _ => dereferencing_follows hTree hBelow hClimbs hNode
  · exact formula_follows hTree hBelow hClimbs hEnds
  · exact monadicFormula_follows hTree hBelow hClimbs hEnds
  · exact call_follows hTree hBelow hClimbs hEnds
  · exact .when fun _ => .of_ends fun hTotal => deproceduring_ends (hTree hTotal) hNode
  · exact hClimbs.basic hUnits (slice_follows hTree hBelow hClimbs hEnds)
  · exact hClimbs.basic hUnits (selection_follows hTree hEnds)
  · exact hClimbs.basic hUnits (assignation_follows hTree hBelow hClimbs hEnds)
  · exact hClimbs.basic hUnits (identityRelation_follows hTree hEnds)
  · refine hClimbs.admitted hUnits (.and (.of_ends fun hTotal =>
      ModeTable.isFoldable_ends (hMode hTotal)) fun _ => .holdsOf ?_)
    intro op hOp
    exact hBelow.part hClimbs (hSub op hOp)
  · exact hClimbs.admitted hUnits (widening_follows hTree hBelow hClimbs hNode hMode)
  · exact hClimbs.admitted hClauses (singleUnitPart_follows hTree hBelow hClimbs hSub)
  · exact hClimbs.admitted hClauses (singleUnit_follows hTree hBelow hClimbs hEnds)
  · exact hClimbs.admitted hClauses (collateral_follows hTree hBelow hClimbs hEnds)
  · exact hClimbs.basic hClauses (conditional_follows hTree hBelow hClimbs hEnds
      fun _ => tree.rank_lt_bound id)
  · exact .of_pure

/- A judge that knows more units judges more of them. -/
theorem judge_follows (hNode : total → (tree.node id).Ends) :
    Follows total extent (judge tree shallow query id) (judge tree deep (query.on higher) id) := by
  refine .rest hNode ?_
  intro node hFound
  split
  · exact .of_pure
  · rename_i mode hMode
    have hRange := fun hTotal => (hTree hTotal).inRange.mode_lt hFound hMode
    refine .ite ?_ ?_
    · intro _
      exact hClimbs.basic (by decide) (voiding_follows hTree hBelow hClimbs hFound)
    · intro _
      refine .and (.of_ends fun hTotal =>
        (hTree hTotal).inRange.modes.accepts_ends _ (hRange hTotal)) ?_
      intro _
      exact shape_follows hTree hBelow hClimbs hFound hRange

end Shapes

/- One judge keeps what is kept of another one. -/
def Judge.Follows (extent : Extent) (shallow deep : Judge) : Prop :=
  ∀ query higher id, Climbs extent query.tier higher →
    Walk.Follows False extent (shallow query id) (deep (query.on higher) id)

theorem Judge.Follows.below (hUnit : Judge.Follows extent shallow deep) :
    FollowsBelow tree False extent shallow deep query id where
  parts := fun asked higher part _ hClimbs _ => hUnit asked higher part hClimbs
  sources := fun _ source _ _ _ => hUnit _ _ source (.refl _)

/- More depth keeps every answer. -/
theorem unitWithin_extends (tree : SyntaxTree) (fuel : Nat) :
    Judge.Follows .answers (unitWithin tree fuel) (unitWithin tree (fuel + 1)) := by
  induction fuel with
  | zero =>
    intro query higher id _
    refine ⟨False.elim, ?_⟩
    rintro ⟨answer, hAnswer⟩
    cases hAnswer
  | succ fuel ih =>
    intro query higher id hClimbs
    exact judge_follows False.elim ih.below hClimbs False.elim

end Classifier

------ The Weight of a Query

namespace Classifier

variable {asked : Query}

namespace Query

/- The tags that are followed are tags of the tree, each once. -/
structure IsValid (query : Query) (tree : SyntaxTree) : Prop where
  nodup : query.active.Nodup
  inRange : ∀ tag ∈ query.active, tag.number < tree.tags.size

/-
  How far a query at a unit is from its end: the tags that
  can still be followed, and then the rank of the unit.
-/
noncomputable def weight
    (query : Query)
    (tree : SyntaxTree)
    (id : NodeId) : Nat :=
  (tree.tags.size - query.active.length) * (tree.nodes.size + 1) + tree.rank id

theorem isValid_basic (tier : Nat) : (basic tier).IsValid tree := ⟨List.nodup_nil, by simp [basic]⟩

theorem isValid_constant : constant.IsValid tree := ⟨List.nodup_nil, by simp [constant]⟩

theorem IsValid.following (hValid : query.IsValid tree) (hFresh : tag ∉ query.active)
    (hTag : tag.number < tree.tags.size) : (query.following tag).IsValid tree where
  nodup := List.nodup_cons.mpr ⟨hFresh, hValid.nodup⟩
  inRange := by
    intro other hOther
    rcases List.mem_cons.mp hOther with rfl | hOld
    · exact hTag
    · exact hValid.inRange other hOld

theorem IsValid.of_active (hValid : query.IsValid tree)
    (hActive : asked.active = query.active) : asked.IsValid tree := by
  constructor
  · rw [hActive]
    exact hValid.nodup
  · rw [hActive]
    exact hValid.inRange

/- No more tags are followed than there are. -/
theorem IsValid.length_le (hValid : query.IsValid tree) : query.active.length ≤ tree.tags.size :=
  Handle.length_le hValid.nodup hValid.inRange

/- Following one more tag outweighs every rank. -/
theorem IsValid.weight_lt_of_following (hValid : query.IsValid tree) (hFresh : tag ∉ query.active)
    (hTag : tag.number < tree.tags.size) (id source : NodeId) :
    (query.following tag).weight tree source < query.weight tree id := by
  have hLen := (hValid.following hFresh hTag).length_le
  have hRank : tree.rank source ≤ tree.nodes.size := source.reachCount_le tree.Link tree.nodes.size
  have hActive : (query.following tag).active.length = query.active.length + 1 := rfl
  have hStep : tree.tags.size - query.active.length = (tree.tags.size -
        (query.following tag).active.length) + 1 := by
    omega
  unfold weight
  rw [hStep, Nat.add_mul]
  omega

theorem weight_lt_bound (id : NodeId) : query.weight tree id < tree.bound := by
  have hRank : tree.rank id ≤ tree.nodes.size := id.reachCount_le tree.Link tree.nodes.size
  have hTags : (tree.tags.size - query.active.length) * (tree.nodes.size + 1) ≤
        tree.tags.size * (tree.nodes.size + 1) :=
    Nat.mul_le_mul_right _ (Nat.sub_le _ _)
  have hBound : tree.bound = tree.tags.size * (tree.nodes.size + 1) + (tree.nodes.size + 1) := by
    rw [SyntaxTree.bound, Nat.mul_comm, Nat.add_mul, Nat.one_mul]
  unfold weight
  omega

end Query

section Units

open Walk

variable (hTree : total → tree.IsFinite) (hValid : total → query.IsValid tree)

include hTree hValid

/- A judge with more fuel than the weight answers. -/
theorem unitWithin_follows (hClimbs : Climbs extent query.tier higher)
    (hNode : total → (tree.node id).Ends) (hFuel : total → query.weight tree id < fuel) :
    Follows total extent (unitWithin tree fuel query id)
      (unitWithin tree fuel (query.on higher) id) := by
  induction fuel generalizing query higher id with
  | zero => exact .of_ends fun hTotal => absurd (hFuel hTotal) (Nat.not_lt_zero _)
  | succ fuel ih =>
    refine judge_follows hTree ⟨?_, ?_⟩ hClimbs hNode
    · intro asked above part hActive hAbove hPart
      refine ih (fun hTotal => (hValid hTotal).of_active hActive) hAbove
        (fun hTotal => (hPart hTotal).exists_node) ?_
      intro hTotal
      have hRank := (hPart hTotal).rank_lt
      have hMore := hFuel hTotal
      unfold Query.weight at *
      rw [hActive]
      omega
    · intro tag source hFresh hTag hSrc
      refine ih (fun hTotal => (hValid hTotal).following hFresh hTag) (.refl _) hSrc ?_
      intro hTotal
      have hLess := (hValid hTotal).weight_lt_of_following hFresh hTag id source
      have hMore := hFuel hTotal
      omega

theorem unit_follows (hClimbs : Climbs extent query.tier higher)
    (hNode : total → (tree.node id).Ends) :
    Follows total extent (unit tree query id) (unit tree (query.on higher) id) :=
  unitWithin_follows hTree hValid hClimbs hNode fun _ => Query.weight_lt_bound id

end Units

end Classifier

------ Questions

namespace SyntaxTree

open Classifier Walk

section Questions

variable (hTree : total → tree.IsFinite) (hNode : total → (tree.node id).Ends)
variable (hClimbs : Climbs extent tier higher)

include hTree

theorem followsBelow_basic :
    FollowsBelow tree total extent (unit tree) (unit tree) (.basic tier) id where
  parts := fun _ _ _ hActive hClimbs hPart =>
    unit_follows hTree (fun _ => (Query.isValid_basic tier).of_active hActive) hClimbs
      fun hTotal => (hPart hTotal).exists_node
  sources := fun _ _ hFresh hTag hSrc =>
    unit_follows hTree (fun _ => (Query.isValid_basic tier).following hFresh hTag) (.refl _) hSrc

include hNode hClimbs

theorem isBasic_goes : Follows total extent (tree.isBasic id tier) (tree.isBasic id higher) :=
  hClimbs.gate (by decide) (unit_follows hTree (fun _ => Query.isValid_basic tier) hClimbs hNode)

theorem isBasicSerial_goes :
    Follows total extent (tree.isBasicSerial id tier) (tree.isBasicSerial id higher) :=
  hClimbs.gate (Nat.le_refl _) (singleUnit_follows hTree (followsBelow_basic hTree) hClimbs hNode)

theorem isBasicConditional_goes :
    Follows total extent (tree.isBasicConditional id tier) (tree.isBasicConditional id higher) := by
  refine hClimbs.gate (Nat.le_refl _) (.rest (fun hTotal => .bind (hNode hTotal)
    fun _ _ => .of_pure) ?_)
  intro found hFound
  refine .and (.of_ends fun hTotal => .holdsOf ?_) ?_
  · rintro mode rfl
    exact (hTree hTotal).inRange.modes.isBasic_ends ((hTree hTotal).inRange.mode?_lt hFound)
  · intro _
    exact conditional_follows hTree (followsBelow_basic hTree) hClimbs hNode
      fun _ => tree.rank_lt_bound id

theorem isBasicCaseWithin_goes (hFuel : total → tree.rank id < fuel) :
    Follows total extent (tree.isBasicCaseWithin tier fuel id)
      (tree.isBasicCaseWithin higher fuel id) := by
  induction fuel generalizing id with
  | zero => exact .of_ends fun hTotal => absurd (hFuel hTotal) (Nat.not_lt_zero _)
  | succ fuel ih =>
    refine firstChildren_follows hTree hNode ?_
    intro kids hParts
    split
    · rename_i casePart inPart
      have hIn := hParts inPart (by simp)
      refine sub?_follows hTree (fun hTotal => (hParts casePart (by simp) hTotal).exists_node) ?_
      intro serial hSerial
      refine (selectorPart_follows hTree (followsBelow_basic hTree) hClimbs hSerial).bind ?_ ?_
      · intro sel
        have hAnswer : ∀ answer : Bool, Follows total extent (if sel = true then
            (tree.hasLabels inPart).not.and (pure answer) else pure false) (if sel = true then
            (tree.hasLabels inPart).not.and (pure answer) else pure false) :=
          fun answer => .when fun _ => .and (.of_ends fun hTotal =>
            ((hTree hTotal).hasLabels_ends (hIn hTotal).exists_node).not) fun _ => .of_pure
        refine child?_follows hTree hNode ?_
        rintro (_ | part) hTail
        · exact hAnswer true
        · have hPart := hTail part rfl
          have hPartNode := fun hTotal => (hPart hTotal).exists_node
          refine .rest (fun hTotal => .bind (hPartNode hTotal) fun _ _ => .of_pure) ?_
          intro attr _
          refine .ite ?_ ?_
          · intro _
            refine (ih hPartNode ?_).bind hAnswer ?_
            · intro hTotal
              have hRank := (hPart hTotal).rank_lt
              have hBound := hFuel hTotal
              omega
            · cases sel with
              | false | true => simp
          · intro _
            exact .rest (fun hTotal => ((hTree hTotal).hasLabels_ends (hPartNode hTotal)).not)
              fun answer _ => hAnswer answer
      · intro hYes
        rcases Walk.bind_eq_ok.mp hYes with ⟨_ | part, -, hYes⟩
        · cases hYes
        · rcases Walk.bind_eq_ok.mp hYes with ⟨attr, -, hYes⟩
          split at hYes
          all_goals simp [Walk.bind_eq_ok] at hYes
    · exact .of_pure

theorem isBasicCase_goes :
    Follows total extent (tree.isBasicCase id tier) (tree.isBasicCase id higher) :=
  hClimbs.gate (Nat.le_refl _)
    (isBasicCaseWithin_goes hTree hNode hClimbs fun _ => tree.rank_lt_bound id)

end Questions

namespace IsFinite

variable (hTree : tree.IsFinite) (hNode : tree.node id = .ok node)

include hTree hNode

variable (tier : Nat)

theorem isBasic_ends : (tree.isBasic id tier).Ends :=
  (isBasic_goes (fun _ => hTree) (fun _ => ⟨node, hNode⟩) (.refl tier)).settled

theorem isConstant_ends : (tree.isConstant id).Ends :=
  (unit_follows (fun _ => hTree) (fun _ => Query.isValid_constant) (.refl _)
    fun _ => ⟨node, hNode⟩).settled

theorem isBasicSerial_ends : (tree.isBasicSerial id tier).Ends :=
  (isBasicSerial_goes (fun _ => hTree) (fun _ => ⟨node, hNode⟩) (.refl tier)).settled

theorem isBasicConditional_ends : (tree.isBasicConditional id tier).Ends :=
  (isBasicConditional_goes (fun _ => hTree) (fun _ => ⟨node, hNode⟩) (.refl tier)).settled

theorem isBasicCase_ends : (tree.isBasicCase id tier).Ends :=
  (isBasicCase_goes (fun _ => hTree) (fun _ => ⟨node, hNode⟩) (.refl tier)).settled

end IsFinite

end SyntaxTree

end Algol68
