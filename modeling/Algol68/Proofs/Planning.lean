import Algol68.Proofs.Sites
import Algol68.Proofs.Ways

/-
  Planning of clauses.

  The units that a plan writes in place were accepted by the classifier. Other units are visited,
  and these are all below the clause that is planned. The items of a plan are the children of the
  clause, and its paths lead to them. On trees as mode checking leaves them no plan meets a fault.

  All this is said of a planner in one way only, whatever one wants to know of the runs in which
  it plans. What is asked of such a logic is a rule for each step that planners take.
-/

------ Parts of a Tree

namespace Algol68

open SyntaxTree (sub? isBasic_min attr_eq mode?_eq follow_sub follow_child)

open List hiding count

open Relation

variable (tree : SyntaxTree)

namespace Planner

variable {tree : SyntaxTree} {visit : NodeId → Generation Unit} {id : NodeId}

/- A part of a tree that may be visited, with all that is linked from it. -/
structure Spans (tree : SyntaxTree) (total : Prop) (inside : NodeId → Prop) : Prop where
  conforms : total → tree.Conforms
  nodes : total → ∀ id, inside id → ∃ node, tree.node id = .ok node
  closed : ∀ id kid, inside id → tree.Link id kid → inside kid

/- A node whose links lead to what may be visited. -/
structure Leads (tree : SyntaxTree) (total : Prop) (inside : NodeId → Prop)
    (id : NodeId) : Prop where
  node : total → ∃ node, tree.node id = .ok node
  link : ∀ kid, tree.Link id kid → inside kid

theorem Spans.anywhere : Spans tree False fun _ => True :=
  ⟨False.elim, False.elim, fun _ _ _ _ => trivial⟩

theorem Leads.anywhere (id : NodeId) : Leads tree False (fun _ => True) id :=
  ⟨False.elim, fun _ _ => trivial⟩

namespace Spans

variable (hSpans : Spans tree total inside)

include hSpans

theorem leads (hInside : inside id) : Leads tree total inside id where
  node := fun hTotal => hSpans.nodes hTotal id hInside
  link := fun kid hLink => hSpans.closed id kid hInside hLink

theorem of_path (hLeads : Leads tree total inside id) (hPath : TransGen tree.Link id kid) :
    inside kid := by
  induction hPath with
  | single hLink => exact hLeads.link _ hLink
  | tail _ hLink ih => exact hSpans.closed _ _ ih hLink

theorem of_child (hLeads : Leads tree total inside id) (hKids : tree.children id = .ok kids)
    (hKid : kid ∈ kids) : inside kid :=
  hSpans.of_path hLeads (SyntaxTree.path_of_child hKids hKid)

/- Siblings of what may be visited may be visited. -/
theorem of_firstSiblings (hFirst : ∀ head ∈ first, inside head)
    (hIds : tree.firstSiblings count first = .ok ids) : ∀ id ∈ ids, inside id := by
  induction count generalizing first ids with
  | zero =>
    cases hIds
    simp
  | succ count ih =>
    cases first with
    | none =>
      cases hIds
      simp
    | some head =>
      have hHead : inside head := hFirst head rfl
      rcases Walk.bind_eq_ok.mp hIds with ⟨node, hNode, hIds⟩
      rcases Walk.bind_eq_ok.mp hIds with ⟨rest, hRest, hIds⟩
      cases hIds
      have hOthers : ∀ other ∈ rest, inside other := by
        refine ih ?_ hRest
        intro next hNext
        exact hSpans.closed head next hHead ⟨node, hNode, .inr hNext⟩
      exact List.forall_mem_cons.mpr ⟨hHead, hOthers⟩

theorem of_firstChildren (hLeads : Leads tree total inside id)
    (hKids : tree.firstChildren id count = .ok kids) : ∀ kid ∈ kids, inside kid := by
  rcases Walk.bind_eq_ok.mp hKids with ⟨first, hFirst, hKids⟩
  rcases Walk.bind_eq_ok.mp hFirst with ⟨node, hNode, hSub⟩
  cases hSub
  refine hSpans.of_firstSiblings ?_ hKids
  intro head hHead
  exact hLeads.link head ⟨node, hNode, .inl hHead⟩

theorem of_child? (hLeads : Leads tree total inside id)
    (hKid : tree.child? id pos = .ok (some kid)) : inside kid := by
  rcases Walk.bind_eq_ok.mp hKid with ⟨kids, hKids, hFound⟩
  apply hSpans.of_firstChildren hLeads hKids
  exact mem_of_getElem? (Except.ok.inj hFound)

theorem ends (hLeads : Leads tree total inside id) {walk : Walk α}
    (hWalk : ∀ node, tree.Conforms → tree.node id = .ok node → walk.Ends) (hTotal : total) :
    walk.Ends := by
  rcases hLeads.node hTotal with ⟨node, hNode⟩
  exact hWalk node (hSpans.conforms hTotal) hNode

end Spans

theorem link_of_sub? (hSub : tree.sub? id = .ok (some kid)) : tree.Link id kid := by
  rcases Walk.bind_eq_ok.mp hSub with ⟨node, hNode, hFound⟩
  exact ⟨node, hNode, .inl (Except.ok.inj hFound)⟩

------ Logics

/-
  A way to reason about the plans for a fragment. `Holds` says of a plan that is begun at a point
  what it is like at the point where it ends. No walk meets a fault where walks are `total`, and
  if places are `known` so is the tier.
-/
structure Logic (tree : SyntaxTree) (visit : NodeId → Generation Unit) (start : NodeId) where
  total : Prop
  known : Prop
  tier : Nat
  inside : NodeId → Prop
  Point : Type
  Later : Point → Point → Prop
  Calls : Point → NodeId → String → Prop
  Holds : {α : Type} → Point → Planning α → (Point → α → Prop) → Prop
  spans : Spans tree total inside
  conforms : known → tree.Conforms
  trans : ∀ {first second third : Point}, Later first second → Later second third →
    Later first third
  calls : ∀ {point later : Point} {id : NodeId} {name : String}, Later point later →
    Calls point id name → Calls later id name
  of_pure : ∀ {α : Type} {point : Point} {value : α} {post : Point → α → Prop},
    (∀ later, Later point later → post later value) → Holds point (pure value) post
  of_failure : ∀ {α : Type} {point : Point} {post : Point → α → Prop},
    Holds point (failure : Planning α) post
  mono : ∀ {α : Type} {point : Point} {planning : Planning α} {strong weak : Point → α → Prop},
    Holds point planning strong → (∀ later value, strong later value → weak later value) →
      Holds point planning weak
  bind : ∀ {α β : Type} {point : Point} {planning : Planning α} {rest : α → Planning β}
      {post : Point → α → Prop} {after : Point → β → Prop}, Holds point planning post →
    (∀ value later, Later point later → post later value → Holds later (rest value) after) →
      Holds point (planning >>= rest) after
  walk_bind : ∀ {α β : Type} {point : Point} {walk : Walk α} {rest : α → Planning β}
      {after : Point → β → Prop}, (total → walk.Ends) →
    (∀ value, walk = .ok value → Holds point (rest value) after) →
      Holds point (liftM walk >>= rest) after
  /- Tiers that admit clauses make no difference. -/
  tier_bind : ∀ {α : Type} {point : Point} {rest : Nat → Planning α} {post : Point → α → Prop},
    (∀ found, rest (min found Tier.clauses) = rest found) →
    (∀ found, (known → found = tier) → Holds point (rest found) post) →
      Holds point (liftM currentTier >>= rest) post
  /- A unit that is not written in place must get a function. -/
  of_item : ∀ {point : Point} {id : NodeId}, inside id →
    (known → ∃ list, tree.Way tier start list ∧ tree.IsChild list id ∧
      tree.Delegates tier list id) →
    Holds point (do
        visit id
        match ← (← get).marking id with
        | .compiled function => pure (.call function)
        | _ => failure : Planning ItemKind)
      fun later kind => ∃ function, kind = .call function ∧ Calls later id function
  /- The sources of a declaration are visited. -/
  of_sources : ∀ {point : Point} {id : NodeId} {first : Option NodeId},
    Leads tree total inside id → tree.sub? id = .ok first →
    (known → tree.Way tier start id ∧ tree.IsInterpreted tier id) →
    Holds point (liftM (visitSiblings tree visit tree.bound first)) fun _ _ => True

namespace Logic

open Inline SyntaxTree

variable {α β : Type} {start : NodeId} (logic : Logic tree visit start)
variable {post : logic.Point → α → Prop} {walk : Walk α}

theorem of_walk (hWalk : logic.total → walk.Ends)
    (hPost : ∀ val later, walk = .ok val → logic.Later point later → post later val) :
    logic.Holds point (liftM walk) post := by
  rw [← bind_pure (liftM walk : Planning α)]
  exact logic.walk_bind hWalk fun val hVal =>
    logic.of_pure fun later => hPost val later hVal

theorem of_violation (hPartial : ¬ logic.total) (id : NodeId) (invariant : Invariant) :
    logic.Holds point (liftM (tree.violation id invariant : Walk α)) post := by
  refine logic.of_walk (fun hTotal => absurd hTotal hPartial) ?_
  intro val _ hVal
  rcases Walk.bind_eq_ok.mp hVal with ⟨node, -, hThrown⟩
  cases hThrown

theorem of_endless (hPartial : ¬ logic.total) : logic.Holds point endless post := by
  exact logic.of_walk (fun hTotal => absurd hTotal hPartial) nofun

theorem unless_bind {declines : Prop} [Decidable declines] {rest : Unit → Planning α}
    (hRest : ¬ declines → logic.Holds point (rest ()) post) :
    logic.Holds point (if declines then failure >>= rest else rest ()) post := by
  split
  · have hNone : logic.Holds point (failure : Planning Unit) fun _ _ => False := logic.of_failure
    exact logic.bind hNone fun _ _ _ hNever => hNever.elim
  · rename_i hNot
    exact hRest hNot

/-
  A plan for each member of a list. What is said of one plan stays true while the others are made.
-/
theorem mapM {each : logic.Point → β → α → Prop}
    (hStable : ∀ {point later member value}, logic.Later point later → each point member value →
      each later member value) (hPlan : ∀ member ∈ members, ∀ point, logic.Holds point (plan member)
      fun later value => each later member value) :
    logic.Holds point (members.mapM plan) fun later values =>
      List.Forall₂ (each later) members values := by
  induction members generalizing point with
  | nil => exact logic.of_pure fun _ _ => .nil
  | cons first rest ih =>
    rw [mapM_cons]
    apply logic.bind (hPlan first mem_cons_self point)
    intro value mid _ hVal
    apply logic.bind (ih fun member hMem => hPlan member (mem_cons_of_mem _ hMem))
    intro values later hLater hVals
    apply logic.of_pure
    intro last hLast
    refine .cons (hStable (logic.trans hLater hLast) hVal) ?_
    exact hVals.imp fun member other hEach => hStable hLast hEach

theorem ends (hLeads : Leads tree logic.total logic.inside id)
    (hWalk : ∀ node, tree.Conforms → tree.node id = .ok node → walk.Ends) :
    logic.total → walk.Ends :=
  logic.spans.ends hLeads hWalk

/- The units that are written in place. -/
def Places (id : NodeId) : Prop :=
  Inlined tree id ∧ (logic.known → tree.Exposed logic.tier start id)

theorem places_of_isBasic (hTier : logic.known → found = logic.tier)
    (hBasic : tree.isBasic id found = .ok true)
    (hThread : logic.known → tree.isBasic id logic.tier = .ok true →
      tree.Thread logic.tier start id) : logic.Places id := by
  refine ⟨.unit hBasic, ?_⟩
  intro hKnown
  rw [hTier hKnown] at hBasic
  exact ⟨hThread hKnown hBasic, hBasic⟩

end Logic

------ Items

open Inline

variable {start : NodeId} {site : Site} {children : List NodeId}

theorem sub?_ends (hNode : tree.node id = .ok node) : (tree.sub? id).Ends :=
  .bind ⟨node, hNode⟩ fun _ _ => .of_pure

theorem tagMode_lt_of_tag? (hTree : tree.IsRegular) (hTag : tree.tag? id = .ok (some tag)) :
    tag.mode.number < tree.modes.size := by
  rcases Walk.bind_eq_ok.mp hTag with ⟨node, -, hTag⟩
  split at hTag
  · rcases Walk.bind_eq_ok.mp hTag with ⟨entry, hEntry, hSame⟩
    cases hSame
    exact hTree.inRange.tagMode_lt hEntry
  · cases hTag

theorem isAllocation_ends (hTree : tree.IsRegular) (hNode : tree.node id = .ok node) (tier : Nat) :
    (isAllocation tree id tier).Ends := by
  apply Walk.Ends.bind (hTree.inRange.tag?_ends ⟨node, hNode⟩)
  rintro (_ | tag) hTag
  · exact .of_pure
  · have hMode := tagMode_lt_of_tag? hTree hTag
    apply Walk.Ends.bind (ModeTable.deref?_ends hMode)
    intro object hObj
    apply Walk.Ends.and
    · apply Walk.Ends.holdsOf
      rintro found rfl
      exact hTree.inRange.modes.isBasicNonRow_ends (hTree.inRange.modes.deref_lt hObj)
    · intro _
      apply Walk.Ends.bind (sub?_ends hNode)
      rintro (_ | init) hInit
      · exact .of_pure
      · have hSub : node.sub = some init := by
          simpa [sub?, hNode] using hInit
        rcases (hTree.isLinked.isPart_of_sub hNode hSub).exists_node with ⟨first, hFirst⟩
        exact hTree.isFinite.isBasic_ends hFirst tier

/- A variable that is allocated in place has an object. -/
theorem has_of_isAllocation (hAttr : tree.attr id = .ok .variableDeclaration)
    (hAllocation : isAllocation tree id tier = .ok true)
    (hUnit : ∀ init, tree.sub? id = .ok (some init) → tree.isBasic init tier = .ok true → unit init)
    (path : Path) : Item.Has tree unit ⟨⟨id, path⟩, .allocation⟩ := by
  rcases Walk.bind_eq_ok.mp hAllocation with ⟨found, hFound, hRest⟩
  cases found with
  | none => cases hRest
  | some tag =>
    rcases Walk.bind_eq_ok.mp hRest with ⟨target, hTarget, hRest⟩
    rcases Walk.and_eq_true.mp hRest with ⟨hObj, hInit⟩
    rcases Walk.holdsOf_eq_true.mp hObj with ⟨object, rfl, -⟩
    rcases Walk.bind_eq_ok.mp hInit with ⟨init, hSub, hInit⟩
    refine ⟨hAttr, ?_, init, hSub, ?_⟩
    · rcases Walk.bind_eq_ok.mp hFound with ⟨node, hNode, hTag⟩
      split at hTag
      · rename_i handle hHandle
        rcases Walk.bind_eq_ok.mp hTag with ⟨entry, hEntry, hSame⟩
        cases hSame
        simp [Emission.allocatedTag, hNode, hHandle, hEntry, hTarget]
      · cases hTag
    · rintro first ⟨⟩
      exact hUnit first hSub hInit

@[simp] theorem isAllocation_min (id : NodeId) (tier : Nat) :
    isAllocation tree id (min tier Tier.clauses) = isAllocation tree id tier := by
  simp [isAllocation]

theorem mem_sitesBelow (hSite : site ∈ sitesBelow path children) : site.node ∈ children := by
  rcases mem_map.mp hSite with ⟨entry, hEntry, rfl⟩
  exact fst_mem_of_mem_zipIdx hEntry

namespace Logic

/- What is said of an item once it is planned. -/
structure ItemFound (logic : Logic tree visit start) (site : Site) (point : logic.Point)
    (item : Item) : Prop where
  has : item.Has tree logic.Places
  suits : item.kind.Suits tree (logic.Calls point) site.node
  site : item.site = site

variable {logic : Logic tree visit start}

theorem ItemFound.of_later {item : Item} (hFound : logic.ItemFound site point item)
    (hLater : logic.Later point later) : logic.ItemFound site later item := by
  refine ⟨hFound.has, ?_, hFound.site⟩
  have hSuits := hFound.suits
  cases hKind : item.kind with
  | inline => trivial
  | call func =>
    rw [hKind] at hSuits
    exact logic.calls hLater hSuits
  | declaration | allocation =>
    rw [hKind] at hSuits
    exact hSuits

theorem ItemFound.isOf {item : Item} (hFound : logic.ItemFound site point item)
    (hReached : site.IsReached tree start) : item.IsOf tree (logic.Calls point) start := by
  rcases hFound with ⟨-, hSuits, rfl⟩
  exact ⟨hReached, hSuits⟩

variable (logic)

/- How an item is written suits the item. -/
theorem itemKind_holds (hInside : logic.inside id)
    (hListed : logic.known → ∃ list, Listed tree logic.tier start list id) (path : Path) :
    logic.Holds point (itemKind tree visit id)
      fun later kind => logic.ItemFound ⟨id, path⟩ later ⟨⟨id, path⟩, kind⟩ := by
  have hLeads := logic.spans.leads hInside
  apply logic.tier_bind fun tier => by simp only [isAllocation_min, isBasic_min]
  intro tier hTier
  apply logic.walk_bind (logic.ends hLeads fun _ _ hNode => ⟨_, attr_eq hNode⟩)
  intro attr hAttr
  extract_lets finish rest
  have hFinish : attr.isDeclaration = true → ∀ mid, logic.Holds mid (finish ())
        fun later kind => logic.ItemFound ⟨id, path⟩ later ⟨⟨id, path⟩, kind⟩ :=
    fun hDeclares _ => logic.of_pure fun _ _ => ⟨trivial, ⟨attr, hAttr, hDeclares⟩, rfl⟩
  have hRest : ∀ isAllocated : Bool, (isAllocated = true → tree.attr id = .ok .variableDeclaration ∧
          Item.Has tree logic.Places ⟨⟨id, path⟩, .allocation⟩) →
      (isAllocated = false → ¬ (attr = .variableDeclaration ∧
        isAllocation tree id tier = .ok true)) →
      logic.Holds point (rest isAllocated)
        fun later kind => logic.ItemFound ⟨id, path⟩ later ⟨⟨id, path⟩, kind⟩ := by
    intro isAllocated hAllocated hInterpreted
    unfold rest
    split
    · rename_i hYes
      rcases hAllocated hYes with ⟨hVariable, hHas⟩
      exact logic.of_pure fun _ _ => ⟨hHas, hVariable, rfl⟩
    · rename_i hNo
      split
      · rename_i hDeclares
        apply logic.walk_bind (logic.ends hLeads fun _ _ hNode => sub?_ends hNode)
        intro first hFirst
        have hSources : logic.Holds point (liftM (visitSiblings tree visit tree.bound first))
            fun _ _ => True := by
          refine logic.of_sources hLeads hFirst fun hKnown => ?_
          rcases hListed hKnown with ⟨list, hItem⟩
          refine ⟨hItem.way_of_isDeclaration hAttr hDeclares, attr, hAttr, hDeclares, ?_⟩
          rw [← hTier hKnown]
          exact hInterpreted (Bool.eq_false_of_not_eq_true hNo)
        cases first with
        | none => exact hFinish hDeclares point
        | some first => exact logic.bind hSources fun _ mid _ _ => hFinish hDeclares mid
      · rename_i hUnit
        apply logic.walk_bind (logic.ends hLeads
          fun _ hTree hNode => hTree.isFinite.isBasic_ends hNode tier)
        intro isBasic hBasic
        split
        · rename_i hYes
          subst hYes
          have hPlaces : logic.Places id := logic.places_of_isBasic hTier hBasic fun hKnown hUnit =>
            (hListed hKnown).elim fun _ hItem => (hItem.exposed hUnit).thread
          exact logic.of_pure fun _ _ => ⟨hPlaces, trivial, rfl⟩
        · rename_i hOther
          rw [Bool.eq_false_of_not_eq_true hOther] at hBasic
          refine logic.mono (logic.of_item hInside fun hKnown => ?_) ?_
          · rw [hTier hKnown] at hBasic
            exact (hListed hKnown).elim fun list hItem => ⟨list, hItem.delegates hAttr
              (Bool.eq_false_of_not_eq_true hUnit) hBasic⟩
          · rintro later _ ⟨func, rfl, hCalls⟩
            exact ⟨trivial, hCalls, rfl⟩
  split
  · rename_i hVariable
    subst hVariable
    apply logic.walk_bind (logic.ends hLeads fun _ hTree hNode =>
        isAllocation_ends hTree.toIsRegular hNode tier)
    intro isAllocated hAllocated
    apply hRest
    · rintro rfl
      refine ⟨hAttr, has_of_isAllocation hAttr hAllocated (fun init hSub hBasic => ?_) path⟩
      refine logic.places_of_isBasic hTier hBasic fun hKnown hInit => ?_
      rw [hTier hKnown] at hAllocated
      exact (hListed hKnown).elim fun _ hItem => (exposed_of_isAllocation
        (logic.conforms hKnown).shaped hItem hAttr hAllocated hSub hInit).thread
    · rintro rfl
      rintro ⟨-, hYes⟩
      cases hAllocated.symm.trans hYes
  · rename_i hOther
    apply hRest false fun hYes => absurd hYes Bool.false_ne_true
    rintro - ⟨hVariable, -⟩
    exact hOther hVariable

theorem item_holds (hInside : logic.inside site.node)
    (hListed : logic.known → ∃ list, Listed tree logic.tier start list site.node) :
    logic.Holds point (item tree visit site) fun later item => logic.ItemFound site later item := by
  apply logic.bind (logic.itemKind_holds hInside hListed site.path)
  intro kind mid _ hKind
  exact logic.of_pure fun _ hLater => hKind.of_later hLater

theorem statements_holds (hInside : ∀ site ∈ sites, logic.inside site.node)
    (hListed : logic.known → ∀ site ∈ sites, ∃ list, Listed tree logic.tier start list site.node) :
    logic.Holds point (statements tree visit sites) fun later items =>
        List.Forall₂ (fun site item => logic.ItemFound site later item ∧
            item.kind.declares = false) sites items := by
  induction sites generalizing point with
  | nil => exact logic.of_pure fun _ _ => .nil
  | cons site rest ih =>
    apply logic.bind (logic.item_holds (hInside site mem_cons_self)
      fun hKnown => hListed hKnown site mem_cons_self)
    intro first mid _ hFirst
    split
    · exact logic.of_failure
    · rename_i hPlain
      apply logic.bind (ih (fun other hOther => hInside other (mem_cons_of_mem _ hOther))
        fun hKnown other hOther => hListed hKnown other (mem_cons_of_mem _ hOther))
      intro others later hLater hOthers
      apply logic.of_pure
      intro last hLast
      refine .cons ⟨hFirst.of_later (logic.trans hLater hLast),
        Bool.eq_false_of_not_eq_true hPlain⟩ ?_
      exact hOthers.imp fun _ _ hOther => ⟨hOther.1.of_later hLast, hOther.2⟩

/- The items that were found for the children of a node. -/
structure ItemsFound (logic : Logic tree visit start) (id : NodeId) (point : logic.Point)
    (items : List Item) : Prop where
  has : ∀ item ∈ items, item.Has tree logic.Places
  children : tree.children id = .ok (items.map fun item => item.site.node)
  isOf : ∀ item ∈ items, item.IsOf tree (logic.Calls point) start

variable {logic}

theorem ItemsFound.of_sites (hPath : tree.follow start path = .ok (some id))
    (hChildren : tree.children id = .ok children)
    (hItems : List.Forall₂ (fun site item => logic.ItemFound site point item)
      (sitesBelow path children) items) : logic.ItemsFound id point items := by
  have hSites : items.map Item.site = sitesBelow path children := by
    have hSame := hItems.flip.imp fun _ _ hFound => hFound.site
    rw [← List.forall₂_eq_eq_eq, List.forall₂_map_left_iff]
    exact hSame
  have hNodes : (sitesBelow path children).map Site.node = children := by
    simp [sitesBelow, Function.comp_def]
  refine ⟨?_, ?_, ?_⟩
  · intro item hItem
    rcases Walk.exists_of_forall₂ hItems hItem with ⟨site, -, hFound⟩
    exact hFound.has
  · rw [hChildren, ← hNodes, ← hSites, List.map_map]
    rfl
  · intro item hItem
    rcases Walk.exists_of_forall₂ hItems hItem with ⟨site, hSite, hFound⟩
    exact hFound.isOf (Site.isReached_of_sitesBelow hPath hChildren hSite)

------ Serial Clauses

/- What is said of a serial clause once it is planned. -/
structure SerialFound (logic : Logic tree visit start) (point : logic.Point)
    (plan : SerialPlan) : Prop where
  has : plan.Has tree logic.Places
  isOf : plan.IsOf tree (logic.Calls point) start

theorem SerialFound.of_later (hFound : logic.SerialFound point plan)
    (hLater : logic.Later point later) : logic.SerialFound later plan :=
  ⟨hFound.has, hFound.isOf.mono fun _ _ => logic.calls hLater⟩

variable (logic)

/- The units of a serial clause were accepted. -/
theorem serial_holds (hLeads : Leads tree logic.total logic.inside site.node)
    (hWay : logic.known → Reached tree logic.tier start site.node)
    (hReached : site.IsReached tree start) (mayOpenFrame : Bool) :
    logic.Holds point (serial tree visit site mayOpenFrame) fun later plan =>
        logic.SerialFound later plan ∧ plan.site = site := by
  apply logic.walk_bind (logic.ends hLeads fun _ _ hNode => ⟨_, attr_eq hNode⟩)
  intro attr hAttr
  apply logic.unless_bind
  intro hSerial
  rw [Classical.not_not.mp hSerial] at hAttr
  apply logic.walk_bind (logic.ends hLeads
    fun _ hTree hNode => hTree.isFinite.hasLabels_ends ⟨_, hNode⟩)
  intro hasLabels _
  apply logic.unless_bind
  intro _
  apply logic.walk_bind (logic.ends hLeads fun _ hTree hNode => hTree.children_ends hNode)
  intro children hChildren
  apply logic.unless_bind
  intro hNonempty
  have hItems : logic.Holds point ((sitesBelow site.path children).mapM (item tree visit))
      fun later items => List.Forall₂ (fun site item => logic.ItemFound site later item)
        (sitesBelow site.path children) items := by
    apply logic.mapM fun hLater hFound => hFound.of_later hLater
    intro below hBelow mid
    have hChild := mem_sitesBelow hBelow
    refine logic.item_holds (logic.spans.of_child hLeads hChildren hChild) fun hKnown => ?_
    exact ⟨_, (hWay hKnown).listed (logic.conforms hKnown).shaped hAttr
      ⟨children, hChildren, hChild⟩⟩
  apply logic.bind hItems
  intro items mid _ hEach
  have hFound : logic.ItemsFound site.node mid items := .of_sites hReached hChildren hEach
  extract_lets finish
  have hFinish : ∀ opensFrame, logic.Holds mid (finish opensFrame) fun later plan =>
        logic.SerialFound later plan ∧ plan.site = site := by
    intro opensFrame
    apply logic.of_pure
    intro last hLast
    refine ⟨SerialFound.of_later ⟨hFound.has, ?_⟩ hLast, rfl⟩
    refine ⟨⟨hReached, hFound.children, hFound.isOf, ?_⟩, hAttr⟩
    rintro rfl
    have hNone := hFound.children
    cases hChildren.symm.trans hNone
    exact hNonempty rfl
  split
  · apply logic.walk_bind (logic.ends hLeads
      fun _ hTree hNode => hTree.inRange.table?_ends ⟨_, hNode⟩)
    rintro (_ | table) _
    · exact hFinish false
    · exact hFinish table.needsInitialisation
  · exact hFinish false

/- The unit of a guard or selector was accepted. -/
theorem selectorUnit_holds {serial : NodeId} (hLeads : Leads tree logic.total logic.inside serial)
    (hThread : logic.known → tree.Thread logic.tier start serial) (mode : ModeId) :
    logic.Holds point (selectorUnit tree serial mode) fun _ unit => logic.Places unit := by
  apply logic.walk_bind (logic.ends hLeads fun _ _ hNode => ⟨_, mode?_eq hNode⟩)
  intro found _
  apply logic.unless_bind
  intro _
  apply logic.tier_bind fun tier => by simp only [SyntaxTree.isBasicSerial_min]
  intro tier hTier
  apply logic.walk_bind (logic.ends hLeads
    fun _ hTree hNode => hTree.isFinite.isBasicSerial_ends hNode tier)
  intro isBasic hBasic
  split
  · rename_i hYes
    subst hYes
    apply logic.walk_bind (logic.ends hLeads fun _ _ hNode => sub?_ends hNode)
    rintro (_ | unit) hUnit
    · exact logic.of_failure
    · refine logic.of_pure fun _ _ => ⟨.serial hBasic hUnit, fun hKnown => ?_⟩
      rw [hTier hKnown] at hBasic
      rcases SyntaxTree.isBasic_of_isBasicSerial (logic.conforms hKnown).shaped hBasic with
        ⟨only, attr, hSerial, hKids, -, -, hOnly⟩
      cases (SyntaxTree.sub?_eq hKids).symm.trans hUnit
      exact ⟨(hThread hKnown).tail (SyntaxTree.keeps_of_isBasic hSerial rfl hOnly
        ⟨_, hKids, List.mem_singleton_self _⟩), hOnly⟩
  · exact logic.of_failure

theorem partSerial_holds (hPart : logic.inside part)
    (hWay : logic.known → ∀ serial, tree.sub? part = .ok (some serial) →
      Reached tree logic.tier start serial)
    (hPath : tree.follow start path = .ok (some part)) :
    logic.Holds point (partSerial tree visit part path) fun later plan =>
        logic.SerialFound later plan ∧ tree.sub? part = .ok (some plan.site.node) := by
  have hLeads := logic.spans.leads hPart
  apply logic.walk_bind (logic.ends hLeads fun _ _ hNode => sub?_ends hNode)
  rintro (_ | serial) hSub
  · exact logic.of_failure
  · have hSerial : logic.inside serial := hLeads.link serial (link_of_sub? hSub)
    have hReached : Site.IsReached tree start ⟨serial, path.sub⟩ := by
      rw [Site.IsReached, follow_sub hPath, hSub]
    apply logic.mono (logic.serial_holds (logic.spans.leads hSerial)
      (fun hKnown => hWay hKnown serial hSub) hReached true)
    rintro later plan ⟨hFound, hSite⟩
    rw [hSite]
    exact ⟨hFound, hSub⟩

variable {logic}

theorem SerialFound.isPart (hFound : logic.SerialFound point plan)
    (hPart : tree.HasPart id pos attr part) (hSub : tree.sub? part = .ok (some plan.site.node)) :
    plan.IsPart tree (logic.Calls point) start id pos attr :=
  ⟨hFound.isOf, part, hPart, hSub⟩

end Logic

theorem givesNothing_ends (hTree : tree.IsRegular) (hNode : tree.node id = .ok node) :
    (givesNothing tree id).Ends := by
  apply Walk.Ends.bind ⟨_, mode?_eq hNode⟩
  rintro (_ | mode) hMode
  · exact .of_pure
  · exact ModeTable.isVoid_ends (hTree.inRange.mode?_lt hMode)

------ Conditional and Case Clauses

/- A clause has two parts and perhaps a tail, which ends it or goes on with it. -/
def HasTail (tree : SyntaxTree) (id : NodeId) (first second last next : Attribute) : Prop :=
  ∃ left right, ∃ tail : Option NodeId, tree.children id = .ok (left :: right :: tail.toList) ∧
      tree.attr left = .ok first ∧ tree.attr right = .ok second ∧
          ∀ part ∈ tail, tree.attr part = .ok last ∨ tree.attr part = .ok next

namespace HasTail

variable {next : Attribute} (hTail : HasTail tree id first second last next)

include hTail

theorem firstParts : ∃ left right, tree.firstChildren id 2 = .ok [left, right] ∧
    tree.attr left = .ok first ∧ tree.attr right = .ok second := by
  rcases hTail with ⟨left, right, tail, hKids, hLeft, hRight, -⟩
  exact ⟨left, right, SyntaxTree.firstChildren_eq hKids 2, hLeft, hRight⟩

theorem child?_ends : ∃ part, tree.child? id 2 = .ok part := by
  rcases hTail with ⟨left, right, tail, hKids, -⟩
  exact ⟨_, SyntaxTree.child?_eq hKids 2⟩

theorem of_child? (hTree : tree.IsRegular) (hPart : tree.child? id 2 = .ok (some part))
    (hAttr : tree.attr part = .ok attr) :
    tree.rank part < tree.rank id ∧ (attr = last ∨ attr = next) := by
  rcases hTail with ⟨left, right, tail, hKids, -, -, hTail⟩
  rw [SyntaxTree.child?_eq hKids, Except.ok.injEq] at hPart
  have hSome : tail = some part := by
    cases tail with
    | none => cases hPart
    | some found => exact hPart
  subst hSome
  refine ⟨hTree.forest.rank_lt_of_child hKids (by simp), ?_⟩
  simpa [hAttr] using hTail part rfl

end HasTail

theorem exists_node_of_attr {next : Attribute}
    (hAttr : tree.attr id = .ok whole ∨ tree.attr id = .ok next) :
    ∃ node, tree.node id = .ok node ∧ (node.attr = whole ∨ node.attr = next) := by
  rcases hAttr with hAttr | hAttr
  · rcases Classifier.attr_eq_ok.mp hAttr with ⟨node, hNode, hSame⟩
    exact ⟨node, hNode, .inl hSame⟩
  · rcases Classifier.attr_eq_ok.mp hAttr with ⟨node, hNode, hSame⟩
    exact ⟨node, hNode, .inr hSame⟩

theorem conditionalParts (hTree : tree.Conforms)
    (hAttr : tree.attr id = .ok .conditionalClause ∨ tree.attr id = .ok .elifPart) :
    HasTail tree id .ifPart .thenPart .elsePart .elifPart := by
  rcases exists_node_of_attr hAttr with ⟨node, hNode, hAttr⟩
  exact hTree.shaped.conditionalChildren hNode hAttr

theorem caseParts (hTree : tree.Conforms)
    (hAttr : tree.attr id = .ok .caseClause ∨ tree.attr id = .ok .ousePart) :
    HasTail tree id .casePart .inPart .outPart .ousePart := by
  rcases exists_node_of_attr hAttr with ⟨node, hNode, hAttr⟩
  exact hTree.shaped.caseChildren hNode hAttr

theorem exists_tail (hTree : tree.Conforms) (kind : ChoiceKind)
    (hAttr : tree.attr id = .ok kind.clause ∨ tree.attr id = .ok kind.more) :
    ∃ first second, HasTail tree id first second kind.last kind.more := by
  cases kind with
  | guarded => exact ⟨_, _, conditionalParts hTree hAttr⟩
  | numbered => exact ⟨_, _, caseParts hTree hAttr⟩

theorem exists_choice (kind : ChoiceKind)
    (hAttr : tree.attr id = .ok kind.clause ∨ tree.attr id = .ok kind.more) :
    ∃ attr ∈ choiceClauses, tree.attr id = .ok attr := by
  rcases hAttr with hAttr | hAttr
  · exact ⟨_, by cases kind <;> simp [choiceClauses, ChoiceKind.clause], hAttr⟩
  · exact ⟨_, by cases kind <;> simp [choiceClauses, ChoiceKind.more], hAttr⟩

namespace Logic

variable (logic : Logic tree visit start) (hLeads : Leads tree logic.total logic.inside id)
  (hWay : logic.known → tree.Way logic.tier start id)
  (hPath : tree.follow start path = .ok (some id))

/- What was found of a clause: a selector, and branches of the kind of the clause. -/
def Chooses (kind : ChoiceKind) (id : NodeId) (later : logic.Point)
    (found : NodeId × Branches) : Prop :=
  logic.Places found.1 ∧ (∀ item ∈ found.2.items, item.Has tree logic.Places) ∧
    found.2.AreOf tree (logic.Calls later) start id ∧ found.2.kind = kind

include hWay

theorem reached_of_choice
    (hChoice : ∃ attr ∈ choiceClauses, tree.attr id = .ok attr) {serial : NodeId}
    (hChild : tree.IsShaped → tree.IsChild id part) (hPart : tree.attr part = .ok attr)
    (hHolds : attr.holdsSerial = true) (hBasic : attr.mayBeBasic = false)
    (hSub : tree.sub? part = .ok (some serial)) (hKnown : logic.known) :
    Reached tree logic.tier start serial := by
  have hShaped := (logic.conforms hKnown).shaped
  have hPartWay := way_of_part (hWay hKnown) hChoice (hChild hShaped) hPart hBasic
  exact reached_of_part hShaped hPart hHolds hSub hPartWay.thread fun _ => hPartWay

include hLeads

omit hWay in
/- The first two parts of a clause. -/
theorem firstParts_bind {next : Attribute} {rest : NodeId → NodeId → Planning α}
    {post : logic.Point → α → Prop}
    (hTail : tree.Conforms → HasTail tree id first second last next)
    (hRest : ∀ left right, tree.child? id 1 = .ok (some right) →
      (∀ part ∈ [left, right], logic.inside part ∧ (tree.IsShaped → tree.IsChild id part)) →
      (tree.Conforms → tree.attr left = .ok first ∧ tree.attr right = .ok second) →
        logic.Holds point (rest left right) post) :
    logic.Holds point (do
        match ← (liftM (tree.firstChildren id 2) : Planning (List NodeId)) with
        | [left, right] => rest left right
        | _ => liftM (tree.violation id invariant : Walk α)) post := by
  have hFound := fun hTree => (hTail hTree).firstParts
  apply logic.walk_bind fun hTotal =>
    (hFound (logic.spans.conforms hTotal)).elim fun _ ⟨_, hKids, _⟩ => ⟨_, hKids⟩
  intro kids hKids
  split
  · rename_i left right
    refine hRest left right (by simp [SyntaxTree.child?, hKids]) ?_ ?_
    · exact fun part hPart => ⟨logic.spans.of_firstChildren hLeads hKids part hPart,
        fun hShaped => SyntaxTree.isChild_of_firstChildren hShaped hKids hPart⟩
    · intro hTree
      rcases hFound hTree with ⟨_, _, hSame, hAttrs⟩
      cases hKids.symm.trans hSame
      exact hAttrs
  · rename_i hOther
    refine logic.of_violation ?_ _ _
    intro hTotal
    rcases hFound (logic.spans.conforms hTotal) with ⟨left, right, hSame, -⟩
    exact hOther left right (Except.ok.inj (hKids.symm.trans hSame))

include hPath

theorem guardAndBranch_holds
    (hAttr : tree.attr id = .ok .conditionalClause ∨ tree.attr id = .ok .elifPart) :
    logic.Holds point (guardAndBranch tree visit id path) (logic.Chooses .guarded id) := by
  have hChoice := exists_choice .guarded hAttr
  refine logic.firstParts_bind hLeads (fun hTree => conditionalParts hTree hAttr) ?_
  intro ifPart thenPart hChild hParts hAttrs
  rcases hParts ifPart (by simp) with ⟨hIfInside, hBelowIf⟩
  rcases hParts thenPart (by simp) with ⟨hThenInside, hBelowThen⟩
  have hIf := logic.spans.leads hIfInside
  have hThen := logic.spans.leads hThenInside
  apply logic.walk_bind (logic.ends hIf fun node _ hNode => ⟨node, hNode⟩)
  intro guardPart hGuard
  apply logic.walk_bind (logic.ends hThen fun _ _ hNode => ⟨_, attr_eq hNode⟩)
  intro thenAttr hThenAttr
  extract_lets finish
  have hFinish : thenAttr = .thenPart →
      logic.Holds point (finish ()) (logic.Chooses .guarded id) := by
    rintro rfl
    unfold finish
    cases hSub : guardPart.sub with
    | none =>
      refine logic.of_violation ?_ _ _
      intro hTotal
      have hTree := logic.spans.conforms hTotal
      have hAttr : guardPart.attr = .ifPart := by
        simpa [attr_eq hGuard] using (hAttrs hTree).1
      rcases hTree.shaped.serialChild hGuard (by rw [hAttr]; rfl) with ⟨serial, hSerial, -⟩
      cases (SyntaxTree.sub_eq_head? hGuard hSerial).symm.trans hSub
    | some serial =>
      have hSerial : logic.inside serial := hIf.link serial ⟨guardPart, hGuard, .inl hSub⟩
      have hFirst : tree.sub? ifPart = .ok (some serial) := by simp [sub?, hGuard, hSub]
      apply logic.bind (logic.selectorUnit_holds (logic.spans.leads hSerial)
        (fun hKnown => (logic.reached_of_choice hWay hChoice hBelowIf
          (hAttrs (logic.conforms hKnown)).1 rfl rfl hFirst hKnown).thread) _)
      intro guard mid _ hGuardUnit
      apply logic.bind (logic.partSerial_holds hThenInside (fun hKnown serial hSub =>
        logic.reached_of_choice hWay hChoice hBelowThen hThenAttr rfl rfl hSub hKnown)
        (follow_child hPath hChild))
      rintro yes later - ⟨hYes, hSerialOf⟩
      apply logic.of_pure
      intro last hLast
      have hFound := hYes.of_later hLast
      exact ⟨hGuardUnit, hFound.has, ⟨hAttr, hFound.isPart ⟨hChild, hThenAttr⟩ hSerialOf⟩, rfl⟩
  split
  · rename_i hOrder
    have hNone : logic.Holds point (liftM (tree.violation id .conditionalPartsOrder : Walk Unit))
        fun _ _ => False := by
      refine logic.of_violation ?_ _ _
      intro hTotal
      rcases hAttrs (logic.spans.conforms hTotal) with ⟨hLeft, hRight⟩
      rw [attr_eq hGuard, Except.ok.injEq] at hLeft
      rw [hThenAttr, Except.ok.injEq] at hRight
      rcases hOrder with hOrder | hOrder
      · exact hOrder hLeft
      · exact hOrder hRight
    exact logic.bind hNone fun _ _ _ hNever => hNever.elim
  · rename_i hOrder
    apply hFinish
    by_contra hOther
    exact hOrder (.inr hOther)

theorem selectorAndArms_holds
    (hAttr : tree.attr id = .ok .caseClause ∨ tree.attr id = .ok .ousePart) :
    logic.Holds point (selectorAndArms tree visit id path) (logic.Chooses .numbered id) := by
  have hChoice := exists_choice .numbered hAttr
  refine logic.firstParts_bind hLeads (fun hTree => caseParts hTree hAttr) ?_
  intro casePart inPart hChild hParts hAttrs
  rcases hParts casePart (by simp) with ⟨hCaseInside, hBelowCase⟩
  rcases hParts inPart (by simp) with ⟨hInInside, hBelowIn⟩
  have hCase := logic.spans.leads hCaseInside
  have hIn := logic.spans.leads hInInside
  apply logic.walk_bind (logic.ends hCase fun _ _ hNode => sub?_ends hNode)
  rintro (_ | serial) hSub
  · exact logic.of_failure
  · have hSerial : logic.inside serial := hCase.link serial (link_of_sub? hSub)
    apply logic.bind (logic.selectorUnit_holds (logic.spans.leads hSerial)
      (fun hKnown => (logic.reached_of_choice hWay hChoice hBelowCase
        (hAttrs (logic.conforms hKnown)).1 rfl rfl hSub hKnown).thread) _)
    intro sel mid _ hSel
    apply logic.walk_bind (logic.ends hIn fun _ hTree hNode => hTree.children_ends hNode)
    intro children hChildren
    have hSites : ∀ site ∈ sitesBelow (path.child 1) children, logic.inside site.node :=
      fun site hSite => logic.spans.of_child hIn hChildren (mem_sitesBelow hSite)
    have hListed : logic.known → ∀ site ∈ sitesBelow (path.child 1) children,
        ∃ list, Listed tree logic.tier start list site.node := by
      intro hKnown site hSite
      have hTree := logic.conforms hKnown
      have hIs := (hAttrs hTree).2
      have hInWay := way_of_part (hWay hKnown) hChoice (hBelowIn hTree.shaped) hIs rfl
      exact ⟨inPart, ⟨children, hChildren, mem_sitesBelow hSite⟩, ⟨_, hIs, rfl⟩, hInWay.thread,
        fun _ _ _ => hInWay⟩
    apply logic.bind (logic.statements_holds hSites hListed)
    intro arms later _ hArms
    apply logic.of_pure
    intro last hLast
    have hFound : logic.ItemsFound inPart last arms := .of_sites (follow_child hPath hChild)
      hChildren (hArms.imp fun _ _ hArm => hArm.1.of_later hLast)
    refine ⟨hSel, hFound.has, ⟨hAttr, ⟨inPart, hChild, hFound.children⟩, hFound.isOf, ?_⟩, rfl⟩
    intro arm hArm
    rcases Walk.exists_of_forall₂ hArms hArm with ⟨site, -, hPlain⟩
    exact hPlain.2

theorem branchesOf_holds (kind : ChoiceKind)
    (hAttr : tree.attr id = .ok kind.clause ∨ tree.attr id = .ok kind.more) :
    logic.Holds point (branchesOf tree visit kind id path) (logic.Chooses kind id) := by
  cases kind with
  | guarded => exact logic.guardAndBranch_holds hLeads hWay hPath hAttr
  | numbered => exact logic.selectorAndArms_holds hLeads hWay hPath hAttr

/- The units of a choice were accepted. -/
theorem choice_holds (kind : ChoiceKind) (hFuel : logic.total → tree.rank id < fuel)
    (hAttr : tree.attr id = .ok kind.clause ∨ tree.attr id = .ok kind.more) :
    logic.Holds point (choice tree visit kind fuel id path) fun later plan =>
        plan.Has tree logic.Places ∧ plan.IsOf tree (logic.Calls later) start id := by
  induction fuel generalizing point id path with
  | zero => exact logic.of_endless fun hTotal => Nat.not_lt_zero _ (hFuel hTotal)
  | succ fuel ih =>
    have hTail := fun hTotal => exists_tail (logic.spans.conforms hTotal) kind hAttr
    have hChoice := exists_choice kind hAttr
    apply logic.bind (logic.branchesOf_holds hLeads hWay hPath kind hAttr)
    rintro ⟨selector, branches⟩ mid - ⟨hSelector, hItems, hBranches, hKind⟩
    subst hKind
    apply logic.walk_bind fun hTotal => (hTail hTotal).elim fun _ ⟨_, hParts⟩ => hParts.child?_ends
    rintro (_ | part) hPart
    · apply logic.walk_bind (logic.ends hLeads fun _ hTree hNode =>
          givesNothing_ends hTree.toIsRegular hNode)
      intro nothing hNothing
      split
      · rename_i hVoid
        subst hVoid
        apply logic.of_pure
        intro last hLast
        exact ⟨⟨hSelector, hItems, trivial⟩,
          .only (hBranches.mono fun _ _ => logic.calls hLast) hNothing⟩
      · exact logic.of_failure
    · have hInside := logic.spans.of_child? hLeads hPart
      have hBelow := fun hShaped => SyntaxTree.isChild_of_child? hShaped hPart
      apply logic.walk_bind (logic.ends (logic.spans.leads hInside)
          fun _ _ hNode => ⟨_, attr_eq hNode⟩)
      intro attr hPartAttr
      have hFound : logic.total → tree.rank part < tree.rank id ∧
          (attr = branches.kind.last ∨ attr = branches.kind.more) := by
        intro hTotal
        rcases hTail hTotal with ⟨_, _, hParts⟩
        exact hParts.of_child? (logic.spans.conforms hTotal).toIsRegular hPart hPartAttr
      have hPartPath := follow_child hPath hPart
      split
      · rename_i hIsLast
        subst hIsLast
        apply logic.bind (logic.partSerial_holds hInside (fun hKnown serial hSub =>
          logic.reached_of_choice hWay hChoice hBelow hPartAttr
            (by cases branches <;> rfl) (by cases branches <;> rfl) hSub hKnown) hPartPath)
        rintro found later hLater ⟨hSerial, hSub⟩
        apply logic.of_pure
        intro last hLast
        have hFound := hSerial.of_later hLast
        exact ⟨⟨hSelector, hItems, hFound.has⟩,
          .last (hBranches.mono fun _ _ => logic.calls (logic.trans hLater hLast))
            (hFound.isPart ⟨hPart, hPartAttr⟩ hSub)⟩
      · rename_i hNotLast
        split
        · rename_i hIsMore
          subst hIsMore
          refine logic.bind (ih (logic.spans.leads hInside) ?_ hPartPath ?_ (.inr hPartAttr)) ?_
          · exact fun hKnown => way_of_part (hWay hKnown) hChoice
              (hBelow (logic.conforms hKnown).shaped) hPartAttr (by cases branches <;> rfl)
          · exact fun hTotal => (hFound hTotal).1.trans_le (Nat.le_of_lt_succ (hFuel hTotal))
          · rintro rest later hLater ⟨hRest, hRestOf⟩
            apply logic.of_pure
            intro last hLast
            exact ⟨⟨hSelector, hItems, hRest⟩,
              .more (hBranches.mono fun _ _ => logic.calls (logic.trans hLater hLast))
                ⟨hPart, hPartAttr⟩ (hRestOf.mono fun _ _ => logic.calls hLast)⟩
        · rename_i hNotMore
          exact logic.of_violation (fun hTotal => (hFound hTotal).2.elim hNotLast hNotMore) _ _

end Logic

------ Loops

/- The bounds that were found are the three of a loop. -/
theorem LoopOutline.forall_bounds (outline : LoopOutline) {among : NodeId → Prop}
    (hStart : ∀ bound ∈ outline.start, among bound) (hStep : ∀ bound ∈ outline.step, among bound)
    (hLimit : ∀ bound ∈ outline.limit, among bound) : ∀ bound ∈ outline.bounds, among bound := by
  intro bound hBound
  simp only [LoopOutline.bounds, mem_filterMap] at hBound
  rcases hBound with ⟨found, hFound, hSame⟩
  subst hSame
  simp only [mem_cons, not_mem_nil, or_false] at hFound
  rcases hFound with hFound | hFound | hFound
  · exact hStart bound hFound.symm
  · exact hStep bound hFound.symm
  · exact hLimit bound hFound.symm

/- What was found of a loop: a counter, bounds, and a body that its path leads to. -/
structure LoopOutline.IsFrom (outline : LoopOutline) (tree : SyntaxTree)
    (bound body : NodeId → Prop) (loop : NodeId) : Prop where
  counter : ∀ tag ∈ outline.counter, ∃ id node, tree.node id = .ok node ∧ node.tag = some tag
  start : ∀ id ∈ outline.start, bound id
  step : ∀ id ∈ outline.step, bound id
  limit : ∀ id ∈ outline.limit, bound id
  body : ∀ entry ∈ outline.body, body entry.1
  placed : ∀ entry ∈ outline.body, tree.follow loop (Path.start.child entry.2).sub =
      .ok (some entry.1)

/- The parts of a loop that are still to be looked at. -/
structure RemainingParts (tree : SyntaxTree) (loop : NodeId) (outline : LoopOutline)
    (first : Option NodeId) (fuel : Nat) (ids : List NodeId) : Prop where
  siblings : tree.Siblings first ids
  length : ids.length ≤ fuel
  below : ∀ id ∈ ids, tree.IsChild loop id
  attrs : ∀ id ∈ ids, ∃ attr ∈ Attribute.loopParts, tree.attr id = .ok attr
  body : outline.body.isSome ∨ ∃ id ∈ ids, tree.attr id = .ok .doPart

namespace RemainingParts

theorem body_of_none (hParts : RemainingParts tree id outline none fuel ids) :
    outline.body.isSome := by
  obtain rfl : ids = [] := head?_eq_none_iff.mp hParts.siblings.head?_eq
  rcases hParts.body with hFound | ⟨other, hOther, -⟩
  · exact hFound
  · cases hOther

theorem fuel_ne_zero (hParts : RemainingParts tree id outline (some part) 0 ids) : False := by
  rcases hParts.siblings.exists_rest with ⟨rest, node, rfl, -⟩
  cases hParts.length

theorem isChild (hParts : RemainingParts tree id outline (some part) fuel ids) :
    tree.IsChild id part := by
  rcases hParts.siblings.exists_rest with ⟨rest, node, rfl, -⟩
  exact hParts.below part mem_cons_self

theorem attr (hParts : RemainingParts tree id outline (some part) fuel ids)
    (hNode : tree.node part = .ok node) : node.attr ∈ Attribute.loopParts := by
  rcases hParts.siblings.exists_rest with ⟨rest, _, rfl, -⟩
  rcases hParts.attrs part mem_cons_self with ⟨attr, hAttr, hFound⟩
  rw [attr_eq hNode, Except.ok.injEq] at hFound
  rw [hFound]
  exact hAttr

theorem tail {next : LoopOutline}
    (hParts : RemainingParts tree id outline (some part) (fuel + 1) ids)
    (hNode : tree.node part = .ok node)
    (hBody : (outline.body.isSome ∨ node.attr = .doPart) → next.body.isSome) :
    ∃ rest, RemainingParts tree id next node.next fuel rest := by
  rcases hParts.siblings.exists_rest with ⟨rest, _, rfl, hAgain, hRest⟩
  cases hNode.symm.trans hAgain
  refine ⟨rest, hRest, Nat.le_of_succ_le_succ hParts.length, ?_, ?_, ?_⟩
  · intro other hOther
    exact hParts.below other (mem_cons_of_mem _ hOther)
  · intro other hOther
    exact hParts.attrs other (mem_cons_of_mem _ hOther)
  · rcases hParts.body with hFound | ⟨other, hOther, hAttr⟩
    · exact .inl (hBody (.inl hFound))
    · rcases mem_cons.mp hOther with rfl | hLater
      · rw [attr_eq hNode, Except.ok.injEq] at hAttr
        exact .inl (hBody (.inr hAttr))
      · exact .inr ⟨other, hLater, hAttr⟩

end RemainingParts

theorem hasBasicBounds_ends (hTree : tree.IsRegular)
    (hNodes : ∀ bound ∈ outline.bounds, ∃ node, tree.node bound = .ok node) (tier : Nat) :
    (hasBasicBounds tree tier outline).Ends := by
  apply Walk.Ends.allM
  intro bound hBound
  rcases hNodes bound hBound with ⟨node, hNode⟩
  apply Walk.Ends.bind ⟨_, mode?_eq hNode⟩
  intro mode _
  apply Walk.Ends.ite
  · exact fun _ => hTree.isFinite.isBasic_ends hNode tier
  · exact fun _ => .of_pure

theorem isBasic_of_hasBasicBounds (hBasic : hasBasicBounds tree tier outline = .ok true)
    (hBound : bound ∈ outline.bounds) : tree.isBasic bound tier = .ok true := by
  have hEach := Walk.allM_eq_true.mp hBasic bound hBound
  rcases Walk.bind_eq_ok.mp hEach with ⟨mode, -, hEach⟩
  split at hEach
  · exact hEach
  · cases hEach

namespace Logic

variable (logic : Logic tree visit start)

/- What was found of a loop may be visited, and stands in it. -/
def IsIn (loop : NodeId) (attrs : List Attribute) (id : NodeId) : Prop :=
  logic.inside id ∧ (logic.known → InPart tree loop attrs id)

/- What is said of the parts of a loop once they were found. -/
def Outlines (loop : NodeId) (outline : LoopOutline) : Prop :=
  outline.IsFrom tree (logic.IsIn loop [.fromPart, .byPart, .toPart, .downtoPart])
    (logic.IsIn loop [.doPart]) loop

theorem noParts_holds (hOutline : logic.Outlines id outline)
    (hParts : tree.Conforms → ∃ ids, RemainingParts tree id outline none fuel ids) :
    logic.Holds point (pure outline) fun _ found => logic.Outlines id found ∧
        (logic.total → found.body.isSome) := by
  refine logic.of_pure fun _ _ => ⟨hOutline, fun hTotal => ?_⟩
  rcases hParts (logic.spans.conforms hTotal) with ⟨ids, hRemaining⟩
  exact hRemaining.body_of_none

theorem loopOutline_holds (hOutline : logic.Outlines id outline)
    (hFirst : ∀ head ∈ first, logic.inside head)
    (hPath : tree.follow id (Path.start.child pos) = .ok first)
    (hParts : tree.Conforms → ∃ ids, RemainingParts tree id outline first fuel ids) :
    logic.Holds point (loopOutline tree fuel pos outline first)
      fun _ found => logic.Outlines id found ∧ (logic.total → found.body.isSome) := by
  induction fuel generalizing pos outline first with
  | zero =>
    cases first with
    | none => exact logic.noParts_holds hOutline hParts
    | some part =>
      refine logic.of_endless fun hTotal => ?_
      rcases hParts (logic.spans.conforms hTotal) with ⟨ids, hRemaining⟩
      exact hRemaining.fuel_ne_zero
  | succ fuel ih =>
    cases first with
    | none => exact logic.noParts_holds hOutline hParts
    | some part =>
      have hLeads := logic.spans.leads (hFirst part rfl)
      apply logic.walk_bind (logic.ends hLeads fun node _ hNode => ⟨node, hNode⟩)
      intro node hNode
      have hSub : ∀ attrs, node.attr ∈ attrs → ∀ kid ∈ node.sub, logic.IsIn id attrs kid := by
        intro attrs hMem kid hKid
        refine ⟨hLeads.link kid ⟨node, hNode, .inl hKid⟩, fun hKnown => ?_⟩
        rcases hParts (logic.conforms hKnown) with ⟨ids, hRemaining⟩
        refine ⟨part, node.attr, hRemaining.isChild, attr_eq hNode, hMem, ?_⟩
        simpa [sub?, hNode] using hKid
      have hNext : ∀ kid ∈ node.next, logic.inside kid := fun kid hKid =>
          hLeads.link kid ⟨node, hNode, .inr hKid⟩
      have hNextPath : tree.follow id (Path.start.child (pos + 1)) = .ok node.next :=
        SyntaxTree.follow_next hPath hNode
      extract_lets go
      have hGo : ∀ next : LoopOutline, logic.Outlines id next →
          (tree.Conforms → outline.body.isSome ∨ node.attr = .doPart → next.body.isSome) →
          logic.Holds point (go next)
            fun _ found => logic.Outlines id found ∧ (logic.total → found.body.isSome) := by
        intro next hFrom hBody
        refine ih hFrom hNext hNextPath fun hTree => ?_
        rcases hParts hTree with ⟨ids, hRemaining⟩
        exact hRemaining.tail hNode (hBody hTree)
      have hKept : node.attr ≠ .doPart → tree.Conforms → outline.body.isSome ∨
            node.attr = .doPart → outline.body.isSome :=
        fun hAttr _ hBody => hBody.resolve_right hAttr
      split
      case h_1 hAttr =>
        refine hGo _ { hOutline with counter := ?_ } (hKept (by simp [hAttr]))
        intro tag hTag
        exact ⟨part, node, hNode, hTag⟩
      case h_2 hAttr =>
        exact hGo _ { hOutline with start := hSub _ (by simp [hAttr]) } (hKept (by simp [hAttr]))
      case h_3 hAttr =>
        exact hGo _ { hOutline with step := hSub _ (by simp [hAttr]) } (hKept (by simp [hAttr]))
      case h_4 hAttr =>
        exact hGo _ { hOutline with limit := hSub _ (by simp [hAttr]) } (hKept (by simp [hAttr]))
      case h_5 hAttr =>
        exact hGo _ { hOutline with limit := hSub _ (by simp [hAttr]) } (hKept (by simp [hAttr]))
      case h_6 hAttr =>
        refine hGo _ { hOutline with body := ?_, placed := ?_ } ?_
        · intro entry hEntry
          rcases Option.map_eq_some_iff.mp hEntry with ⟨kid, hKid, rfl⟩
          exact hSub _ (by simp [hAttr]) kid hKid
        · intro entry hEntry
          rcases Option.map_eq_some_iff.mp hEntry with ⟨kid, hKid, rfl⟩
          rw [follow_sub hPath]
          simp [sub?, hNode, hKid]
        · intro hTree _
          rcases hTree.shaped.serialChild hNode (by rw [hAttr]; rfl) with ⟨serial, hSerial, -⟩
          simp [SyntaxTree.sub_eq_head? hNode hSerial]
      case h_7 => exact logic.of_failure
      case h_8 => exact logic.of_failure
      case h_9 =>
        refine logic.of_violation (fun hTotal => ?_) _ _
        rcases hParts (logic.spans.conforms hTotal) with ⟨ids, hRemaining⟩
        have hAttr := hRemaining.attr hNode
        simp only [Attribute.loopParts, mem_cons, not_mem_nil, or_false] at hAttr
        rcases hAttr with
          hAttr | hAttr | hAttr | hAttr | hAttr | hAttr | hAttr | hAttr <;>
          contradiction

/- The units of a loop were accepted. -/
theorem loop_holds (hLeads : Leads tree logic.total logic.inside start)
    (hAttr : tree.attr start = .ok .loopClause) :
    logic.Holds point (loop tree visit start) fun later plan =>
      plan.Has tree logic.Places ∧ plan.IsOf tree (logic.Calls later) start := by
  have hWay : tree.Way logic.tier start start := .start (SyntaxTree.not_isBasic_of_attr hAttr rfl)
  apply logic.walk_bind (logic.ends hLeads fun _ _ hNode => sub?_ends hNode)
  intro first hFirst
  have hOutline : logic.Holds point (loopOutline tree tree.bound 0 {} first)
      fun _ found => logic.Outlines start found ∧ (logic.total → found.body.isSome) := by
    refine logic.loopOutline_holds ?_ ?_ ?_ ?_
    · constructor <;> simp
    · rintro head rfl
      exact hLeads.link head (link_of_sub? hFirst)
    · exact (follow_sub rfl).trans hFirst
    · intro hTree
      rcases Classifier.attr_eq_ok.mp hAttr with ⟨node, hNode, hNodeAttr⟩
      rcases hTree.shaped.loopChildren hNode hNodeAttr with ⟨kids, hKids, hAttrs, hBody⟩
      rcases SyntaxTree.children_eq_ok.mp hKids with ⟨again, hAgain, hSibs, hLen⟩
      have hSame : first = again.sub := by simpa [sub?, hAgain] using hFirst.symm
      rw [hSame]
      exact ⟨kids, hSibs, hLen, fun _ hKid => ⟨kids, hKids, hKid⟩, hAttrs, .inr hBody⟩
  apply logic.bind hOutline
  rintro outline mid - ⟨hFrom, hBody⟩
  have hBounds := outline.forall_bounds hFrom.start hFrom.step hFrom.limit
  apply logic.tier_bind fun tier => by simp only [hasBasicBounds, isBasic_min]
  intro tier hTier
  apply logic.walk_bind
  · intro hTotal
    apply hasBasicBounds_ends (logic.spans.conforms hTotal).toIsRegular
    intro bound hBound
    exact logic.spans.nodes hTotal bound (hBounds bound hBound).1
  intro isBasic hBasic
  split
  · rename_i hYes
    subst hYes
    cases hFound : outline.body with
    | none =>
      refine logic.of_violation (fun hTotal => ?_) _ _
      have hSome := hBody hTotal
      rw [hFound] at hSome
      cases hSome
    | some entry =>
      have hEntry := hFrom.body entry hFound
      have hSerial := logic.spans.leads hEntry.1
      have hReached : logic.known → Reached tree logic.tier start entry.1 := by
        intro hKnown
        have hShaped := (logic.conforms hKnown).shaped
        rcases (hEntry.2 hKnown).thread hShaped hWay hAttr (by decide) with
          ⟨part, attr, hDo, hPart, hSub, hPartWay, -⟩
        rcases mem_singleton.mp hDo with rfl
        exact reached_of_part hShaped hPart rfl hSub hPartWay.thread fun _ => hPartWay
      apply logic.walk_bind (logic.ends hSerial
        fun _ hTree hNode => hTree.inRange.table?_ends ⟨_, hNode⟩)
      intro table _
      extract_lets path finish
      have hFinish : ∀ initialise : Bool, logic.Holds mid (finish initialise)
            fun later plan => plan.Has tree logic.Places ∧
              plan.IsOf tree (logic.Calls later) start := by
        intro initialise
        have hPlaced : Site.IsReached tree start ⟨entry.1, path⟩ := hFrom.placed entry hFound
        apply logic.bind (logic.serial_holds hSerial hReached hPlaced false)
        rintro body later - ⟨hSerialFound, -⟩
        apply logic.of_pure
        intro last hLast
        have hAgain := hSerialFound.of_later hLast
        refine ⟨⟨hFrom.counter, ?_, hAgain.has⟩, hAgain.isOf⟩
        intro bound hBound
        refine logic.places_of_isBasic hTier (isBasic_of_hasBasicBounds hBasic hBound) ?_
        intro hKnown _
        rcases ((hBounds bound hBound).2 hKnown).thread (logic.conforms hKnown).shaped hWay hAttr
          (by decide) with ⟨_, _, -, -, -, -, hThread⟩
        exact hThread
      cases table with
      | none => exact hFinish false
      | some table => exact hFinish table.needsInitialisation
  · exact logic.of_failure

end Logic

end Planner

end Algol68
