import Mathlib.Data.Set.Card
import Algol68.Proofs.Ancestry
import Algol68.Proofs.Initialisation

/-
  Calls of `random`.

  A node that calls `random` owns the statement that draws its
  number. The code of a unit draws for each of its nodes once,
  but for those in a slice that is booked for an equal one: the
  indices of such a slice are not computed again.

  Main declarations:
    * `SyntaxTree.Conforms.draws_once`
-/

------ Draws

namespace Algol68

theorem Builtin.eq_random {builtin : Builtin}
    (hSame : builtin.signature.rendering = Builtin.random.signature.rendering) :
    builtin = .random := by
  cases builtin <;> first | rfl | exact absurd hSame (by decide)

namespace Stmt

/- The node for which a statement draws a random number. -/
def draws : Stmt → List NodeId
  | .compute temp (.apply rendering []) =>
    if rendering = Builtin.random.signature.rendering then [temp.owner] else []
  | _ => []

/- The nodes for which statements draw random numbers. -/
def drawsOf (body : List Stmt) : List NodeId := (withinOf body).flatMap draws

@[simp] theorem drawsOf_append (first second : List Stmt) :
    drawsOf (first ++ second) = drawsOf first ++ drawsOf second := by
  simp [drawsOf]

theorem drawsOf_eq_nil (hBody : ∀ stmt ∈ body, stmt.isSimple = true ∧ stmt.draws = []) :
    drawsOf body = [] := by
  induction body with
  | nil => rfl
  | cons stmt rest ih =>
    rcases List.forall_mem_cons.mp hBody with ⟨⟨hSimple, hDraws⟩, hRest⟩
    rw [← List.singleton_append, drawsOf_append, ih hRest]
    simp [drawsOf, within_of_isSimple hSimple, hDraws]

end Stmt

/- Whether a node is a name, a denotation or a sign. -/
def Attribute.isBare : Attribute → Bool
  | .identifier | .denoter | .selector | .is | .isnt | .nihil => true
  | _ => false

variable {tree : SyntaxTree} {attr : Attribute} {id : NodeId}

namespace SyntaxTree

open Inline

/- A node that calls `random`. -/
def IsDraw (tree : SyntaxTree) (id : NodeId) : Prop :=
  tree.attr id = .ok .deproceduring ∧ procedureOf tree id = .ok .random

/- A name, a denotation or a sign, or what stands for a built-in. -/
inductive IsBare (tree : SyntaxTree) (id : NodeId) : Prop
  | of_attr {attr : Attribute} (hAttr : tree.attr id = .ok attr) (hBare : attr.isBare = true)
  | of_builtin {builtin : Builtin} (hBuiltin : tree.builtin? id = .ok (some builtin))

/- Names, denotations and signs below a node have no parts. -/
def BareBelow (tree : SyntaxTree) (id : NodeId) : Prop :=
  ∀ lower, tree.Holds id lower → tree.IsBare lower → tree.children lower = .ok []

/- A node in which a random number is drawn. -/
def HoldsDraw (tree : SyntaxTree) (id : NodeId) : Prop :=
  ∃ draw, tree.Holds id draw ∧ tree.IsDraw draw

/- Different slices below a node are not alike if they draw. -/
def DrawsApart (tree : SyntaxTree) (id : NodeId) : Prop :=
  ∀ first second, tree.Holds id first → tree.Holds id second →
    tree.attr first = .ok .slice → tree.attr second = .ok .slice →
      tree.Alike first second → tree.HoldsDraw second → first = second

/- Nothing is drawn below a name, a denotation or a sign. -/
theorem IsBare.not_draw (hTree : tree.IsRegular) (hBelow : tree.BareBelow unit)
    (hHolds : tree.Holds unit id) (hBare : tree.IsBare id) (hInner : tree.Holds id lower) :
    ¬ tree.IsDraw lower := by
  have hNone : ∀ kid, ¬ tree.IsChild id kid := by
    rintro kid ⟨kids, hKids, hKid⟩
    cases hKids.symm.trans (hBelow id hHolds hBare)
    cases hKid
  rintro ⟨-, hProc⟩
  rcases Relation.ReflTransGen.cases_head hInner with
    rfl | ⟨kid, hChild, -⟩
  · rcases Walk.bind_eq_ok.mp hProc with ⟨kid, hKid, -⟩
    exact hNone kid (isChild_of_childOf hTree hKid)
  · exact hNone kid hChild

------ Parts that Draw

/- The children of a node do not hold the same nodes. -/
theorem IsForest.children_apart (hForest : tree.IsForest) (hKids : tree.children id = .ok kids) :
    kids.Pairwise fun first second => ∀ lower,
      tree.Holds first lower → ¬ tree.Holds second lower := by
  have hNodup : ∀ {first kids}, tree.Siblings first kids → kids.Nodup := by
    intro first kids hSibs
    induction kids generalizing first with
    | nil => exact .nil
    | cons head rest ih =>
      rcases hSibs with ⟨-, node, hNode, hRest⟩
      refine .cons (fun hAgain => ?_) (ih hRest)
      rcases hRest.follows hAgain with ⟨next, hNext, hFollows⟩
      have hLinks : tree.IsNext ≤ tree.Link := by
        rintro _ _ ⟨found, hFound, hAfter⟩
        exact ⟨found, hFound, .inr hAfter⟩
      exact hForest.acyclic head (.head' ⟨node, hNode, .inr hNext⟩
        (Relation.ReflTransGen.mono hLinks _ _ hFollows))
  rcases exists_node_of_children hKids with ⟨_, -, hSibs⟩
  refine (hNodup hSibs).imp_of_mem ?_
  intro first second hFirst hSecond hOther lower hLeft hRight
  have hFirst : tree.IsChild id first := ⟨kids, hKids, hFirst⟩
  have hSecond : tree.IsChild id second := ⟨kids, hKids, hSecond⟩
  rcases hForest.comparable hLeft hRight with hContains | hHolds
  · exact hForest.not_contains_sibling hFirst hSecond hContains
  · rcases hHolds.eq_or_contains with hSame | hContains
    · exact hOther hSame
    · exact hForest.not_contains_sibling hSecond hFirst hContains

/- The parts of a node, which stand among names and signs. -/
def Spans (tree : SyntaxTree) (id : NodeId) (parts : List NodeId) : Prop :=
  tree.attr id ≠ .ok .deproceduring ∧ ∃ kids, tree.children id = .ok kids ∧ parts.Sublist kids ∧
      ∀ kid ∈ kids, kid ∈ parts ∨ tree.IsBare kid

namespace Spans

theorem of_children (hAttr : tree.attr id ≠ .ok .deproceduring)
    (hKids : tree.children id = .ok kids) : tree.Spans id kids :=
  ⟨hAttr, kids, hKids, .refl kids, fun _ => .inl⟩

theorem holds (hSpans : tree.Spans id parts) (hKid : kid ∈ parts) : tree.Holds id kid := by
  rcases hSpans with ⟨-, kids, hKids, hSublist, -⟩
  exact .of_child hKids (hSublist.subset hKid)

theorem apart (hTree : tree.IsRegular) (hSpans : tree.Spans id parts) :
    parts.Pairwise fun first second => ∀ lower,
      tree.Holds first lower → ¬ tree.Holds second lower := by
  rcases hSpans with ⟨-, kids, hKids, hSublist, -⟩
  exact (hTree.forest.children_apart hKids).sublist hSublist

theorem covers (hTree : tree.IsRegular) (hSpans : tree.Spans id parts) (hHolds : tree.Holds unit id)
    (hBelow : tree.BareBelow unit) (hInner : tree.Holds id lower) (hDraw : tree.IsDraw lower) :
    ∃ kid ∈ parts, tree.Holds kid lower := by
  rcases hSpans with ⟨hAttr, kids, hKids, -, hEach⟩
  rcases Relation.ReflTransGen.cases_head hInner with
    rfl | ⟨kid, ⟨found, hFound, hKid⟩, hRest⟩
  · exact absurd hDraw.1 hAttr
  · cases hKids.symm.trans hFound
    rcases hEach kid hKid with hPart | hBare
    · exact ⟨kid, hPart, hRest⟩
    · exact absurd hDraw (hBare.not_draw hTree hBelow (hHolds.trans (.of_child hKids hKid)) hRest)

end Spans

theorem IsRegular.exists_children_of_attr (hTree : tree.IsRegular)
    (hAttr : tree.attr id = .ok attr) :
    ∃ kids attrs, tree.children id = .ok kids ∧
      List.Forall₂ (fun kid attr => tree.attr kid = .ok attr)
        kids attrs ∧ attr.allows attrs = true := by
  rcases Walk.bind_eq_ok.mp hAttr with ⟨node, hNode, hAttr⟩
  cases hAttr
  exact hTree.shaped.exists_children hNode

theorem IsRegular.sliceChildren (hTree : tree.IsRegular) (hAttr : tree.attr id = .ok .slice) :
    ∃ primary indexer, tree.children id = .ok [primary, indexer] ∧
      tree.attr indexer = .ok .indexer := by
  rcases hTree.exists_children_of_attr hAttr with ⟨kids, attrs, hKids, hAttrs, hAllows⟩
  simp only [Attribute.allows, Attribute.holdsSerial,
    Attribute.holdsUnit, Bool.false_eq_true, if_false, Bool.and_eq_true, beq_iff_eq] at hAllows
  rcases List.length_eq_two.mp hAllows.1 with ⟨_, _, rfl⟩
  cases hAllows.2
  rcases hAttrs with _ | ⟨-, _ | ⟨hSecond, _ | _⟩⟩
  exact ⟨_, _, hKids, hSecond⟩

theorem IsRegular.selectionChildren (hTree : tree.IsRegular)
    (hAttr : tree.attr id = .ok .selection) :
    ∃ sel secondary, tree.children id = .ok [sel, secondary] ∧ tree.attr sel = .ok .selector := by
  rcases hTree.exists_children_of_attr hAttr with ⟨kids, attrs, hKids, hAttrs, hAllows⟩
  simp only [Attribute.allows, Attribute.holdsSerial,
    Attribute.holdsUnit, Bool.false_eq_true, if_false, Bool.and_eq_true, beq_iff_eq] at hAllows
  rcases List.length_eq_two.mp hAllows.1 with ⟨_, _, rfl⟩
  cases hAllows.2
  rcases hAttrs with _ | ⟨hFirst, _ | ⟨-, _ | _⟩⟩
  exact ⟨_, _, hKids, hFirst⟩

/- An identity relation has a sign between two names. -/
theorem IsRegular.relationChildren (hTree : tree.IsRegular)
    (hAttr : tree.attr id = .ok .identityRelation) :
    ∃ left sign right, tree.children id = .ok [left, sign, right] ∧ tree.IsBare sign := by
  rcases hTree.exists_children_of_attr hAttr with ⟨kids, attrs, hKids, hAttrs, hAllows⟩
  simp only [Attribute.allows, Attribute.holdsSerial,
    Attribute.holdsUnit, Bool.false_eq_true, if_false,
    Bool.and_eq_true, Bool.or_eq_true, beq_iff_eq] at hAllows
  rcases List.length_eq_three.mp hAllows.1 with ⟨_, _, _, rfl⟩
  rcases hAttrs with _ | ⟨-, _ | ⟨hSecond, _ | ⟨-, _ | _⟩⟩⟩
  refine ⟨_, _, _, hKids, .of_attr hSecond ?_⟩
  rcases hAllows.2 with hSign | hSign <;> simp_all [Attribute.isBare]

end SyntaxTree

------ Code that Draws

namespace Inline

open SyntaxTree Stmt

/- The slices of a region that draw are not booked. -/
def Unbooked (tree : SyntaxTree) (region : NodeId → Prop) (bookings : Bookings) : Prop :=
  ∀ slice element, region slice → tree.attr slice = .ok .slice →
    elementOf tree slice = .ok element → tree.HoldsDraw slice →
      ¬ bookings.Has tree element.pointer.address .execute

/-
  Code for a region of a unit: it draws for nodes of the region that call `random`, once for each,
  and for all of them unless slices are alike. It books slices of the region only.
-/
structure Drawing (tree : SyntaxTree) (unit : NodeId) (region : NodeId → Prop) (before : Bookings)
    (body : List Stmt) (after : Bookings) : Prop where
  below : ∀ node, region node → tree.Holds unit node
  sound : ∀ node ∈ drawsOf body, region node ∧ tree.IsDraw node
  once : (drawsOf body).Nodup
  booked : ∀ slice element, elementOf tree slice = .ok element →
    after.Has tree element.pointer.address .execute →
      before.Has tree element.pointer.address .execute ∨
        ∃ node, region node ∧ tree.attr node = .ok .slice ∧ tree.Alike node slice
  complete : tree.BareBelow unit → tree.DrawsApart unit → Unbooked tree region before →
      ∀ node, region node → tree.IsDraw node → node ∈ drawsOf body

namespace Drawing

/- Where nothing is drawn, nothing needs to be written. -/
theorem silent (hBelow : ∀ node, region node → tree.Holds unit node)
    (hNone : tree.BareBelow unit → Unbooked tree region before →
      ∀ node, region node → ¬ tree.IsDraw node) :
    Drawing tree unit region before [] before where
  below := hBelow
  sound := by simp [drawsOf]
  once := by simp [drawsOf]
  booked := fun _ _ _ => .inl
  complete := fun hBare _ hUnbooked node hNode hDraw =>
    absurd hDraw (hNone hBare hUnbooked node hNode)

theorem write (hBody : Drawing tree unit region before body after) (hMore : drawsOf more = []) :
    Drawing tree unit region before (body ++ more) after := by
  rcases hBody with ⟨hBelow, hSound, hOnce, hBooked, hComplete⟩
  refine ⟨hBelow, ?_, ?_, hBooked, ?_⟩
  all_goals
    rw [drawsOf_append, hMore, List.append_nil]
    assumption

/- Slices of a region are not booked by code for another one. -/
theorem unbooked (hBody : Drawing tree unit region before body after)
    (hBelow : ∀ node, other node → tree.Holds unit node) (hApart : tree.DrawsApart unit)
    (hRegions : ∀ node, region node → ¬ other node) (hUnbooked : Unbooked tree other before) :
    Unbooked tree other after := by
  intro slice elem hSlice hAttr hElem hDraw hHas
  rcases hBody.booked slice elem hElem hHas with hOld | ⟨node, hNode, hFound, hAlike⟩
  · exact hUnbooked slice elem hSlice hAttr hElem hDraw hOld
  · rcases hApart node slice (hBody.below node hNode)
      (hBelow slice hSlice) hFound hAttr hAlike hDraw
    exact hRegions _ hNode hSlice

/- Code that draws for a region, and for another one. -/
theorem merge (hFirst : Drawing tree unit region before first mid)
    (hSecond : Drawing tree unit other start second after)
    (hRegions : ∀ node, region node → ¬ other node)
    (hStart : tree.DrawsApart unit → Unbooked tree other before → Unbooked tree other start)
    (hBody : drawsOf body = drawsOf first ++ drawsOf second)
    (hLast : ∀ slice elem, elementOf tree slice = .ok elem →
      last.Has tree elem.pointer.address .execute →
        before.Has tree elem.pointer.address .execute ∨ ∃ node, (region node ∨ other node) ∧
            tree.attr node = .ok .slice ∧ tree.Alike node slice) :
    Drawing tree unit (fun node => region node ∨ other node) before body last where
  below := fun node hNode => hNode.elim (hFirst.below node) (hSecond.below node)
  sound := by
    intro node hNode
    rw [hBody] at hNode
    rcases List.mem_append.mp hNode with hNode | hNode
    · exact (hFirst.sound node hNode).imp_left .inl
    · exact (hSecond.sound node hNode).imp_left .inr
  once := by
    rw [hBody]
    refine List.nodup_append'.mpr ⟨hFirst.once, hSecond.once, ?_⟩
    exact fun node hLeft hRight => hRegions node
      (hFirst.sound node hLeft).1 (hSecond.sound node hRight).1
  booked := hLast
  complete := by
    intro hBare hApart hUnbooked node hNode hDraw
    rw [hBody, List.mem_append]
    refine hNode.imp (fun hNode => ?_) fun hNode => ?_
    · exact hFirst.complete hBare hApart (fun slice elem hSlice =>
        hUnbooked slice elem (.inl hSlice)) node hNode hDraw
    · exact hSecond.complete hBare hApart (hStart hApart fun slice elem hSlice =>
          hUnbooked slice elem (.inr hSlice)) node hNode hDraw

theorem append (hFirst : Drawing tree unit region before first mid)
    (hSecond : Drawing tree unit other mid second after)
    (hRegions : ∀ node, region node → ¬ other node) :
    Drawing tree unit (fun node => region node ∨ other node) before (first ++ second) after := by
  refine hFirst.merge hSecond hRegions (fun hApart => hFirst.unbooked hSecond.below hApart hRegions)
    (drawsOf_append _ _) fun slice elem hElem hHas => ?_
  rcases hSecond.booked slice elem hElem hHas with hMid | ⟨node, hNode, hSlice⟩
  · exact (hFirst.booked slice elem hElem hMid).imp_right
      fun ⟨node, hNode, hSlice⟩ => ⟨node, .inl hNode, hSlice⟩
  · exact .inr ⟨node, .inr hNode, hSlice⟩

theorem branch {node : NodeId} {guard : Expr} (hYes : Drawing tree unit region before first ofYes)
    (hNo : Drawing tree unit other before second ofNo)
    (hRegions : ∀ node, region node → ¬ other node) :
    Drawing tree unit (fun node => region node ∨ other node)
      before [.branch node guard first second] before :=
  hYes.merge hNo hRegions (fun _ hUnbooked => hUnbooked)
    (by simp [drawsOf, within, draws]) fun _ _ _ => .inl

/- A pointer is booked; if it is of a slice, of one of the region. -/
theorem signIn (hBody : Drawing tree unit region before body after)
    (hAddr : ∀ slice elem, elementOf tree slice =
      .ok elem → address.Matches tree elem.pointer.address →
        ∃ node, region node ∧ tree.attr node = .ok .slice ∧ tree.Alike node slice) :
    Drawing tree unit region before body (after.signIn address .execute owner) where
  below := hBody.below
  sound := hBody.sound
  once := hBody.once
  booked := by
    rintro slice elem hElem ⟨booking, hBooking, hPhase, hSame⟩
    rcases List.mem_append.mp hBooking with hOld | hNew
    · exact hBody.booked slice elem hElem ⟨booking, hOld, hPhase, hSame⟩
    · cases List.mem_singleton.mp hNew
      exact .inr (hAddr slice elem hElem hSame)
  complete := hBody.complete

end Drawing

------ Code of Units

variable {part : Coding}

theorem drawsOf_checks (hCheck : Checks temp check) : drawsOf check = [] := by
  rcases hCheck with rfl | ⟨mode, rfl⟩
  all_goals simp [drawsOf, within, draws]

theorem InTurn.drawing
    (hPart : ∀ {kid before body after value}, kid ∈ parts → part kid before body after value →
        Drawing tree unit (tree.Holds kid) before body after)
    (hApart : parts.Pairwise fun first second => ∀ lower,
      tree.Holds first lower → ¬ tree.Holds second lower)
    (hCode : InTurn part parts before body after vals) :
    Drawing tree unit (fun node => ∃ kid ∈ parts, tree.Holds kid node) before body after := by
  induction hCode with
  | nil => exact .silent (by simp) (by simp)
  | cons hFirst _ ih =>
    rcases List.pairwise_cons.mp hApart with ⟨hHead, hRest⟩
    simp only [List.mem_cons, exists_eq_or_imp]
    refine (hPart List.mem_cons_self hFirst).append
      (ih (fun hKid => hPart (List.mem_cons_of_mem _ hKid)) hRest) ?_
    rintro node hNode ⟨kid, hKid, hOther⟩
    exact hHead kid hKid node hNode hOther

theorem spans_of_operandsOf (hOps : operandsOf tree id = .ok (builtin, parts)) :
    tree.Spans id parts := by
  rcases attr_of_operandsOf hOps with ⟨attr, hAttr, hShape⟩
  rcases exists_children_of_operandsOf hOps with ⟨kids, hKids, hSublist, hOthers⟩
  refine ⟨?_, kids, hKids, hSublist, fun kid hKid => (hOthers kid hKid).imp_right .of_builtin⟩
  rcases hShape with rfl | rfl | rfl
  all_goals simp [hAttr]

theorem spans_of_assignationOf (hTree : tree.IsRegular) (hAttr : tree.attr id = .ok .assignation)
    (hParts : assignationOf tree id = .ok (destination, source)) :
    tree.Spans id [destination, source] := by
  rcases Walk.bind_eq_ok.mp hAttr with ⟨node, hNode, hSame⟩
  rcases hTree.shaped.exists_children_length hNode
    (by rw [Except.ok.inj hSame]; rfl) with ⟨kids, hKids, hLen⟩
  rcases List.length_eq_two.mp hLen with ⟨_, _, rfl⟩
  rcases Walk.bind_eq_ok.mp hParts with ⟨_, hFirst, hParts⟩
  rcases Walk.bind_eq_ok.mp hParts with ⟨_, hSecond, hParts⟩
  cases hParts
  cases hFirst.symm.trans (childOf_eq hKids rfl)
  cases hSecond.symm.trans (childOf_eq hKids rfl)
  exact .of_children (by simp [hAttr]) hKids

theorem spans_of_childOf (hTree : tree.IsRegular) (hAttr : tree.attr id = .ok attr)
    (hUnit : attr.holdsUnit = true) (hOther : attr ≠ .deproceduring)
    (hKid : childOf tree id 0 = .ok kid) : tree.Spans id [kid] := by
  rcases Walk.bind_eq_ok.mp hAttr with ⟨node, hNode, hFound⟩
  cases hFound
  rcases hTree.shaped.unitChild hNode hUnit with ⟨only, hKids⟩
  cases hKid.symm.trans (childOf_eq hKids rfl)
  exact .of_children (by simpa [hAttr] using hOther) hKids

/- The parts of a value, unless it is a sign. -/
theorem Builds.spans (hTree : tree.IsRegular) (hVal : Builds tree id parts vals value) :
    tree.Spans id parts ∨ tree.IsBare id ∧ parts = [] := by
  cases hVal with
  | apply hOps => exact .inl (spans_of_operandsOf hOps)
  | toReal hAttr hOp => exact .inl (spans_of_childOf hTree hAttr rfl (by decide) hOp)
  | sameName hAttr hRel =>
    rcases hTree.relationChildren hAttr with ⟨left, sign, right, hKids, hSign⟩
    simp only [relationOf, Walk.bind_eq_ok] at hRel
    rcases hRel with ⟨_, hLeft, _, -, _, -, _, hRight, hRel⟩
    cases hRel
    cases hLeft.symm.trans (childOf_eq hKids rfl)
    cases hRight.symm.trans (childOf_eq hKids rfl)
    exact .inl ⟨by simp [hAttr], _, hKids, by simp, by simp [hSign]⟩
  | nil hAttr => exact .inr ⟨.of_attr hAttr rfl, rfl⟩

theorem HasResult.not_random (hRes : HasResult tree checked id res)
    (hOps : operandsOf tree id = .ok (builtin, parts)) : builtin ≠ .random := by
  rcases attr_of_operandsOf hOps with ⟨attr, hAttr, hShape⟩
  rintro rfl
  have hOperation : operationOf tree checked id = .ok ⟨.random, parts, none⟩ := by
    simp [operationOf, hOps, Builtin.signature, Builtin.mayRaiseMathError]
  cases hRes.of_operation hAttr hShape hOperation

variable (hTree : tree.IsRegular) (hHolds : tree.Holds unit id)

include hTree hHolds

theorem NamedCode.drawing
    (hAttr : tree.attr id = .ok .identifier) (hAction : named.pointer.address.action ≠ .slice)
    (hCode : NamedCode tree ctx named before body after temp) :
    Drawing tree unit (tree.Holds id) before body after := by
  have hSilent : ∀ {bookings}, Drawing tree unit (tree.Holds id) bookings [] bookings :=
    .silent (fun _ => hHolds.trans)
      fun hBare _ node hNode => (IsBare.of_attr hAttr rfl).not_draw hTree hBare hHolds hNode
  cases hCode with
  | booked => exact hSilent
  | computed _ _ hInner =>
    refine .signIn ?_ fun slice elem hElem hSame => ?_
    · cases hInner with
      | fetch => exact hSilent.write (by simp [drawsOf, within, draws])
      | deref _ hCheck =>
        refine hSilent.write ?_
        rw [← List.singleton_append, drawsOf_append,
          drawsOf_checks (checks_of_checkInitialised hCheck)]
        simp [drawsOf, within, draws]
    · refine absurd ?_ hAction
      rw [← (isFor_of_elementOf hElem).action]
      exact congrArg (fun view => view.1) hSame

theorem NamedCode.drawing_base (hAttr : tree.attr id = .ok .identifier)
    (hBase : baseOf tree id = .ok named) (hCode : NamedCode tree ctx named before body after temp) :
    Drawing tree unit (tree.Holds id) before body after := by
  refine hCode.drawing hTree hHolds hAttr ?_
  simp only [baseOf, Walk.bind_eq_ok] at hBase
  rcases hBase with ⟨_, -, _ | _, -, hBase⟩
  · simp [(isFor_of_fetchOf hBase).action]
  · simp [(isFor_of_derefOf hBase).action]

theorem Drawing.above
    (hSpans : tree.Spans id parts) (hBody : Drawing tree unit region before body after)
    (hRegion : ∀ node, region node ↔ ∃ kid ∈ parts, tree.Holds kid node) :
    Drawing tree unit (tree.Holds id) before body after := by
  have hWithin : ∀ node, region node → tree.Holds id node := by
    intro node hNode
    rcases (hRegion node).mp hNode with ⟨kid, hKid, hNode⟩
    exact (hSpans.holds hKid).trans hNode
  refine ⟨fun _ => hHolds.trans, ?_, hBody.once, ?_, ?_⟩
  · exact fun node hNode => (hBody.sound node hNode).imp_left (hWithin node)
  · intro slice elem hElem hHas
    rcases hBody.booked slice elem hElem hHas with hOld | ⟨node, hNode, hSlice⟩
    · exact .inl hOld
    · exact .inr ⟨node, hWithin node hNode, hSlice⟩
  · intro hBare hApart hUnbooked node hNode hDraw
    have hInside := (hRegion node).mpr (hSpans.covers hTree hHolds hBare hNode hDraw)
    exact hBody.complete hBare hApart (fun slice elem hSlice =>
      hUnbooked slice elem (hWithin slice hSlice)) node hInside hDraw

/- The number of a node that calls `random` is drawn once. -/
theorem drawing_of_call (hAttr : tree.attr id = .ok .deproceduring)
    (hProc : procedureOf tree id = .ok builtin) (hTemp : temp.owner = id) :
    Drawing tree unit (tree.Holds id) before [.compute temp (.apply builtin.signature.rendering [])]
      before := by
  have hRandom : builtin.signature.rendering =
      Builtin.random.signature.rendering ↔ tree.IsDraw id := by
    rw [IsDraw, hProc, Except.ok.injEq, and_iff_right hAttr]
    exact ⟨Builtin.eq_random, fun hSame => by rw [hSame]⟩
  have hDraws : drawsOf [.compute temp (.apply builtin.signature.rendering [])] =
        if builtin.signature.rendering = Builtin.random.signature.rendering then [id] else [] := by
    simp [drawsOf, within, draws, hTemp]
  refine ⟨fun _ hNode => hHolds.trans hNode, ?_, ?_,
    fun _ _ _ => .inl, fun hBare _ _ node hNode hDraw => ?_⟩
  · rw [hDraws]
    split
    · rename_i hSame
      simpa using ⟨Holds.refl tree id, hRandom.mp hSame⟩
    · simp
  · rw [hDraws]
    split <;> simp
  · rcases Relation.ReflTransGen.cases_head hNode with
      rfl | ⟨kid, ⟨kids, hKids, hKid⟩, hInner⟩
    · rw [hDraws, if_pos (hRandom.mpr hDraw)]
      exact List.mem_singleton_self _
    · rcases Walk.bind_eq_ok.mp hProc with ⟨only, hOnly, hFound⟩
      rcases Walk.bind_eq_ok.mp hFound with ⟨_ | _, hBuiltin, hFound⟩
      · simp at hFound
      · rcases Walk.bind_eq_ok.mp hAttr with ⟨found, hFound, hAttr⟩
        cases hTree.shaped.unitChild hFound (by
          rw [Except.ok.inj hAttr]; rfl) with
        | intro other hOther =>
          cases hKids.symm.trans hOther
          cases hOnly.symm.trans (childOf_eq hKids rfl)
          cases List.mem_singleton.mp hKid
          exact absurd hDraw ((IsBare.of_builtin hBuiltin).not_draw
            hTree hBare (hHolds.trans (.of_child hKids hKid)) hInner)

/- A part of a clause draws what its serial clause does. -/
theorem Drawing.of_serial (hAttr : tree.attr id = .ok attr)
    (hSerial : attr.holdsSerial = true) (hChild : childOf tree id 0 = .ok serial)
    (hBody : Drawing tree unit (tree.Holds serial) before body after) :
    Drawing tree unit (tree.Holds id) before body after := by
  rcases Walk.bind_eq_ok.mp hAttr with ⟨node, hNode, hSame⟩
  rcases hTree.shaped.serialChild hNode (Except.ok.inj hSame ▸ hSerial) with ⟨_, hKids, -⟩
  cases hChild.symm.trans (childOf_eq hKids rfl)
  refine hBody.above hTree hHolds (.of_children ?_ hKids) (by simp)
  rw [hAttr]
  rintro ⟨⟩
  cases hSerial

theorem Drawing.choice (hAttr : tree.attr id = .ok attr)
    (hClause : attr ∈ [.conditionalClause, .elifPart]) {choice : Choice}
    (hChoice : choiceOf tree id = .ok choice) {guard : Expr}
    (hGuard : Drawing tree unit (tree.Holds choice.guard) before body after)
    (hYes : Drawing tree unit (tree.Holds choice.yes) after first ofYes)
    (hNo : Drawing tree unit (tree.Holds choice.no) after second ofNo) :
    Drawing tree unit (tree.Holds id) before (body ++ [.branch id guard first second]) after := by
  rcases Walk.bind_eq_ok.mp hAttr with ⟨node, hNode, hSame⟩
  have hShape := List.mem_pair.mp hClause
  rw [← Except.ok.inj hSame] at hShape
  rcases hTree.shaped.conditionalChildren hNode hShape with
    ⟨ifPart, thenPart, tail, hKids, hIf, hThen, -⟩
  simp only [choiceOf, Walk.bind_eq_ok] at hChoice
  rcases hChoice with ⟨_, hIfPart, asked, hAsked, _, hThenPart, taken, hTaken, last,
      hLast, kind, hKind, hChoice⟩
  cases hIfPart.symm.trans (childOf_eq hKids rfl)
  cases hThenPart.symm.trans (childOf_eq hKids rfl)
  cases tail with
  | none => simp [childOf, SyntaxTree.child?_eq hKids] at hLast
  | some tail =>
    cases hLast.symm.trans (childOf_eq hKids rfl)
    have hSpans : tree.Spans id [ifPart, thenPart, last] := by
      refine .of_children ?_ hKids
      rw [hAttr]
      rintro ⟨⟩
      simp at hClause
    have hPiece : ∀ {piece}, piece ∈ [ifPart, thenPart, last] → tree.Holds unit piece :=
      fun hPiece => hHolds.trans (hSpans.holds hPiece)
    have hTail : choice.guard = asked ∧ choice.yes = taken ∧
        Drawing tree unit (tree.Holds last) after second ofNo := by
      split at hChoice
      · rcases Walk.bind_eq_ok.mp hChoice with ⟨no, hOnly, hChoice⟩
        cases hChoice
        exact ⟨rfl, rfl, .of_serial hTree (hPiece (by simp)) hKind rfl hOnly hNo⟩
      · cases hChoice
        exact ⟨rfl, rfl, hNo⟩
      · rcases Walk.bind_eq_ok.mp hChoice with ⟨_, hNone, -⟩
        simp at hNone
    rcases hTail with ⟨rfl, rfl, hTail⟩
    have hApart := hSpans.apart hTree
    simp only [List.pairwise_cons, List.mem_cons, forall_eq_or_imp,
      List.not_mem_nil, false_imp_iff, implies_true, and_true, List.Pairwise.nil] at hApart
    rcases hApart with ⟨⟨hIfThen, hIfTail⟩, hThenTail⟩
    have hFirst := hGuard.of_serial hTree (hPiece (by simp)) hIf rfl hAsked
    have hSecond := hYes.of_serial hTree (hPiece (by simp)) hThen rfl hTaken
    refine (hFirst.append (hSecond.branch hTail hThenTail) ?_).above hTree hHolds hSpans (by simp)
    rintro node hNode (hOther | hOther)
    · exact hIfThen node hNode hOther
    · exact hIfTail node hNode hOther

variable (hPart : ∀ {kid before body after value}, tree.Holds id kid →
  part kid before body after value → Drawing tree unit (tree.Holds kid) before body after)

include hPart

/- What is found through a slice draws for its indices. -/
theorem AddressCode.drawing (hCode : AddressCode tree ctx part id before body after temp) :
    Drawing tree unit (tree.Holds id) before body after := by
  cases hCode with
  | name hAttr hNamed hCode =>
    exact hCode.drawing hTree hHolds hAttr (by simp [(isFor_of_derefOf hNamed).action])
  | @element elem _ _ _ _ _ hAttr hElem hPrimary hBase hCode =>
    cases hCode with
    | booked _ hHas =>
      refine .silent (fun _ => hHolds.trans) ?_
      exact fun _ hUnbooked node hNode hDraw =>
        hUnbooked id elem (.refl tree id) hAttr hElem ⟨node, hNode, hDraw⟩ hHas
    | computed _ _ hInner =>
      rcases hInner with ⟨hFirst, hIndices⟩
      refine .signIn ?_ fun slice found hFound hSame =>
        ⟨id, .refl tree id, hAttr, elem, found, hElem, hFound, hSame⟩
      rcases hTree.sliceChildren hAttr with ⟨primary, indexer, hKids, hIndexer⟩
      rcases elementOf_eq_ok hElem with ⟨_, _, _, _, _, _, _, indices, hRow, hIdx, -, -, -,
          -, hList, rfl⟩
      cases hRow.symm.trans (childOf_eq hKids rfl)
      cases hIdx.symm.trans (childOf_eq hKids rfl)
      have hSpans : tree.Spans id [primary, indexer] := .of_children (by simp [hAttr]) hKids
      have hOther : tree.Spans indexer indices := .of_children (by simp [hIndexer]) hList
      have hRow := hSpans.holds (by simp : primary ∈ _)
      have hIdx := hSpans.holds (by simp : indexer ∈ _)
      have hSecond := (hIndices.drawing (fun hKid => hPart (hIdx.trans (hOther.holds hKid)))
          (hOther.apart hTree)).above hTree (hHolds.trans hIdx) hOther fun _ => .rfl
      refine .write ((hFirst.drawing_base hTree
        (hHolds.trans hRow) hPrimary hBase).append hSecond ?_
          |>.above hTree hHolds hSpans (by simp)) ?_
      · simpa using hSpans.apart hTree
      · simp [drawsOf, within, draws]
  | component hAttr hComp hSecondary hBase hCode =>
    rcases hTree.selectionChildren hAttr with ⟨sel, secondary, hKids, hSel⟩
    rcases componentOf_eq_ok hComp with
      ⟨_, _, _, _, _, _, _, _, _, _, -, hName, -, -, -, -, -, -, rfl⟩
    cases hName.symm.trans (childOf_eq hKids rfl)
    have hSpans : tree.Spans id [secondary] := ⟨by simp [hAttr], _, hKids, by simp, by
        simpa using .inr (.of_attr hSel rfl)⟩
    have hName := hSpans.holds (by simp : secondary ∈ _)
    cases hCode with
    | booked =>
      refine (Drawing.silent (fun _ => (hHolds.trans hName).trans)
        ?_).above hTree hHolds hSpans (by simp)
      exact fun hBare _ node hNode => (IsBare.of_attr hSecondary rfl).not_draw hTree hBare
          (hHolds.trans hName) hNode
    | computed _ _ hInner =>
      refine .signIn ?_ fun slice elem hElem hSame => ?_
      · cases hInner with
        | part hFirst | field hFirst =>
          refine .write ((hFirst.drawing_base hTree
            (hHolds.trans hName) hSecondary hBase).above hTree hHolds hSpans (by simp)) ?_
          simp [drawsOf, within, draws]
      · have hAction := congrArg (fun view => view.1) hSame
        rw [Address.view, Address.view, (isFor_of_elementOf hElem).action] at hAction
        cases hAction

theorem Fills.drawing {checked : Bool} (hRes : HasResult tree checked id res)
    (hCode : InTurn part parts before first after vals)
    (hLast : Fills tree id res.temp parts vals second) :
    Drawing tree unit (tree.Holds id) before (first ++ second) after := by
  have hSpread : tree.Spans id parts → drawsOf second = [] →
      Drawing tree unit (tree.Holds id) before (first ++ second) after := by
    intro hSpans hNone
    exact .write ((hCode.drawing (fun hKid => hPart
      (hSpans.holds hKid)) (hSpans.apart hTree)).above hTree hHolds hSpans fun _ => .rfl) hNone
  cases hLast with
  | into hOps =>
    exact hSpread (spans_of_operandsOf hOps) (by simp [drawsOf, within, draws])
  | checked hOps =>
    refine hSpread (spans_of_operandsOf hOps) ?_
    have hOther := mt Builtin.eq_random (hRes.not_random hOps)
    cases vals <;> simp [drawsOf, within, draws, hOther]
  | call hAttr hProc =>
    cases hCode
    rcases hRes.temp_eq with ⟨_, -, hTemp⟩
    exact drawing_of_call hTree hHolds hAttr hProc (congrArg Temp.owner hTemp)
  | widened hAttr hOp =>
    exact hSpread (spans_of_childOf hTree hAttr rfl (by decide) hOp)
      (by simp [drawsOf, within, draws])
  | pair hAttr hMembers =>
    exact hSpread (.of_children (by simp [hAttr]) hMembers) (by simp [drawsOf, within, draws])
  | fields hAttr hMembers hBody =>
    refine hSpread (.of_children (by simp [hAttr]) hMembers) (drawsOf_eq_nil fun stmt hStmt => ?_)
    cases hBody stmt hStmt with
    | initialise | set => exact ⟨rfl, rfl⟩

/- What is written for a unit draws for the nodes it holds. -/
theorem ShapeCode.drawing (hCode : ShapeCode tree ctx part id before body after value) :
    Drawing tree unit (tree.Holds id) before body after := by
  cases hCode with
  | name hAttr hNamed hCode =>
    exact hCode.drawing hTree hHolds hAttr (by simp [(isFor_of_fetchOf hNamed).action])
  | object hCode hReads =>
    have hBelow := hReads.holds hTree
    have hBody := hCode.drawing hTree (hHolds.trans hBelow) fun hKid => hPart (hBelow.trans hKid)
    refine .write ?_ (drawsOf_checks hReads.checks)
    cases hReads with
    | behind hAttr hOp =>
      exact hBody.above hTree hHolds (spans_of_childOf hTree hAttr
        rfl (by decide) hOp) (by simp)
    | itself => exact hBody
  | inPlace hCode hVal =>
    rcases hVal.spans hTree with hSpans | ⟨hBare, rfl⟩
    · exact (hCode.drawing (fun hKid => hPart (hSpans.holds hKid))
        (hSpans.apart hTree)).above hTree hHolds hSpans fun _ => .rfl
    · cases hCode
      exact .silent (fun _ => hHolds.trans) fun hBelow _ _ => hBare.not_draw hTree hBelow hHolds
  | enclosed hEncloses hOnly hCode =>
    rcases hEncloses with ⟨attr, hAttr, hShape⟩
    have hSpans : tree.Spans id [_] := .of_children (by
      rw [hAttr]
      rintro ⟨⟩
      simp at hShape) hOnly
    exact (hPart (hSpans.holds (by simp)) hCode).above hTree hHolds hSpans (by simp)
  | kept hCode hRes _ hLast => exact hLast.drawing hTree hHolds hPart hRes hCode
  | choice hAttr hClause hChoice hGuard hYes hNo =>
    rcases holds_of_choiceOf hTree hChoice with ⟨hGuardHeld, hYesHeld, hNoHeld⟩
    exact .choice hTree hHolds hAttr hClause hChoice
      (hPart hGuardHeld hGuard) (hPart hYesHeld hYes) (hPart hNoHeld hNo)
  | @assignation destination source _ _ _ _ _ _ _ _ hAttr hAssign hSrc hCode =>
    rcases holds_of_assignationOf hTree hAssign with ⟨hTo, hFrom⟩
    have hSpans := spans_of_assignationOf hTree hAttr hAssign
    refine .write (((hPart hFrom hSrc).append (hCode.drawing hTree (hHolds.trans hTo) fun hKid =>
        hPart (hTo.trans hKid)) ?_).above hTree hHolds hSpans ?_)
      (by simp [drawsOf, within, draws])
    · have hApart := hSpans.apart hTree
      simp only [List.pairwise_pair] at hApart
      exact fun node hLeft hRight => hApart node hRight hLeft
    · simp [or_comm]

end Inline

------ Constants

namespace Classifier

open SyntaxTree

variable {unit : NodeId}

/- A constant, the clause around one, or a name or sign in it. -/
inductive ConstantPart (tree : SyntaxTree) (id : NodeId) : Prop
  | bare (hBare : tree.IsBare id)
  | unit {fuel : Nat} {query : Query} (hConstant : query.requirement = .constant)
      (hAccepted : unitWithin tree fuel query id = .ok true)
  | serial {fuel : Nat} {query : Query} (hConstant : query.requirement = .constant)
      (hSingle : Single tree (accepted (unitWithin tree fuel)) query id)

theorem Shape.constant_child (hShaped : tree.IsShaped) {node : Node}
    (hShape : Shape tree (accepted (unitWithin tree fuel)) query id node mode)
    (hConst : query.requirement = .constant) (hNode : tree.node id = .ok node)
    (hKids : tree.children id = .ok kids) (hKid : kid ∈ kids) :
    tree.IsBare id ∨ ConstantPart tree kid := by
  have hBare : node.attr.isBare = true → tree.IsBare id :=
    .of_attr (Classifier.attr_eq_ok.mpr ⟨node, hNode, rfl⟩)
  have hOnly : ∀ {only}, (node.attr.holdsUnit || node.attr.holdsSerial) = true →
        node.sub = some only → kid = only := by
    intro only hAttr hSub
    cases hKids.symm.trans (hShaped.children_eq_of_sub hNode hAttr hSub)
    exact List.mem_singleton.mp hKid
  have hFirst : ∀ {count first}, node.attr.childCount? = some count →
      tree.firstChildren id count = .ok first → kid ∈ first := by
    intro count first hCount hFirst
    rcases hShaped.exists_children_length hNode hCount with ⟨_, hFound, hLen⟩
    cases hKids.symm.trans hFound
    exact children_eq_of_firstChildren hKids hFirst hLen.le ▸ hKid
  cases hShape with
  | denoter hAttr | builtinName hAttr | frameName hAttr | constantName hAttr =>
    exact .inl (hBare (by rw [hAttr]; rfl))
  | formula hAttr hParts hBuiltin _ hLeft hRight =>
    have hKid := hFirst (by rw [hAttr]; rfl) hParts
    simp only [List.mem_cons, List.not_mem_nil, or_false] at hKid
    rcases hKid with rfl | rfl | rfl
    · exact .inr (.unit hConst hLeft)
    · exact .inr (.bare (.of_builtin hBuiltin))
    · exact .inr (.unit hConst hRight)
  | monadicFormula hAttr hParts hBuiltin _ hOp =>
    have hKid := hFirst (by rw [hAttr]; rfl) hParts
    rcases List.mem_pair.mp hKid with rfl | rfl
    · exact .inr (.bare (.of_builtin hBuiltin))
    · exact .inr (.unit hConst hOp)
  | call _ hParts hBuiltin _ _ hArgs =>
    cases hKids.symm.trans hParts
    rcases List.mem_cons.mp hKid with rfl | hKid
    · exact .inr (.bare (.of_builtin hBuiltin))
    · exact .inr (.unit hConst (hArgs kid hKid))
  | cast hAttr hSub hOp | widening hAttr hSub _ _ hOp =>
    rcases hOnly (by rw [hAttr]; rfl) hSub with rfl
    exact .inr (.unit hConst hOp)
  | closedClause hAttr hSub hSerial =>
    rcases hOnly (by rw [hAttr]; rfl) hSub with rfl
    exact .inr (.serial hConst hSerial)
  | serialClause _ hSerial =>
    rcases hSerial.exists_children hShaped with ⟨_, _, -, -, hSingle, hAccepted⟩
    cases hKids.symm.trans hSingle
    rcases List.mem_singleton.mp hKid with rfl
    exact .inr (.unit hConst hAccepted)
  | collateralClause _ _ _ hMembers _ hAccepted =>
    cases hKids.symm.trans hMembers
    exact .inr (.unit hConst (hAccepted kid hKid))
  | _ => simp_all

theorem ConstantPart.of_child (hShaped : tree.IsShaped) (hPart : ConstantPart tree id)
    (hChild : tree.IsChild id kid) : tree.IsBare id ∨ ConstantPart tree kid := by
  rcases hChild with ⟨kids, hKids, hKid⟩
  cases hPart with
  | bare hBare => exact .inl hBare
  | serial hConst hSingle =>
    rcases hSingle.exists_children hShaped with ⟨_, _, -, -, hOnly, hAccepted⟩
    cases hKids.symm.trans hOnly
    rcases List.mem_singleton.mp hKid with rfl
    exact .inr (.unit hConst hAccepted)
  | unit hConst hAccepted =>
    rcases exists_shape_of_constant hConst hAccepted with ⟨_, _, _, -, hNode, -, -, hShape⟩
    exact hShape.constant_child hShaped hConst hNode hKids hKid

theorem ConstantPart.not_draw (hTree : tree.IsRegular) (hBelow : tree.BareBelow unit)
    (hHolds : tree.Holds unit id) (hPart : ConstantPart tree id) (hInner : tree.Holds id lower) :
    ¬ tree.IsDraw lower := by
  induction hInner using Relation.ReflTransGen.head_induction_on with
  | refl =>
    intro hDraw
    cases hPart with
    | bare hBare => exact hBare.not_draw hTree hBelow hHolds (.refl tree _) hDraw
    | serial _ hSingle =>
      cases hSingle with
      | intro hAttr => cases hDraw.1.symm.trans hAttr
    | unit hConst hAccepted =>
      rcases attr_eq_ok.mp hDraw.1 with ⟨_, hFound, hAttr⟩
      rcases exists_shape_of_constant hConst hAccepted with ⟨_, _, _, -, hNode, -, -, hShape⟩
      cases hNode.symm.trans hFound
      cases hShape <;> simp_all
  | head hChild hRest ih =>
    rcases hPart.of_child hTree.shaped hChild with hBare | hKid
    · exact hBare.not_draw hTree hBelow hHolds (.trans (.single hChild) hRest)
    · exact ih (hHolds.trans (.single hChild)) hKid

theorem ConstantPart.of_isFolded {node : Node} (hNode : tree.node id = .ok node)
    (hFolded : Inline.isFolded tree id node = .ok true) : ConstantPart tree id := by
  unfold Inline.isFolded at hFolded
  split at hFolded
  · rename_i hAttr
    exact .bare (.of_attr (attr_eq_ok.mpr ⟨node, hNode, rfl⟩) (by rw [hAttr]; rfl))
  · cases hFolded
  · cases hFolded
  · cases hFolded
  · exact .unit rfl hFolded

end Classifier

------ Functions of Their Own

namespace Inline

open SyntaxTree Stmt

theorem CodeWithin.drawing (hTree : tree.IsRegular) (hHolds : tree.Holds unit id)
    (hCode : CodeWithin tree ctx fuel id before body after value) :
    Drawing tree unit (tree.Holds id) before body after := by
  induction fuel generalizing id before body after value with
  | zero => cases hCode
  | succ fuel ih =>
    rcases hCode with ⟨rfl, rfl, ⟨_, hNode, hFolded⟩, -⟩ | hCode
    · refine .silent (fun _ => hHolds.trans) ?_
      exact fun hBelow _ _ => (Classifier.ConstantPart.of_isFolded hNode hFolded).not_draw
          hTree hBelow hHolds
    · exact hCode.drawing hTree hHolds fun hKid => ih (hHolds.trans hKid)

end Inline

namespace SyntaxTree

open Inline

/-
  In a function of its own, the code of a basic unit draws for nodes of the unit that call
  `random`, and for no node twice. If names, denotations and signs have no parts, and different
  slices that draw are not alike, as many numbers are drawn as there are such nodes.
-/
theorem Conforms.draws_once (hTree : tree.Conforms) {id : NodeId} {tier : Nat}
    (hBasic : tree.isBasic id tier = .ok true) (start : Context) :
    ∃ context, (declareUnit tree id).run start.beginFunction = .ok ((), context) ∧
      (context.errorCount = start.errorCount → ∃ body next,
          (executeUnit tree id).run context = .ok (body, next) ∧
          (Stmt.drawsOf body).Nodup ∧
          (∀ node ∈ Stmt.drawsOf body, tree.Holds id node ∧ tree.IsDraw node) ∧
          (tree.BareBelow id → tree.DrawsApart id →
            (Stmt.drawsOf body).length =
              {node | tree.Holds id node ∧ tree.IsDraw node}.ncard)) := by
  rcases hTree.exists_code hBasic start with ⟨context, hDeclare, hDeclared, -, hWritten⟩
  refine ⟨context, hDeclare, fun hCount => ?_⟩
  rcases hWritten hCount with ⟨body, after, _, hExecute, -, hCode⟩
  have hDrawing : Drawing tree id (tree.Holds id) context.bookings body after :=
    CodeWithin.drawing hTree.toIsRegular (.refl tree id) hCode
  refine ⟨body, _, hExecute, hDrawing.once, hDrawing.sound, fun hBare hApart => ?_⟩
  have hStart : Unbooked tree (tree.Holds id) context.bookings := by
    rintro slice element - - - - ⟨booking, hBooking, hPhase, -⟩
    rcases hDeclared booking hBooking with ⟨hDeclare, -⟩
    rw [hDeclare] at hPhase
    exact absurd hPhase (by decide)
  have hSame : {node | tree.Holds id node ∧ tree.IsDraw node} =
      ((Stmt.drawsOf body).toFinset : Set NodeId) := by
    ext node
    rw [List.coe_toFinset]
    exact ⟨fun ⟨hNode, hDraw⟩ => hDrawing.complete hBare hApart hStart node hNode hDraw,
      hDrawing.sound node⟩
  rw [hSame, Set.ncard_coe_finset, List.toFinset_card_of_nodup hDrawing.once]

/- The nodes for which the code of a tree draws. -/
def drawsAlone (tree : SyntaxTree) : Walk (Nat × List NodeId) :=
  (fun code => (code.1, Stmt.drawsOf code.2.1)) <$> tree.codeAlone ⟨0⟩ (.ofOptions { level := 3 })

/- `ROUND random + a[ROUND random]`. -/
def drawnApart : SyntaxTree := planted (.plusDrawn .rounded)

/- Both numbers are drawn. -/
theorem draws_once_drawnApart :
    drawnApart.Conforms ∧ drawnApart.isBasic ⟨0⟩ 3 = .ok true ∧
      drawnApart.BareBelow ⟨0⟩ ∧ drawnApart.DrawsApart ⟨0⟩ ∧
      drawnApart.drawsAlone = .ok (0, [⟨3⟩, ⟨12⟩]) ∧
      {node | drawnApart.Holds ⟨0⟩ node ∧ drawnApart.IsDraw node}.ncard = 2 := by
  have hTree : drawnApart.Conforms := conforms_of_isOrderly (by decide +kernel)
  have hBasic : drawnApart.isBasic ⟨0⟩ 3 = .ok true := by decide +kernel
  have hBare : drawnApart.BareBelow ⟨0⟩ := by
    have hAll : ∀ entry ∈ drawnApart.nodes.toList, (entry.2.attr.isBare = true ∨
          drawnApart.builtin? entry.1 ≠ .ok none) → drawnApart.children entry.1 = .ok [] := by
      decide +kernel
    rintro lower - (⟨hAttr, hBare⟩ | ⟨hBuiltin⟩)
    · rcases Walk.bind_eq_ok.mp hAttr with ⟨node, hNode, hAttr⟩
      cases hAttr
      exact hAll _ (Store.mem_toList_of_fetch hNode) (.inl hBare)
    · rcases Walk.bind_eq_ok.mp hBuiltin with ⟨_, hTag, -⟩
      rcases Walk.bind_eq_ok.mp hTag with ⟨node, hNode, -⟩
      exact hAll _ (Store.mem_toList_of_fetch hNode) (.inr (by simp [hBuiltin]))
  have hApart : drawnApart.DrawsApart ⟨0⟩ := by
    have hPlaces : drawnApart.places .slice = [⟨7⟩] := by decide +kernel
    have hOnly : ∀ id, drawnApart.attr id = .ok .slice → id = ⟨7⟩ :=
      fun _ hAttr => List.mem_singleton.mp (hPlaces ▸ mem_places hAttr)
    exact fun first second _ _ hFirst hSecond _ _ =>
      (hOnly first hFirst).trans (hOnly second hSecond).symm
  have hDraws : drawnApart.drawsAlone = .ok (0, [⟨3⟩, ⟨12⟩]) := by decide +kernel
  refine ⟨hTree, hBasic, hBare, hApart, hDraws, ?_⟩
  rcases hTree.draws_once hBasic (.ofOptions { level := 3 }) with ⟨context, hDeclare, hWritten⟩
  rcases Walk.map_eq_ok.mp hDraws with ⟨⟨errors, body, value⟩, hCode, hFound⟩
  rw [codeAlone, hDeclare, Walk.ok_bind] at hCode
  simp only [Walk.bind_eq_ok, Walk.pure_eq_ok, Except.ok.injEq, Prod.mk.injEq] at hCode hFound
  rcases hCode with ⟨⟨_, after⟩, hExecute, _, -, rfl, rfl, rfl⟩
  rcases hWritten hFound.1 with ⟨_, _, hAgain, -, -, hAll⟩
  cases hAgain.symm.trans hExecute
  rw [← hAll hBare hApart, hFound.2]
  rfl

/- `a[ROUND random] + a[ROUND random]`. -/
def drawnAlike : SyntaxTree := planted (.plusDrawn (.unit .dereferencing ⟨1⟩ [.drawn]))

/- The second number is not drawn. -/
theorem draw_lost :
    drawnAlike.Conforms ∧ drawnAlike.isBasic ⟨0⟩ 3 = .ok true ∧
      (∀ id, drawnAlike.attr id ≠ .ok .conditionalClause) ∧
      (∀ node ∈ [⟨7⟩, ⟨16⟩], drawnAlike.Holds ⟨0⟩ node ∧ drawnAlike.IsDraw node) ∧
      drawnAlike.drawsAlone = .ok (0, [⟨7⟩]) := by
  have hTree : drawnAlike.Conforms := conforms_of_isOrderly (by decide +kernel)
  refine ⟨hTree, by decide +kernel, attr_ne (by decide +kernel), ?_, by decide +kernel⟩
  rintro node hNode
  rcases List.mem_pair.mp hNode with rfl | rfl
  · exact ⟨.of_path hTree.toIsRegular [0, 0, 1, 0, 1]
      (by decide +kernel), by decide +kernel, by decide +kernel⟩
  · exact ⟨.of_path hTree.toIsRegular [2, 0, 1, 0, 1]
      (by decide +kernel), by decide +kernel, by decide +kernel⟩

end SyntaxTree

end Algol68
