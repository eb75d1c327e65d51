import Algol68.Context.Booking
import Algol68.Tree.SourceText
import Algol68.Proofs.Classification
import Algol68.Proofs.Figures

/-
  Comparison of fragments.

  Two fragments have the same structure if and only if they have the same figure, so that payloads
  are compared by an equivalence. What a hasher is fed is a function of the figure, and comparing
  fingerprints first changes no answer, whatever the hasher is.

  Main declarations:
    * `SyntaxTree.IsLinked.fingerprints_exact`
-/

------ Walks over Fragments

namespace Algol68

variable {tree : SyntaxTree} {id : NodeId} {node : Node}

namespace SyntaxTree

/- A walk down a tree ends if at every node it ends whenever it does for the parts of the node. -/
theorem ends_of_rank (tree : SyntaxTree) {walk : Nat → NodeId → Walk α}
    (hStep : ∀ fuel id node, tree.node id = .ok node →
      (∀ part, tree.IsPart id part → (walk fuel part).Ends) → (walk (fuel + 1) id).Ends)
    (hNode : tree.node id = .ok node) (hFuel : tree.rank id < fuel) :
    (walk fuel id).Ends := by
  induction fuel generalizing id node with
  | zero => omega
  | succ fuel ih =>
    refine hStep fuel id node hNode ?_
    intro part hPart
    rcases hPart.exists_node with ⟨inner, hInner⟩
    exact ih hInner (by have := hPart.rank_lt; omega)

theorem IsLinked.bind_children_ends (hTree : tree.IsLinked) (hNode : tree.node id = .ok node)
    {rest : List NodeId → Walk α}
    (hRest : ∀ kids, (∀ kid ∈ kids, tree.IsPart id kid) → (rest kids).Ends) :
    (tree.children id >>= rest).Ends := by
  refine .bind (hTree.children_ends ⟨node, hNode⟩) ?_
  intro kids hKids
  exact hRest kids fun kid hKid => hTree.isPart_of_child hKids hKid

/- A walk that puts together what it finds for the children of a node ends. -/
theorem IsLinked.walk_ends (hTree : tree.IsLinked) {walk : Nat → NodeId → Walk α}
    {make : Node → List NodeId → List α → α}
    (hWalk : ∀ fuel id, walk (fuel + 1) id = do
      let node ← tree.node id
      let kids ← tree.children id
      let parts ← kids.mapM (walk fuel)
      pure (make node kids parts))
    (hNode : tree.node id = .ok node) (hFuel : tree.rank id < fuel) : (walk fuel id).Ends := by
  refine ends_of_rank tree ?_ hNode hFuel
  intro fuel id node hNode hParts
  rw [hWalk]
  refine .bind ⟨node, hNode⟩ fun found hFound => hTree.bind_children_ends hFound ?_
  intro kids hKids
  exact .bind (.mapM fun kid hKid => hParts kid (hKids kid hKid)) fun _ _ => .of_pure

theorem IsLinked.pieces_ends (hTree : tree.IsLinked) (hNode : tree.node id = .ok node) :
    (tree.pieces id).Ends :=
  hTree.walk_ends (fun _ _ => rfl) hNode (rank_lt_bound id)

theorem Conforms.sourceText_ends (hTree : tree.Conforms) (hNode : tree.node id = .ok node) :
    (tree.sourceText id).Ends := by
  refine ends_of_rank tree ?_ hNode (rank_lt_bound id)
  intro fuel id node hNode hParts
  refine .bind ⟨node, hNode⟩ ?_
  intro found hFound
  have hTexts : ∀ kids : List NodeId, (∀ kid ∈ kids, tree.IsPart id kid) →
      (kids.mapM (tree.sourceTextWithin fuel)).Ends :=
    fun kids hKids => .mapM fun kid hKid => hParts kid (hKids kid hKid)
  have hMode : ∀ mode, found.mode = some mode → (tree.modes.name mode).Ends :=
    fun mode hMode => hTree.modes.name_ends (hTree.inRange.mode_lt hFound hMode)
  -- What follows the texts of the children is a join point.
  dsimp only
  split
  · refine hTree.isLinked.bind_children_ends hFound ?_
    intro kids hKids
    refine .bind (hTexts kids hKids) fun texts _ => ?_
    refine .ite (fun _ => ?_) fun _ => .of_pure
    split
    · exact .bind (hMode _ ‹_›) fun _ _ => .of_pure
    · exact .of_pure
  · refine .bind .of_pure fun texts _ => ?_
    refine .ite (fun _ => ?_) fun _ => .of_pure
    split
    · exact .bind (hMode _ ‹_›) fun _ _ => .of_pure
    · exact .of_pure

end SyntaxTree

------ Figures

namespace SyntaxTree

/- The figure of a fragment at most `fuel` levels deep. -/
def figureWithin (tree : SyntaxTree) : Nat → NodeId → Walk Figure
  | 0, _ => throw .unbounded
  | fuel + 1, id => do
    let node ← tree.node id
    let kids ← tree.children id
    let parts ← kids.mapM (tree.figureWithin fuel)
    pure (.mk node.attr node.symbol node.tag node.mode parts)

/- The figure of a fragment. -/
def figure (tree : SyntaxTree) (id : NodeId) : Walk Figure := tree.figureWithin tree.bound id

theorem IsLinked.figureWithin_ends (hTree : tree.IsLinked) (hNode : tree.node id = .ok node)
    (hFuel : tree.rank id < fuel) : (tree.figureWithin fuel id).Ends :=
  hTree.walk_ends (fun _ _ => rfl) hNode hFuel

/- Siblings are compared as lists, if each two of them are compared by what `view` shows of them. -/
theorem sameSiblings_eq
    (hSame : ∀ left ∈ lefts, ∀ right ∈ rights, ∃ answer, same left right = .ok answer ∧
        (answer = true ↔ view left = view right)) (hLefts : tree.Siblings first lefts)
    (hRights : tree.Siblings second rights) (hFuel : lefts.length < fuel) :
    ∃ answer, tree.sameSiblings same fuel first second = .ok answer ∧
        (answer = true ↔ lefts.map view = rights.map view) := by
  induction lefts generalizing rights first second fuel with
  | nil =>
    rcases fuel with _ | fuel
    · simp at hFuel
    have hNone : first = none := hLefts
    subst hNone
    cases rights with
    | nil =>
      have hNone : second = none := hRights
      subst hNone
      exact ⟨true, rfl, by simp⟩
    | cons right rest =>
      rcases hRights with ⟨rfl, node, hNode, -⟩
      exact ⟨false, by simp [sameSiblings, hNode], by simp⟩
  | cons left others ih =>
    rcases fuel with _ | fuel
    · simp at hFuel
    rcases hLefts with ⟨rfl, leftNode, hLeft, hOthers⟩
    cases rights with
    | nil =>
      have hNone : second = none := hRights
      subst hNone
      exact ⟨false, by simp [sameSiblings, hLeft], by simp⟩
    | cons right rest =>
      rcases hRights with ⟨rfl, rightNode, hRight, hRest⟩
      rcases hSame left List.mem_cons_self right List.mem_cons_self with ⟨answer, hAnswer, hView⟩
      cases answer with
      | false =>
        refine ⟨false, ?_, ?_⟩
        · simp [sameSiblings, hLeft, hRight, hAnswer]
        · simpa using fun hEqual => absurd hEqual (by simpa using hView)
      | true =>
        have hLess : others.length < fuel := by simpa using hFuel
        rcases ih (fun _ hOther _ hLater => hSame _ (List.mem_cons_of_mem _ hOther) _
            (List.mem_cons_of_mem _ hLater))
          hOthers hRest hLess with ⟨whole, hWhole, hViews⟩
        refine ⟨whole, ?_, ?_⟩
        · simp [sameSiblings, hLeft, hRight, hAnswer, hWhole]
        · rw [hViews, List.map_cons, List.map_cons, List.cons.injEq, hView.mp rfl]
          simp

theorem figureWithin_succ (hNode : tree.node id = .ok node) (hKids : tree.children id = .ok kids)
    (hParts : kids.mapM (tree.figureWithin fuel) = .ok parts) :
    tree.figureWithin (fuel + 1) id = .ok (.mk node.attr node.symbol node.tag node.mode parts) := by
  simp [figureWithin, hNode, hKids, hParts]

/- Fragments are equal if and only if their figures are. -/
theorem IsLinked.sameStructureWithin_eq (hTree : tree.IsLinked)
    (hLeft : ∃ node, tree.node left = .ok node) (hRight : ∃ node, tree.node right = .ok node)
    (hLeftRank : tree.rank left < fuel) (hRightRank : tree.rank right < fuel) :
    ∃ answer, tree.sameStructureWithin fuel left right = .ok answer ∧ (answer = true ↔
          tree.figureWithin fuel left = tree.figureWithin fuel right) := by
  induction fuel generalizing left right with
  | zero => omega
  | succ fuel ih =>
    by_cases hEqual : left = right
    · subst hEqual
      exact ⟨true, by simp [sameStructureWithin], by simp⟩
    rcases hLeft with ⟨leftNode, hLeft⟩
    rcases hRight with ⟨rightNode, hRight⟩
    rcases hTree.exists_children hLeft with ⟨lefts, hLefts, hCount⟩
    rcases hTree.exists_children hRight with ⟨rights, hRights, -⟩
    have hFigures : ∀ {id kids}, tree.children id = .ok kids → tree.rank id < fuel + 1 →
          (kids.mapM (tree.figureWithin fuel)).Ends := by
      intro id kids hKids hRank
      refine .mapM ?_
      intro kid hKid
      have hPart := hTree.isPart_of_child hKids hKid
      rcases hPart.exists_node with ⟨inner, hInner⟩
      exact hTree.figureWithin_ends hInner (by have := hPart.rank_lt; omega)
    rcases hFigures hLefts hLeftRank with ⟨leftParts, hLeftParts⟩
    rcases hFigures hRights hRightRank with ⟨rightParts, hRightParts⟩
    rw [figureWithin_succ hLeft hLefts hLeftParts, figureWithin_succ hRight hRights hRightParts]
    by_cases hAgree : leftNode.agrees rightNode = true
    · have hKids : ∀ one ∈ lefts, ∀ other ∈ rights, ∃ answer,
            tree.sameStructureWithin fuel one other = .ok answer ∧
              (answer = true ↔ tree.figureWithin fuel one = tree.figureWithin fuel other) := by
        intro one hOne other hOther
        have hOnePart := hTree.isPart_of_child hLefts hOne
        have hOtherPart := hTree.isPart_of_child hRights hOther
        exact ih hOnePart.exists_node hOtherPart.exists_node (by have := hOnePart.rank_lt; omega)
          (by have := hOtherPart.rank_lt; omega)
      rcases sameSiblings_eq hKids (siblings_of_children hLeft hLefts)
        (siblings_of_children hRight hRights) hCount with
        ⟨answer, hAnswer, hViews⟩
      refine ⟨answer, ?_, ?_⟩
      · simp [sameStructureWithin, hEqual, hLeft, hRight, hAgree, hAnswer]
      · rw [hViews, Walk.map_eq_of_mapM hLeftParts, Walk.map_eq_of_mapM hRightParts]
        have hInjective : Function.Injective (Except.ok : Figure → Walk Figure) :=
          fun _ _ hOk => Except.ok.inj hOk
        rw [hInjective.list_map.eq_iff]
        simp only [Node.agrees, Bool.and_eq_true, beq_iff_eq] at hAgree
        simp [hAgree]
    · refine ⟨false, ?_, ?_⟩
      · simp [sameStructureWithin, hEqual, hLeft, hRight, hAgree]
      · simp only [Node.agrees, Bool.and_eq_true, beq_iff_eq] at hAgree
        simp only [Except.ok.injEq, Figure.mk.injEq]
        tauto

theorem IsLinked.sameStructure_eq (hTree : tree.IsLinked)
    (hLeft : ∃ node, tree.node left = .ok node) (hRight : ∃ node, tree.node right = .ok node) :
    ∃ answer, tree.sameStructure left right = .ok answer ∧
      (answer = true ↔ tree.figure left = tree.figure right) :=
  hTree.sameStructureWithin_eq hLeft hRight (rank_lt_bound left) (rank_lt_bound right)

/- A hasher is fed the same for equal figures. -/
theorem piecesWithin_eq (hLeft : tree.figureWithin fuel left = .ok found)
    (hRight : tree.figureWithin fuel right = .ok found) :
    tree.piecesWithin fuel left = tree.piecesWithin fuel right := by
  induction fuel generalizing left right found with
  | zero => cases hLeft
  | succ fuel ih =>
    simp only [figureWithin, Walk.bind_eq_ok, Walk.pure_eq_ok, Except.ok.injEq] at hLeft hRight
    rcases hLeft with ⟨leftNode, hLeft, lefts, hLefts, parts, hLeftParts, rfl⟩
    rcases hRight with ⟨rightNode, hRight, rights, hRights, _, hRightParts, hFigure⟩
    rcases Figure.mk.inj hFigure with ⟨hAttr, hSymbol, hTag, hMode, rfl⟩
    have hLen : lefts.length = rights.length := (Walk.mapM_eq_ok.mp hLeftParts).length_eq.trans
        (Walk.mapM_eq_ok.mp hRightParts).length_eq.symm
    have hInner := Walk.mapM_congr hLeftParts hRightParts fun _ _ _ => ih
    simp only [piecesWithin, hLeft, hRight, hLefts, hRights, Walk.ok_bind, hLen, hInner,
      Node.pieces, hAttr, hSymbol, hTag, hMode]

theorem IsLinked.pieces_eq (hTree : tree.IsLinked) (hLeft : (tree.node left).Ends)
    (hFigures : tree.figure left = tree.figure right) : tree.pieces left = tree.pieces right := by
  rcases hLeft with ⟨node, hNode⟩
  rcases hTree.figureWithin_ends hNode (rank_lt_bound left) with ⟨found, hFound⟩
  exact piecesWithin_eq hFound (hFigures.symm.trans hFound)

theorem node_ends_of_pieces (hPieces : (tree.pieces id).Ends) : (tree.node id).Ends := by
  rcases hPieces with ⟨pieces, hPieces⟩
  unfold SyntaxTree.pieces at hPieces
  cases hBound : tree.bound with
  | zero => simp [hBound, piecesWithin] at hPieces
  | succ fuel =>
    rw [hBound] at hPieces
    rcases Walk.bind_eq_ok.mp hPieces with ⟨node, hNode, -⟩
    exact ⟨node, hNode⟩

end SyntaxTree

------ Payloads

variable {hasher : Hasher}

namespace Payload

variable {payload left right : Payload}

/- A payload as it is made for a fragment of the tree. -/
def IsTrue (payload : Payload) (tree : SyntaxTree) : Prop := ofNode tree payload.node = .ok payload

theorem IsTrue.pieces_eq (hTrue : payload.IsTrue tree) :
    tree.pieces payload.node = .ok payload.pieces := by
  rcases Walk.bind_eq_ok.mp hTrue with ⟨pieces, hPieces, hPayload⟩
  rw [hPieces, ← Except.ok.inj hPayload]

theorem IsTrue.node_ends (hTrue : payload.IsTrue tree) : (tree.node payload.node).Ends :=
  SyntaxTree.node_ends_of_pieces ⟨_, hTrue.pieces_eq⟩

variable (hTree : tree.IsLinked)

include hTree

theorem isSame_eq (hLeft : left.IsTrue tree) (hRight : right.IsTrue tree) :
    isSame hasher tree left right = tree.sameStructure left.node right.node := by
  unfold isSame
  split
  · rfl
  · rename_i hPrints
    rcases hTree.sameStructure_eq hLeft.node_ends hRight.node_ends with ⟨answer, hAnswer, hFigures⟩
    cases answer with
    | false => exact hAnswer.symm
    | true =>
      have hSame := hTree.pieces_eq hLeft.node_ends (hFigures.mp rfl)
      rw [hLeft.pieces_eq, hRight.pieces_eq] at hSame
      exact absurd (congrArg hasher.hash (Except.ok.inj hSame)) hPrints

/- Both payloads are absent, or they are equal fragments. -/
def Equal (tree : SyntaxTree) : Option Payload → Option Payload → Prop :=
  Option.Rel fun left right => tree.sameStructure left.node right.node = .ok true

open Classical in
theorem areSame_eq_decide {left right : Option Payload}
    (hLeft : ∀ payload ∈ left, payload.IsTrue tree)
    (hRight : ∀ payload ∈ right, payload.IsTrue tree) :
    areSame hasher tree left right = .ok (decide (Equal tree left right)) := by
  cases left with
  | none => cases right <;> simp [areSame, Equal]
  | some left =>
    cases right with
    | none => simp [areSame, Equal]
    | some right =>
      rcases hTree.sameStructure_eq (hLeft left rfl).node_ends (hRight right rfl).node_ends with
        ⟨answer, hAnswer, -⟩
      simp [areSame, Equal, isSame_eq hTree (hLeft left rfl) (hRight right rfl), hAnswer]

end Payload

theorem SyntaxTree.IsLinked.sameStructure_eq_true (hTree : tree.IsLinked)
    (hLeft : (tree.node left).Ends) (hRight : (tree.node right).Ends) :
    tree.sameStructure left right = .ok true ↔ tree.figure left = tree.figure right := by
  rcases hTree.sameStructure_eq hLeft hRight with ⟨answer, hAnswer, hFigures⟩
  rw [hAnswer, ← hFigures, Except.ok.injEq]

------ Addresses

namespace Address

/- The payload of an address is as it is made. -/
def IsValid (address : Address) (tree : SyntaxTree) : Prop :=
  ∀ payload ∈ address.payload, payload.IsTrue tree

/- What is compared of an address. -/
def view (address : Address) (tree : SyntaxTree) : Action × String × Option (Walk Figure) :=
  (address.action, address.name, address.payload.map fun payload => tree.figure payload.node)

/- Two addresses share a temporary. -/
def Matches (tree : SyntaxTree) (left right : Address) : Prop := left.view tree = right.view tree

end Address

/- A booking at a phase or later whose address is equal. -/
def Booking.Suits (tree : SyntaxTree) (address : Address) (phase : Phase) (booking : Booking) :
    Prop :=
  booking.address.action = address.action ∧ booking.phase.isFrom phase = true ∧
    booking.address.name = address.name ∧
      Payload.Equal tree booking.address.payload address.payload

theorem Booking.suits_iff (hTree : tree.IsLinked) {booking : Booking} {address : Address}
    {phase : Phase} (hBooking : booking.address.IsValid tree) (hAddr : address.IsValid tree) :
    booking.Suits tree address phase ↔
      booking.phase.isFrom phase = true ∧ booking.address.Matches tree address := by
  have hEqual : Payload.Equal tree booking.address.payload address.payload ↔
      (booking.address.payload.map fun payload => tree.figure payload.node) =
        address.payload.map fun payload => tree.figure payload.node := by
    cases hLeft : booking.address.payload with
    | none => cases address.payload <;> simp [Payload.Equal]
    | some left =>
      cases hRight : address.payload with
      | none => simp [Payload.Equal]
      | some right =>
        simp [Payload.Equal, hTree.sameStructure_eq_true (hBooking left hLeft).node_ends
          (hAddr right hRight).node_ends]
  unfold Suits Address.Matches Address.view
  rw [hEqual, Prod.mk.injEq, Prod.mk.injEq]
  tauto

namespace Bookings

/- The payloads of all bookings are as they are made. -/
def AreValid (bookings : Bookings) (tree : SyntaxTree) : Prop :=
  ∀ booking ∈ bookings, booking.address.IsValid tree

/- A booking of an address that got as far as a phase. -/
def Has (bookings : Bookings) (tree : SyntaxTree) (address : Address) (phase : Phase) : Prop :=
  ∃ booking ∈ bookings, booking.phase.isFrom phase = true ∧ booking.address.Matches tree address

section

variable {address : Address} {bookings : Bookings}
variable (hTree : tree.IsLinked) (hAddr : address.IsValid tree)
variable (hBookings : bookings.AreValid tree)

include hTree hAddr hBookings

open Classical in
/- The first booking that suits is found, and none if there is none. -/
theorem signedIn?_eq_find? : signedIn? hasher tree address phase bookings =
    .ok (bookings.find? fun booking => decide (booking.Suits tree address phase)) := by
  induction bookings with
  | nil => rfl
  | cons booking rest ih =>
    rw [AreValid, List.forall_mem_cons] at hBookings
    rw [signedIn?, Payload.areSame_eq_decide hTree hBookings.1 hAddr, ih hBookings.2,
      List.find?_cons]
    by_cases hKey : booking.address.action = address.action ∧ booking.phase.isFrom phase = true ∧
        booking.address.name = address.name
    · by_cases hEqual : Payload.Equal tree booking.address.payload address.payload
      · simp [Booking.Suits, hKey, hEqual]
      · simp [Booking.Suits, hKey, hEqual]
    · have hNot : ¬ booking.Suits tree address phase := fun hSuits =>
        hKey ⟨hSuits.1, hSuits.2.1, hSuits.2.2.1⟩
      simp [hKey, hNot]

/- A booking is found if and only if there is one. -/
theorem signedIn?_meets : (signedIn? hasher tree address phase bookings).Meets True fun found =>
    match found with
    | some booking => booking ∈ bookings ∧ booking.phase.isFrom phase = true ∧
          booking.address.Matches tree address
    | none => ¬ bookings.Has tree address phase := by
  classical
  have hSuits : ∀ booking ∈ bookings, booking.Suits tree address phase ↔
      booking.phase.isFrom phase = true ∧ booking.address.Matches tree address :=
    fun booking hBooking => Booking.suits_iff hTree (hBookings booking hBooking) hAddr
  rw [signedIn?_eq_find? hTree hAddr hBookings]
  cases hFind : bookings.find? fun booking => decide (booking.Suits tree address phase) with
  | some booking =>
    have hMem := List.mem_of_find?_eq_some hFind
    have hSuit := List.find?_some hFind
    exact ⟨hMem, (hSuits booking hMem).mp (of_decide_eq_true hSuit)⟩
  | none =>
    rintro ⟨booking, hMem, hFound⟩
    exact List.find?_eq_none.mp hFind booking hMem
      (decide_eq_true ((hSuits booking hMem).mpr hFound))

/- Addresses that share a temporary find the same booking. -/
theorem signedIn?_congr (hMatches : address.Matches tree other) (hOther : other.IsValid tree) :
    signedIn? hasher tree address phase bookings = signedIn? hasher tree other phase bookings := by
  classical
  rw [signedIn?_eq_find? hTree hAddr hBookings, signedIn?_eq_find? hTree hOther hBookings,
    ← List.head?_filter, ← List.head?_filter]
  congr 2
  apply List.filter_congr
  intro booking hBooking
  rw [decide_eq_decide, Booking.suits_iff hTree (hBookings booking hBooking) hAddr,
    Booking.suits_iff hTree (hBookings booking hBooking) hOther]
  unfold Address.Matches at hMatches ⊢
  rw [hMatches]

end

/- What was found is found again when more is booked. -/
theorem signedIn?_append
    (hFound : signedIn? hasher tree address phase bookings = .ok (some booking)) (more : Bookings) :
    signedIn? hasher tree address phase (bookings ++ more) = .ok (some booking) := by
  induction bookings with
  | nil => simp [signedIn?] at hFound
  | cons first rest ih =>
    rw [List.cons_append]
    unfold signedIn? at hFound ⊢
    split
    · rename_i hSame
      rw [if_pos hSame] at hFound
      rcases Walk.bind_eq_ok.mp hFound with ⟨answer, hAnswer, hFound⟩
      rw [hAnswer, Walk.ok_bind]
      cases answer with
      | true => exact hFound
      | false => exact ih hFound
    · rename_i hDiffers
      rw [if_neg hDiffers] at hFound
      exact ih hFound

end Bookings

------ Fingerprints Compared First

namespace SyntaxTree

open Classical in
/-
  To have the same structure is an equivalence of nodes that fingerprints respect. So payloads are
  compared exactly although their fingerprints are compared first, and the first booking with an
  equal payload is found whenever there is one.
-/
theorem IsLinked.fingerprints_exact (hasher : Hasher) (hTree : tree.IsLinked) :
    (Equivalence fun left right : { id // (tree.node id).Ends } =>
        tree.sameStructure left right = .ok true) ∧
      (∀ left right, (tree.node left).Ends → (tree.node right).Ends →
        (tree.sameStructure left right).Ends ∧ (tree.fingerprint hasher left).Ends ∧
          (tree.sameStructure left right = .ok true →
            tree.fingerprint hasher left = tree.fingerprint hasher right)) ∧
      (∀ left right : Payload, left.IsTrue tree → right.IsTrue tree →
        left.isSame hasher tree right = tree.sameStructure left.node right.node) ∧
      ∀ (bookings : Bookings) (address : Address) (phase : Phase),
        (∀ payload ∈ address.payload, payload.IsTrue tree) →
        (∀ booking ∈ bookings, ∀ payload ∈ booking.address.payload, payload.IsTrue tree) →
          bookings.signedIn? hasher tree address phase =
            .ok (bookings.find? fun booking => decide (booking.Suits tree address phase)) := by
  refine ⟨⟨?_, ?_, ?_⟩, ?_, ?_, ?_⟩
  · intro id
    exact (hTree.sameStructure_eq_true id.2 id.2).mpr rfl
  · intro left right hSame
    rw [hTree.sameStructure_eq_true left.2 right.2] at hSame
    exact (hTree.sameStructure_eq_true right.2 left.2).mpr hSame.symm
  · intro left middle right hFirst hSecond
    rw [hTree.sameStructure_eq_true left.2 middle.2] at hFirst
    rw [hTree.sameStructure_eq_true middle.2 right.2] at hSecond
    exact (hTree.sameStructure_eq_true left.2 right.2).mpr (hFirst.trans hSecond)
  · intro left right hLeft hRight
    rcases hTree.sameStructure_eq hLeft hRight with ⟨answer, hAnswer, -⟩
    rcases hLeft with ⟨node, hNode⟩
    refine ⟨⟨answer, hAnswer⟩, .bind (hTree.pieces_ends hNode) fun _ _ => .of_pure, fun hSame => ?_⟩
    rw [fingerprint, fingerprint, hTree.pieces_eq ⟨node, hNode⟩
      ((hTree.sameStructure_eq_true ⟨node, hNode⟩ hRight).mp hSame)]
  · exact fun _ _ => Payload.isSame_eq hTree
  · exact fun _ _ _ hAddr hBookings => Bookings.signedIn?_eq_find? hTree hAddr hBookings

/- A number added to itself. -/
def doubled : SyntaxTree where
  nodes := Figure.nodes [.unit .formula ⟨1⟩ [.number "1", .part .operator [], .number "1"]]
  root := some ⟨0⟩

theorem fingerprints_exact_doubled :
    doubled.IsLinked ∧ doubled.sameStructure ⟨1⟩ ⟨3⟩ = .ok true ∧
      ∀ hasher, doubled.fingerprint hasher ⟨1⟩ = doubled.fingerprint hasher ⟨3⟩ := by
  have hTree : doubled.IsLinked := (conforms_of_isOrderly (by decide +kernel)).isLinked
  have hSame : doubled.sameStructure ⟨1⟩ ⟨3⟩ = .ok true := by decide +kernel
  refine ⟨hTree, hSame, fun hasher => ?_⟩
  exact ((hTree.fingerprints_exact hasher).2.1 ⟨1⟩ ⟨3⟩ ⟨_, rfl⟩ ⟨_, rfl⟩).2.2 hSame

end SyntaxTree

end Algol68
