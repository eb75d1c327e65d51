import Algol68.Proofs.Contents
import Algol68.Proofs.Declaration
import Algol68.Proofs.Texts

/-
  Stages of the second pass.

  The second pass books the temporaries it has computed on top of those that the first pass
  declared. A temporary belongs to the node that declared its address first, whatever has been
  computed since, so that an address has one temporary at all stages.
-/

------ Stems

namespace Algol68

variable {tree : SyntaxTree}

/- What the figure of a node says about the node itself. -/
theorem SyntaxTree.IsRegular.exists_figure (hTree : tree.IsRegular)
    {id : NodeId} {node : Node} (hNode : tree.node id = .ok node) :
    ∃ parts, tree.figure id = .ok (.mk node.attr node.symbol node.tag node.mode parts) := by
  have hRank := tree.rank_lt_bound id
  rcases hTree.isLinked.figureWithin_ends hNode hRank with ⟨found, hFound⟩
  unfold SyntaxTree.figure
  cases hBound : tree.bound with
  | zero => omega
  | succ fuel =>
    rw [hBound] at hFound
    rcases Walk.bind_eq_ok.mp hFound with ⟨other, hOther, hFound⟩
    rcases Walk.bind_eq_ok.mp hFound with ⟨kids, hKids, hFound⟩
    rcases Walk.bind_eq_ok.mp hFound with ⟨parts, hParts, -⟩
    exact ⟨parts, SyntaxTree.figureWithin_succ hNode hKids hParts⟩

/- The symbol at the payload of an address. -/
def Address.symbol (address : Address) (tree : SyntaxTree) : String :=
  match (address.view tree).2.2 with
  | some (.ok (.mk _ symbol _ _ _)) => symbol
  | _ => ""

namespace Inline

namespace Pointer.IsOf

variable {pointer other : Pointer}

/- The stem of a pointer can be read off its address. -/
theorem exists_stem (hTree : tree.IsRegular) (hPtr : pointer.IsOf tree) :
    ∃ tag entry, pointer.address.name = bookingName tag entry ∧ pointer.stem = stemOf entry.name
        (pointer.address.symbol tree) pointer.address.action := by
  cases hPtr with
  | fetch _ hNamed =>
    rcases fetchOf_eq_ok hNamed with ⟨tag, entry, _, -, -, rfl⟩
    exact ⟨tag, entry, rfl, rfl⟩
  | deref _ hNamed =>
    rcases derefOf_eq_ok hNamed with ⟨tag, entry, _, _, -, -, -, rfl⟩
    exact ⟨tag, entry, rfl, rfl⟩
  | element _ hElem =>
    rcases elementOf_eq_ok hElem with ⟨_, _, tag, entry, _, _, _, _, -, -, -, -, -, -, -, rfl⟩
    exact ⟨tag, entry, rfl, rfl⟩
  | component _ hComp =>
    rcases componentOf_eq_ok hComp with
      ⟨_, _, tag, entry, node, _, _, _, _, _, -, -, -, hNode, -, -, -, -, rfl⟩
    rcases hTree.exists_figure hNode with ⟨parts, hFigure⟩
    refine ⟨tag, entry, rfl, ?_⟩
    simp [stemOf, Address.symbol, Address.view, hFigure]

/- Addresses that share a temporary agree on its stem. -/
theorem stem_eq (hTree : tree.IsRegular) (hPtr : pointer.IsOf tree) (hOther : other.IsOf tree)
    (hMatches : pointer.address.Matches tree other.address) : pointer.stem = other.stem := by
  rcases hPtr.exists_stem hTree with ⟨tag, entry, hName, hStem⟩
  rcases hOther.exists_stem hTree with ⟨again, found, hOtherName, hOtherStem⟩
  have hAction : pointer.address.action = other.address.action :=
    congrArg (fun view => view.1) hMatches
  have hSymbol : pointer.address.symbol tree = other.address.symbol tree := by
    unfold Address.symbol
    rw [hMatches]
  have hNames : bookingName tag entry = bookingName again found :=
    (hName.symm.trans (congrArg (fun view => view.2.1) hMatches)).trans hOtherName
  rw [hStem, hOtherStem, hAction, hSymbol, (bookingName_inj hNames).1]

end Pointer.IsOf

------ Owners

variable {pointer other : Pointer}

/- The node that declared an address first. -/
def Owner (tree : SyntaxTree) (ctx : Context) (address : Address) (owner : NodeId) : Prop :=
  ∃ booking, ctx.signedIn? tree address .declare = .ok (some booking) ∧ booking.owner = owner

/- All bookings were made by the first pass. -/
def AreDeclared (tree : SyntaxTree) (ctx : Context) : Prop :=
  ∀ booking ∈ ctx.bookings, IsDeclared tree ctx.declarations booking

theorem AreDeclared.areValid (hDecl : AreDeclared tree ctx) : ctx.bookings.AreValid tree := by
  intro booking hBooking
  rcases hDecl booking hBooking with ⟨-, pointer, hPtr, hAddr, -⟩
  rw [hAddr]
  exact hPtr.valid

namespace Owner

variable (hTree : tree.IsRegular) (hDecl : AreDeclared tree ctx)
variable (hPtr : pointer.IsOf tree)

include hTree hDecl hPtr

theorem exists_pointer (hOwner : Owner tree ctx pointer.address owner) :
    ∃ first : Pointer, first.IsOf tree ∧ first.node = owner ∧
      first.address.Matches tree pointer.address ∧
      ctx.declarations.Has first.storage first.declarator := by
  rcases hOwner with ⟨booking, hFound, rfl⟩
  have hMeets : booking ∈ ctx.bookings ∧ booking.phase.isFrom .declare = true ∧
        booking.address.Matches tree pointer.address :=
    (Bookings.signedIn?_meets hTree.isLinked hPtr.valid hDecl.areValid).of_ok hFound
  rcases hMeets with ⟨hMem, -, hMatches⟩
  rcases hDecl booking hMem with ⟨-, first, hFirst, hAddr, hNode, hHas⟩
  exact ⟨first, hFirst, hNode.symm, hAddr ▸ hMatches, hHas⟩

theorem unique (hOther : other.IsOf tree) (hMatches : pointer.address.Matches tree other.address)
    (hOwner : Owner tree ctx pointer.address owner)
    (hSecond : Owner tree ctx other.address second) : owner = second := by
  rcases hOwner with ⟨booking, hFound, rfl⟩
  rcases hSecond with ⟨again, hAgain, rfl⟩
  rw [Context.signedIn?, Bookings.signedIn?_congr hTree.isLinked hPtr.valid hDecl.areValid
    hMatches hOther.valid] at hFound
  rw [Option.some.inj (Except.ok.inj (hFound.symm.trans hAgain))]

theorem temp_eq (hOther : other.IsOf tree) (hMatches : pointer.address.Matches tree other.address)
    (hOwner : Owner tree ctx pointer.address owner)
    (hSecond : Owner tree ctx other.address second) :
    pointer.temp owner = other.temp second := by
  unfold Pointer.temp
  rw [hPtr.stem_eq hTree hOther hMatches, hOwner.unique hTree hDecl hPtr hOther hMatches hSecond]

end Owner

------ Bookings of the Second Pass

/- The bookings of the second pass come after the declared ones. -/
structure Executing (tree : SyntaxTree) (ctx : Context) (bookings : Bookings) : Prop where
  areDeclared : AreDeclared tree ctx
  executed : ∃ more, bookings = ctx.bookings ++ more ∧ ∀ booking ∈ more, ∃ pointer : Pointer,
      pointer.IsOf tree ∧ booking.address = pointer.address

namespace Executing

theorem start (hDecl : AreDeclared tree ctx) : Executing tree ctx ctx.bookings :=
  ⟨hDecl, [], by simp, by simp⟩

theorem areValid (hExec : Executing tree ctx bookings) : bookings.AreValid tree := by
  rcases hExec.executed with ⟨more, rfl, hMore⟩
  intro booking hBooking
  rcases List.mem_append.mp hBooking with hOld | hNew
  · exact hExec.areDeclared.areValid booking hOld
  · rcases hMore booking hNew with ⟨pointer, hPtr, hAddr⟩
    rw [hAddr]
    exact hPtr.valid

theorem owner_eq (hExec : Executing tree ctx bookings) (hOwner : Owner tree ctx address owner)
    (node : NodeId) : (ctx.booked bookings).ownerOf tree address node = .ok owner := by
  rcases hExec.executed with ⟨more, rfl, -⟩
  rcases hOwner with ⟨booking, hFound, rfl⟩
  have hAgain := Bookings.signedIn?_append hFound more
  simp [Context.ownerOf, Context.booked, Bookings.owner, hAgain]

/- One more temporary is computed. -/
theorem signIn (hExec : Executing tree ctx bookings) (hPtr : pointer.IsOf tree)
    (owner : NodeId) : Executing tree ctx (bookings.signIn pointer.address .execute owner) := by
  rcases hExec.executed with ⟨more, rfl, hMore⟩
  refine ⟨hExec.areDeclared, more ++ [⟨pointer.address, .execute, owner⟩], ?_, ?_⟩
  · simp [Bookings.signIn]
  · intro booking hBooking
    rcases List.mem_append.mp hBooking with hOld | hNew
    · exact hMore booking hOld
    · rw [List.mem_singleton.mp hNew]
      exact ⟨pointer, hPtr, rfl⟩

end Executing

/- The temporary of an address that was computed and is booked. -/
def Booked (tree : SyntaxTree) (ctx : Context) (bookings : Bookings) (temp : Temp) : Prop :=
  ∃ (pointer : Pointer) (owner : NodeId), pointer.IsOf tree ∧
    Owner tree ctx pointer.address owner ∧ bookings.Has tree pointer.address .execute ∧
      temp = pointer.temp owner

theorem Booked.not_start (hDecl : AreDeclared tree ctx) : ¬ Booked tree ctx ctx.bookings temp := by
  rintro ⟨pointer, owner, -, -, ⟨booking, hBooking, hPhase, -⟩, -⟩
  rcases hDecl booking hBooking with ⟨hDeclare, -⟩
  rw [hDeclare] at hPhase
  exact absurd hPhase (by decide)

/- What is booked when one more temporary is. -/
theorem Booked.of_signIn (hTree : tree.IsRegular) (hDecl : AreDeclared tree ctx)
    (hPtr : pointer.IsOf tree) (hOwner : Owner tree ctx pointer.address owner)
    (hBooked : Booked tree ctx (bookings.signIn pointer.address .execute owner) temp) :
    Booked tree ctx bookings temp ∨ temp = pointer.temp owner := by
  rcases hBooked with ⟨other, second, hOther, hSecond, ⟨booking, hBooking, hPhase, hMatches⟩, rfl⟩
  rcases List.mem_append.mp hBooking with hOld | hNew
  · exact .inl ⟨other, second, hOther, hSecond, ⟨booking, hOld, hPhase, hMatches⟩, rfl⟩
  · rw [List.mem_singleton.mp hNew] at hMatches
    exact .inr (hOwner.temp_eq hTree hDecl hPtr hOther hMatches hSecond).symm

/- Bookings that were reached from others in the second pass. -/
structure Reaches (tree : SyntaxTree) (ctx : Context) (before after : Bookings) : Prop where
  executing : Executing tree ctx after
  grows : ∃ more, after = before ++ more

theorem Reaches.refl (hBefore : Executing tree ctx before) : Reaches tree ctx before before :=
  ⟨hBefore, [], by simp⟩

theorem Reaches.trans (hFirst : Reaches tree ctx before mid)
    (hSecond : Reaches tree ctx mid after) : Reaches tree ctx before after := by
  rcases hFirst.grows with ⟨more, rfl⟩
  rcases hSecond.grows with ⟨others, rfl⟩
  exact ⟨hSecond.executing, more ++ others, List.append_assoc _ _ _⟩

theorem Reaches.signIn (hReaches : Reaches tree ctx before after) (hPtr : pointer.IsOf tree)
    (owner : NodeId) : Reaches tree ctx before (after.signIn pointer.address .execute owner) := by
  rcases hReaches.grows with ⟨more, hMore⟩
  refine ⟨hReaches.executing.signIn hPtr owner, more ++ [⟨pointer.address, .execute, owner⟩], ?_⟩
  simp [Bookings.signIn, hMore]

------ Steps of the Later Passes

variable {α β : Type}

/-
  A step changes nothing but the bookings. What it gives is
  as described, and it gives something if `total` holds.
-/
def Books (ctx : Context) (total : Prop) (step : Context.Task α) (before : Bookings)
    (post : α → Bookings → Prop) : Prop :=
  Step.Meets total step (ctx.booked before) fun value next =>
    ∃ after, next = ctx.booked after ∧ post value after

/- A step gives the same value at all stages of the second pass, and changes nothing. -/
def Settled (tree : SyntaxTree) (ctx : Context) (step : Context.Task α) (value : α) : Prop :=
  ∀ bookings, Executing tree ctx bookings →
    step.run (ctx.booked bookings) = .ok (value, ctx.booked bookings)

variable {step : Context.Task α} {rest : α → Context.Task β} {walk : Walk α}

namespace Settled

theorem of_lift (hWalk : walk = .ok val) : Settled tree ctx (liftM walk) val := by
  subst hWalk
  exact fun _ _ => rfl

theorem of_pure : Settled tree ctx (pure val : Context.Task α) val := fun _ _ => rfl

theorem bind (hStep : Settled tree ctx step val) (hRest : Settled tree ctx (rest val) res) :
    Settled tree ctx (step >>= rest) res := by
  intro bookings hExec
  rw [StateT.run_bind, hStep bookings hExec]
  exact hRest bookings hExec

theorem get_bind {rest : Context → Context.Task β}
    (hRest : ∀ bookings, Settled tree ctx (rest (ctx.booked bookings)) res) :
    Settled tree ctx (get >>= rest) res :=
  fun bookings hExec => hRest bookings bookings hExec

theorem lift_bind (hWalk : walk = .ok val) (hRest : Settled tree ctx (rest val) res) :
    Settled tree ctx (liftM walk >>= rest) res :=
  (of_lift hWalk).bind hRest

theorem mapM {step : α → Context.Task β} (hStep : List.Forall₂ (fun item =>
      Settled tree ctx (step item)) items vals) : Settled tree ctx (items.mapM step) vals := by
  induction hStep with
  | nil => exact of_pure
  | cons hFirst _ ih =>
    rw [List.mapM_cons]
    exact hFirst.bind (ih.bind of_pure)

end Settled

namespace Books

variable {before : Bookings}

theorem of_pure (hPost : post val before) : Books ctx total (pure val) before post :=
  ⟨before, rfl, hPost⟩

theorem mono (hStep : Books ctx total step before strong)
    (hWeak : ∀ val after, strong val after → weak val after) :
    Books ctx total step before weak := by
  refine Step.Meets.mono hStep ?_
  rintro val _ ⟨after, rfl, hStrong⟩
  exact ⟨after, rfl, hWeak val after hStrong⟩

theorem bind (hStep : Books ctx total step before mid)
    (hRest : ∀ val next, mid val next → Books ctx total (rest val) next post) :
    Books ctx total (step >>= rest) before post := by
  refine Step.Meets.bind hStep ?_
  rintro val _ ⟨next, rfl, hMid⟩
  exact hRest val next hMid

theorem get_bind {rest : Context → Context.Task β}
    (hRest : Books ctx total (rest (ctx.booked before)) before post) :
    Books ctx total (get >>= rest) before post :=
  hRest

theorem lift_bind (hWalk : walk = .ok val) (hRest : Books ctx total (rest val) before post) :
    Books ctx total (liftM walk >>= rest) before post :=
  Step.Meets.lift_bind hWalk hRest

theorem read_bind (hWalk : walk.Meets total mid)
    (hRest : ∀ val, mid val → Books ctx total (rest val) before post) :
    Books ctx total (liftM walk >>= rest) before post :=
  Step.Meets.read_bind hWalk hRest

theorem walk_bind (hWalk : total → walk.Ends)
    (hRest : ∀ val, walk = .ok val → Books ctx total (rest val) before post) :
    Books ctx total (liftM walk >>= rest) before post :=
  Step.Meets.walk_bind hWalk hRest

theorem settled_bind (hStep : Settled tree ctx step val) (hExec : Executing tree ctx before)
    (hRest : Books ctx total (rest val) before post) :
    Books ctx total (step >>= rest) before post := by
  unfold Books Step.Meets
  rw [StateT.run_bind, hStep before hExec]
  exact hRest

theorem book_bind {rest : Context.Task β} (change : Bookings → Bookings)
    (hRest : Books ctx total rest (change before) post) : Books ctx total (do
        modify fun context => { context with bookings := change context.bookings }
        rest)
      before post :=
  hRest

end Books

/-
  A step of the second pass, from all bookings that may be there, gives what is described, and
  gives something if `total` holds.
-/
def Writes (tree : SyntaxTree) (ctx : Context) (total : Prop) (step : Context.Task α)
    (code : Bookings → α → Bookings → Prop) : Prop :=
  ∀ before, Executing tree ctx before → Books ctx total step before fun value after =>
      Reaches tree ctx before after ∧ code before value after

namespace Writes

theorem of_pure (hCode : ∀ before, code before val before) :
    Writes tree ctx total (pure val) code :=
  fun before hBefore => .of_pure ⟨.refl hBefore, hCode before⟩

theorem mono (hStep : Writes tree ctx total step code)
    (hWeaker : ∀ before val after, code before val after → weaker before val after) :
    Writes tree ctx total step weaker := by
  intro before hBefore
  refine (hStep before hBefore).mono ?_
  rintro val after ⟨hReaches, hCode⟩
  exact ⟨hReaches, hWeaker before val after hCode⟩

theorem get_bind {rest : Context → Context.Task β}
    (hRest : ∀ bookings, Writes tree ctx total (rest (ctx.booked bookings)) code) :
    Writes tree ctx total (get >>= rest) code :=
  fun before hBefore => hRest before before hBefore

theorem lift_bind (hWalk : walk = .ok val) (hRest : Writes tree ctx total (rest val) code) :
    Writes tree ctx total (liftM walk >>= rest) code := by
  subst hWalk
  exact hRest

theorem bind (hStep : Writes tree ctx total step code)
    (hRest : ∀ before val mid, code before val mid → Executing tree ctx mid →
        Books ctx total (rest val) mid fun found after => Reaches tree ctx mid after ∧
            last before found after) :
    Writes tree ctx total (step >>= rest) last := by
  intro before hBefore
  refine .bind (hStep before hBefore) ?_
  rintro val mid ⟨hReaches, hCode⟩
  refine (hRest before val mid hCode hReaches.executing).mono ?_
  rintro found after ⟨hMore, hLast⟩
  exact ⟨hReaches.trans hMore, hLast⟩

/- The bookings of a branch do not outlive it. -/
theorem branch (hEmission : Writes tree ctx total emission code) :
    Writes tree ctx total (Inline.branch emission) fun before body after =>
        after = before ∧ ∃ last, code before body last := by
  intro before hBefore
  refine .get_bind (.bind (hEmission before hBefore) ?_)
  rintro body last ⟨hReaches, hCode⟩
  rcases hReaches.grows with ⟨more, rfl⟩
  refine .book_bind (·.take before.length) (.of_pure ?_)
  rw [List.take_left]
  exact ⟨.refl hBefore, rfl, _, hCode⟩

end Writes

end Inline

end Algol68
