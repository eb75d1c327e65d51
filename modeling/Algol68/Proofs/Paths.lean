import Algol68.Proofs.Contents
import Algol68.Proofs.Naming

/-
  The paths in generated code.

  A function of a clause reaches other nodes by paths from its
  own node: items it calls, declarations it leaves to the
  interpreter or allocates, and clauses whose frames it opens.
  Each path leads to the node it is meant for.

  Main declarations:
    * `SyntaxTree.Conforms.clause_paths_denote`
-/

------ Reading Paths

namespace Algol68

variable {tree : SyntaxTree} {id : NodeId}

namespace SyntaxTree

/-
  The nodes that the text of a path stands for in the function of a node: the first child, the
  next sibling and the node of the function are written as they are in generated code.
-/
inductive Denotes (tree : SyntaxTree) (start : NodeId) : String → NodeId → Prop
  | own : Denotes tree start "p" start
  | sub {text : String} {id kid : NodeId} (hText : Denotes tree start text id)
      (hSub : tree.sub? id = .ok (some kid)) :
      Denotes tree start ("A68_SUB (" ++ text ++ ")") kid
  | next {text : String} {id sibling : NodeId} (hText : Denotes tree start text id)
      (hNext : tree.next? id = .ok (some sibling)) :
      Denotes tree start ("A68_NEXT (" ++ text ++ ")") sibling

/- A node that a path leads to is what its text stands for. -/
theorem denotes_of_follow (hPath : tree.follow start path = .ok (some id)) :
    tree.Denotes start path.text id := by
  induction path generalizing id with
  | start =>
    cases hPath
    exact .own
  | sub path ih =>
    rcases Walk.bind_eq_ok.mp hPath with ⟨found, hFound, hSub⟩
    cases found with
    | none => cases hSub
    | some parent => exact .sub (ih hFound) hSub
  | next path ih =>
    rcases Walk.bind_eq_ok.mp hPath with ⟨found, hFound, hNext⟩
    cases found with
    | none => cases hNext
    | some sibling => exact .next (ih hFound) hNext

theorem text_eq_of_wrapped (hSame : opening ++ text ++ ")" = opening ++ otherText ++ ")") :
    text = otherText := by
  rw [String.append_assoc, String.append_assoc] at hSame
  exact (String.append_left_inj _).mp ((String.append_right_inj _).mp hSame)

/- A text stands for one node. -/
theorem Denotes.unique (hFirst : tree.Denotes start text id)
    (hSecond : tree.Denotes start otherText other) (hText : text = otherText) : id = other := by
  -- The three forms of a text differ in their fifth character.
  have hMark := congrArg (fun text => text.toList[4]?) hText
  induction hFirst generalizing other otherText with
  | own =>
    cases hSecond with
    | own => rfl
    | sub | next => simp at hMark
  | sub hInner hSub ih =>
    cases hSecond with
    | own | next => simp at hMark
    | sub hOther hOtherSub =>
      have hSame := text_eq_of_wrapped hText
      have hParent := ih hOther hSame (hSame ▸ rfl)
      rw [hParent, hOtherSub] at hSub
      exact (Option.some.inj (Except.ok.inj hSub)).symm
  | next hInner hNext ih =>
    cases hSecond with
    | own | sub => simp at hMark
    | next hOther hOtherNext =>
      have hSame := text_eq_of_wrapped hText
      have hEarlier := ih hOther hSame (hSame ▸ rfl)
      rw [hEarlier, hOtherNext] at hNext
      exact (Option.some.inj (Except.ok.inj hNext)).symm

end SyntaxTree

namespace Site

variable {site : Site}

/- The text of a site stands for its node and for no other. -/
def IsRead (tree : SyntaxTree) (start : NodeId) (site : Site) : Prop :=
  ∀ id, tree.Denotes start site.text id ↔ id = site.node

theorem IsReached.isRead (hReached : site.IsReached tree start) : site.IsRead tree start := by
  have hDenotes := SyntaxTree.denotes_of_follow hReached
  intro id
  constructor
  · exact fun hOther => hOther.unique hDenotes rfl
  · rintro rfl
    exact hDenotes

end Site

------ Statements with Paths

variable {stmt : Stmt}

namespace Stmt

/-
  The path of a statement leads, from the node of a function, to the node that the statement is
  about: an item that has the function that is called, a declaration, a variable that is
  allocated, or a clause whose frame is opened.
-/
def Leads (tree : SyntaxTree) (calls : NodeId → String → Prop) (start : NodeId) : Stmt → Prop
  | .call function site => site.IsRead tree start ∧ calls site.node function
  | .declaration site =>
    site.IsRead tree start ∧ ∃ attr, tree.attr site.node = .ok attr ∧ attr.isDeclaration = true
  | .generate site reference _ =>
    site.IsRead tree start ∧ tree.attr site.node = .ok .variableDeclaration ∧
        reference.owner = site.node
  | .openFrame site | .initialiseFrame site =>
    site.IsRead tree start ∧ tree.attr site.node = .ok .serialClause
  | _ => True

theorem leads_of_isInner (hInner : stmt.isInner = true) : stmt.Leads tree calls start := by
  cases stmt <;> trivial

/- All paths of statements lead to their nodes. -/
abbrev AreLeading (tree : SyntaxTree) (calls : NodeId → String → Prop)
    (start : NodeId) : List Stmt → Prop :=
  AllOf (Leads tree calls start)

/- All paths of statements lead to their nodes, and all their expressions are as described. -/
abbrev AreFit (tree : SyntaxTree) (calls : NodeId → String → Prop) (start : NodeId)
    (fits : Expr → Prop) : List Stmt → Prop :=
  AllOf fun stmt => stmt.Leads tree calls start ∧ ∀ operand ∈ stmt.operands, fits operand

end Stmt

------ Composed Code

namespace Stmt

/- A statement on a line of its own that opens or closes no frame. -/
def isPlain : Stmt → Bool
  | .branch _ _ _ _ | .branchOnly _ _ | .switch _ _ _ | .loop _ _ | .block _
  | .saveFrame _ | .openFrame _ | .openProcedure _ _ | .closeFrame _ => false
  | _ => true

/- The statements that open a frame. -/
def isOpening : Stmt → Bool
  | .openFrame _ | .openProcedure _ _ => true
  | _ => false

section

variable (tree : SyntaxTree) (calls : NodeId → String → Prop) (start : NodeId) (fits : Expr → Prop)

/-
  Code as clauses and calls are composed of it. A frame is closed with the mark that was saved
  before it was opened. Only some nodes have frames, and none has one inside its own.
-/
inductive Composed : (NodeId → Prop) → List Stmt → Prop
  | inner (hBody : AreInnerOf fits True body) : Composed framed body
  | single {stmt : Stmt} (hPlain : stmt.isPlain = true) (hLeads : stmt.Leads tree calls start)
      (hFits : ∀ operand ∈ stmt.operands, fits operand) : Composed framed [stmt]
  | append (hFirst : Composed framed first) (hSecond : Composed framed second) :
      Composed framed (first ++ second)
  | block (hBody : Composed framed body) : Composed framed [.block body]
  | branchOnly {guard : Expr} (hGuard : fits guard) (hYes : Composed framed yes) :
      Composed framed [.branchOnly guard yes]
  | branch {guard : Expr} (hGuard : fits guard) (hYes : Composed framed yes)
      (hNo : Composed framed no) : Composed framed [.branch node guard yes no]
  | switch (hSelector : fits selector) (hArms : ∀ arm ∈ arms, Composed framed arm)
      (hOtherwise : Composed framed otherwise) : Composed framed [.switch selector arms otherwise]
  | loop (hBody : Composed framed body) : Composed framed [.loop header body]
  | frame {opening : Stmt} (hOpening : opening.isOpening = true)
      (hLeads : opening.Leads tree calls start) (hBody : Composed inside body)
      (hInside : ∀ id, inside id → framed id ∧ id ≠ mark.owner) (hOwner : framed mark.owner) :
      Composed framed (.saveFrame mark :: opening :: (body ++ [.closeFrame mark]))
  | wider (hBody : Composed inside body) (hInside : ∀ id, inside id → framed id) :
      Composed framed body

end

namespace Composed

theorem nil : Composed tree calls start fits framed [] := .inner .nil

theorem cons (hStmt : Composed tree calls start fits framed [stmt])
    (hRest : Composed tree calls start fits framed rest) :
    Composed tree calls start fits framed (stmt :: rest) :=
  hStmt.append hRest

theorem plain (hPlain : stmt.isPlain = true) (hLeads : stmt.Leads tree calls start)
    (hNone : stmt.operands = []) : Composed tree calls start fits framed [stmt] := by
  refine .single hPlain hLeads ?_
  rw [hNone]
  exact nofun

theorem one (hPlain : stmt.isPlain = true) (hLeads : stmt.Leads tree calls start)
    (hOne : stmt.operands = [value]) (hVal : fits value) :
    Composed tree calls start fits framed [stmt] := by
  refine .single hPlain hLeads ?_
  rw [hOne]
  exact List.forall_mem_singleton.mpr hVal

theorem areFit (hBody : Composed tree calls start fits framed body) :
    AreFit tree calls start fits body := by
  induction hBody with
  | inner hBody => exact hBody.mono fun _ hStmt => ⟨leads_of_isInner hStmt.1, hStmt.2.1⟩
  | @single _ stmt hPlain hLeads hFits =>
    refine .single ?_ ⟨hLeads, hFits⟩
    cases stmt with
    | branch _ _ _ _ | branchOnly _ _ | switch _ _ _ | loop _ _ | block _ => cases hPlain
    | _ => rfl
  | append _ _ ihFirst ihSecond => exact ihFirst.append ihSecond
  | block _ ih => exact .block ⟨trivial, nofun⟩ ih
  | branchOnly hGuard _ ih => exact .branchOnly ⟨trivial, List.forall_mem_singleton.mpr hGuard⟩ ih
  | branch hGuard _ _ ihYes ihNo =>
    exact .branch ⟨trivial, List.forall_mem_singleton.mpr hGuard⟩ ihYes ihNo
  | switch hSel _ _ ihArms ihOtherwise =>
    exact .switch ⟨trivial, List.forall_mem_singleton.mpr hSel⟩ ihArms ihOtherwise
  | loop _ ih => exact .loop ⟨trivial, nofun⟩ ih
  | @frame _ _ _ _ opening hOpening hLeads _ _ _ ih =>
    refine .cons (.single rfl ⟨trivial, nofun⟩) (.cons ?_ (ih.append
      (.single rfl ⟨trivial, nofun⟩)))
    cases opening with
    | openFrame _ | openProcedure _ _ => exact .single rfl ⟨hLeads, nofun⟩
    | _ => cases hOpening
  | wider _ _ ih => exact ih

end Composed

end Stmt

------ Items and Serial Clauses

namespace Emission

open Inline Stmt

variable {scope : Scope} {value : Expr} {push : Stmt}

theorem pushOf_eq (hPush : pushOf tree mode value = .ok push) :
    ∃ form, push = .push mode form value := by
  rcases Walk.bind_eq_ok.mp hPush with ⟨form, -, hForm⟩
  cases hForm
  exact ⟨form, rfl⟩

theorem pushOf_fits (hVal : fits value) (hPush : pushOf tree mode value = .ok push) :
    Composed tree calls start fits framed [push] := by
  rcases pushOf_eq hPush with ⟨form, rfl⟩
  exact .one rfl trivial rfl hVal

theorem frame_fits (opensFrame : Bool)
    (hSite : opensFrame = true → site.IsRead tree start ∧ tree.attr site.node = .ok .serialClause)
    (hOwner : framed id) (hInside : ∀ other, inside other → framed other ∧ other ≠ id)
    (hBody : Composed tree calls start fits inside body) :
    Composed tree calls start fits framed
      (openFrame id site opensFrame ++ body ++ closeFrame id opensFrame) := by
  cases opensFrame with
  | false => exact (hBody.append .nil).wider fun other hOther => (hInside other hOther).1
  | true =>
    have hLeads := hSite rfl
    exact .frame rfl hLeads (.cons (.plain rfl hLeads rfl) hBody) hInside hOwner

variable (hYields : Yields tree scope fits)

include hYields

theorem executeUnit_fits (id : NodeId) :
    Gives scope False (executeUnit tree id) (Composed tree calls start fits framed) :=
  (executeWithin_gives hYields fun _ _ _ => trivial).mono fun _ => .inner

theorem pushValue_fits (mode : ModeId) (id : NodeId) : Gives scope False (pushValue tree mode id)
      fun push => Composed tree calls start fits framed [push] := by
  apply (hYields.yielded id).bind
  intro value hVal
  exact .of_lift fun push hPush => pushOf_fits hVal hPush

theorem executeValue_fits (id : NodeId) :
    Gives scope False (executeValue tree id) (Composed tree calls start fits framed) := by
  apply (executeUnit_fits hYields id).bind
  intro body hBody
  apply Gives.lift_bind
  rintro (_ | mode) _
  · exact .of_pure hBody
  · apply Gives.lift_bind
    intro isVoid _
    split
    · exact .of_pure hBody
    · apply (pushValue_fits hYields mode id).bind
      intro push hPush
      exact .of_pure (hBody.append hPush)

theorem executeInit_fits (object : ModeId) (reference : Temp) (init : Option NodeId) :
    Gives scope False (executeInit tree object reference init)
      (Composed tree calls start fits framed) := by
  cases init with
  | none => exact .of_pure .nil
  | some init =>
    apply (executeUnit_fits hYields init).bind
    intro body hBody
    apply (hYields.yielded init).bind
    intro value hVal
    apply Gives.lift_bind
    intro storage _
    apply Gives.lift_bind
    intro store hStore
    exact .of_pure (hBody.append (.inner (storeOf_innerOf trivial hVal hStore)))

theorem executeItem_fits (hItem : item.IsOf tree calls start) (last : Bool) :
    Gives scope False (executeItem tree last item) (Composed tree calls start fits framed) := by
  rcases item with ⟨site, kind⟩
  rcases hItem with ⟨hReached, hSuits⟩
  cases kind with
  | inline =>
    cases last with
    | true => exact executeValue_fits hYields site.node
    | false => exact executeUnit_fits hYields site.node
  | call func | declaration => exact .of_pure (.plain rfl ⟨hReached.isRead, hSuits⟩ rfl)
  | allocation =>
    apply Gives.lift_bind
    intro init _
    apply Gives.lift_bind
    rintro ⟨tag, entry, object⟩ _
    apply Gives.lift_bind
    intro size _
    apply (executeInit_fits hYields object _ init).bind
    intro body hBody
    have hGenerate : Composed tree calls start fits framed [.generate site
          ⟨Text.identifier entry.name ++ "_ref", site.node⟩ size] :=
      .plain rfl ⟨hReached.isRead, hSuits, rfl⟩ rfl
    exact .of_pure (.block (.cons (.plain rfl trivial rfl) (hGenerate.cons hBody)))

theorem executeItems_fits (mark : Temp)
    (hItems : ∀ item ∈ items, item.IsOf tree calls start) :
    Gives scope False (executeItems tree mark items) (Composed tree calls start fits framed) := by
  induction items with
  | nil => exact .of_pure .nil
  | cons item rest ih =>
    have hItem := hItems item List.mem_cons_self
    cases rest with
    | nil => exact branch_gives (executeItem_fits hYields hItem true)
    | cons other others =>
      apply (branch_gives (executeItem_fits hYields hItem false)).bind
      intro body hBody
      apply (ih fun later hLater => hItems later (List.mem_cons_of_mem _ hLater)).bind
      intro more hMore
      exact .of_pure (hBody.append (.cons (.plain rfl trivial rfl) hMore))

theorem executeSerial_fits (hPlan : plan.Lists tree calls start)
    (hFrame : plan.opensFrame = true → tree.attr plan.site.node = .ok .serialClause)
    (hOwner : framed plan.site.node) :
    Gives scope False (executeSerial tree plan) (Composed tree calls start fits framed) := by
  apply (executeItems_fits hYields _ hPlan.items).bind
  intro body hBody
  exact .of_pure (frame_fits _ (fun hOpens => ⟨hPlan.reached.isRead, hFrame hOpens⟩) hOwner
    (fun _ => False.elim) (.cons (.plain rfl trivial rfl) hBody))

theorem executeSerialClause_fits (hPlan : plan.IsOf tree calls start)
    (hOwner : framed plan.site.node) :
    Gives scope False (executeSerial tree plan) (Composed tree calls start fits framed) :=
  executeSerial_fits hYields hPlan.toLists (fun _ => hPlan.attr) hOwner

end Emission

------ Other Clauses

namespace Emission

open Inline Stmt

variable (hYields : Yields tree scope fits)

include hYields

theorem executeArms_fits (hItems : ∀ item ∈ items, item.IsOf tree calls start) :
    Gives scope False (executeArms tree items) fun arms =>
      ∀ arm ∈ arms, Composed tree calls start fits framed arm := by
  induction items with
  | nil => exact .of_pure (by simp)
  | cons item rest ih =>
    apply (branch_gives (executeItem_fits hYields (hItems item List.mem_cons_self) true)).bind
    intro arm hArm
    apply (ih fun later hLater => hItems later (List.mem_cons_of_mem _ hLater)).bind
    intro arms hArms
    exact .of_pure (List.forall_mem_cons.mpr ⟨hArm, hArms⟩)

theorem executeSelect_fits (hAll : ∀ id, framed id) {rest : ChoicePlan}
    (hBranches : branches.AreOf tree calls start id)
    (hRest : Gives scope False (executeChoice tree rest)
      (Composed tree calls start fits framed)) :
    Gives scope False (executeChoice tree (.select selector branches rest))
      (Composed tree calls start fits framed) := by
  apply (executeUnit_fits hYields selector).bind
  intro body hBody
  apply (hYields.yielded selector).bind
  intro value hVal
  cases branches with
  | guarded yes =>
    apply (branch_gives (executeSerialClause_fits hYields hBranches.parts.1 (hAll _))).bind
    intro yes hYes
    apply (branch_gives hRest).bind
    intro no hNo
    refine .of_pure (hBody.append ?_)
    cases rest with
    | nothing => exact .branchOnly hVal hYes
    | otherwise | select => exact .branch hVal hYes hNo
  | numbered alternatives =>
    apply (executeArms_fits hYields hBranches.parts.items).bind
    intro arms hArms
    apply (branch_gives hRest).bind
    intro otherwise hOtherwise
    exact .of_pure (hBody.append (.switch hVal hArms hOtherwise))

theorem executeChoice_fits (hAll : ∀ id, framed id) (hPlan : plan.IsOf tree calls start id) :
    Gives scope False (executeChoice tree plan) (Composed tree calls start fits framed) := by
  induction hPlan with
  | only hBranches _ => exact executeSelect_fits hYields hAll hBranches (.of_pure .nil)
  | last hBranches hLast =>
    exact executeSelect_fits hYields hAll hBranches
      (executeSerialClause_fits hYields hLast.1 (hAll _))
  | more hBranches _ _ ih => exact executeSelect_fits hYields hAll hBranches ih

theorem boundValue_fits (hOne : fits (.constant (.int 1))) (bound : Option NodeId) :
    Gives scope False (boundValue tree bound) fits := by
  cases bound with
  | none => exact .of_pure hOne
  | some bound => exact hYields.yielded bound

theorem executeLimit_fits (header : LoopHeader) (limit : Option NodeId) :
    Gives scope False (executeLimit tree header limit) (Composed tree calls start fits framed) := by
  cases limit with
  | none => exact .of_pure .nil
  | some limit =>
    apply (hYields.yielded limit).bind
    intro value hVal
    exact .of_pure (.one rfl trivial rfl hVal)

theorem executeLoop_fits (hAll : ∀ id, framed id) (hOne : fits (.constant (.int 1)))
    (hAttr : tree.attr id = .ok .loopClause) (hPlan : plan.IsOf tree calls start) :
    Gives scope False (executeLoop tree id plan) (Composed tree calls start fits framed) := by
  have hSite : plan.body.site.IsRead tree start ∧
      tree.attr plan.body.site.node = .ok .serialClause :=
    ⟨hPlan.reached.isRead, hPlan.attr⟩
  have hOther : plan.body.site.node ≠ id := by
    rintro rfl
    cases hAttr.symm.trans hSite.2
  apply Gives.lift_bind
  intro counter _
  apply (inOrder_gives .nil .append fun bound _ => executeUnit_fits hYields bound).bind
  intro bounds hBounds
  apply (boundValue_fits hYields hOne plan.start).bind
  intro first hFirst
  apply (boundValue_fits hYields hOne plan.step).bind
  intro step hStep
  apply (executeLimit_fits hYields _ plan.limit).bind
  intro limit hLimit
  have hSerial : Gives scope False (executeSerial tree plan.body)
      (Composed tree calls start fits (· ≠ id)) :=
    executeSerialClause_fits hYields hPlan hOther
  apply (branch_gives hSerial).bind
  intro body hBody
  have hCounter : ∀ write : Temp × Slot → Stmt, (∀ entry, Composed tree calls start fits
        (· ≠ id) [write entry]) → Composed tree calls start fits (· ≠ id)
          (counter.toList.map write) := by
    intro write hWrite
    cases counter with
    | none => exact .nil
    | some entry => exact hWrite entry
  have hRefresh : Composed tree calls start fits (· ≠ id) (if plan.needsInitialisation then
        [Stmt.initialiseFrame plan.body.site] else []) := by
    split
    · exact .plain rfl hSite rfl
    · exact .nil
  have hBoundTemps : Composed tree calls start fits framed
      [.compute ((plan.header id).temp "from") first, .compute ((plan.header id).temp "by") step] :=
    .cons (.one rfl trivial rfl hFirst) (.one rfl trivial rfl hStep)
  have hRounds : Composed tree calls start fits (· ≠ id) [.saveStack (stackMark id),
        .loop (plan.header id) (counter.toList.map (fun entry => Stmt.setCounter entry.1
                ((plan.header id).temp "count")) ++ body ++
            .resetStack (stackMark id) ::
              if plan.needsInitialisation then [Stmt.initialiseFrame plan.body.site] else [])] :=
    .cons (.plain rfl trivial rfl) (.loop (((hCounter _ fun _ => .plain rfl (by trivial) rfl).append
      hBody).append (.cons (.plain rfl trivial rfl) hRefresh)))
  have hFrame := frame_fits plan.opensFrame (fun _ => hSite) (hAll id)
    (fun _ hNe => ⟨hAll _, hNe⟩) ((hCounter (fun entry => .fetch entry.1 "A68_INT" entry.2)
      fun _ => .plain rfl trivial rfl).append hRounds)
  have hCode := ((hBounds.append hBoundTemps).append hLimit).append hFrame
  simp only [← List.append_assoc] at hCode
  exact .of_pure hCode

theorem pushArguments_fits (args : List (NodeId × ModeId)) :
    Gives scope False (pushArguments tree args) (Composed tree calls start fits framed) := by
  induction args with
  | nil => exact .of_pure .nil
  | cons arg rest ih =>
    apply (pushValue_fits hYields arg.2 arg.1).bind
    intro push hPush
    apply ih.bind
    intro others hOthers
    exact .of_pure (hPush.cons hOthers)

/-
  All paths of code that was drawn up lead to their nodes, and
  its expressions are those that units yield, constants aside.
-/
theorem Drawn.composed (hDrawn : Drawn tree calls id writer)
    (hOne : fits (.constant (.int 1)))
    (hConst : ∀ node mode, Generator.IsConstantUnit tree id node mode →
        ∀ value, fits (.constant value)) :
    Gives scope False writer.execute (Composed tree calls id fits fun _ => True) := by
  cases hDrawn with
  | serial hPlan | closed _ hPlan => exact executeSerialClause_fits hYields hPlan trivial
  | display _ _ _ _ _ =>
    exact inOrder_gives .nil .append fun member _ => executeValue_fits hYields member
  | collateral _ _ _ hPlan _ hFrame _ =>
    refine executeSerial_fits hYields hPlan (fun hOpens => ?_) trivial
    cases hFrame.symm.trans hOpens
  | choice _ _ hPlan _ => exact executeChoice_fits hYields (fun _ => trivial) hPlan
  | loop hAttr hPlan _ => exact executeLoop_fits hYields (fun _ => trivial) hOne hAttr hPlan
  | @routineCall callee tag params call _ _ _ _ _ _ =>
    apply (inOrder_gives .nil .append fun arg _ => executeUnit_fits hYields arg).bind
    intro body hBody
    apply (pushArguments_fits hYields call.arguments).bind
    intro pushes hPushes
    have hInside : Composed tree calls id fits (fun _ => False)
        [.bindArguments call.routine (stackMark id), .resetStack (stackMark id),
          .executeUnit call.body call.result] :=
      .cons (.plain rfl trivial rfl) (.cons (.plain rfl trivial rfl) (.plain rfl trivial rfl))
    have hSave : Composed tree calls id fits (fun _ => True) [.saveStack (stackMark id)] :=
      .plain rfl trivial rfl
    refine .of_pure ((hBody.append (hSave.cons hPushes)).append ?_)
    exact .frame rfl (by trivial) hInside (fun _ => False.elim) trivial
  | @injection union alternatives whole part injection _ _ _ _ _ _ _ _ _ =>
    apply (executeUnit_fits hYields injection.operand).bind
    intro body hBody
    apply (pushValue_fits hYields injection.mode injection.operand).bind
    intro push hPush
    have hPadding : Composed tree calls id fits (fun _ => True) (if 0 < injection.padding then
          [Stmt.padStack injection.padding] else []) := by
      split
      · exact .plain rfl trivial rfl
      · exact .nil
    exact .of_pure (hBody.append (.cons (.plain rfl trivial rfl) (hPush.cons hPadding)))
  | constant hUnit hPush => exact .of_pure (pushOf_fits (hConst _ _ hUnit _) hPush)
  | value _ => exact executeValue_fits hYields id

omit hYields in
theorem Drawn.leads (hDrawn : Drawn tree calls id writer) :
    Gives scope False writer.execute (AreLeading tree calls id) :=
  (hDrawn.composed (yields_any tree scope) trivial fun _ _ _ _ => trivial).mono
      fun _ hBody => hBody.areFit.mono fun _ hStmt => hStmt.1

end Emission

------ Functions of Clauses

/- Whether a node is a clause that is compiled as a whole. -/
def Attribute.isClause : Attribute → Bool
  | .closedClause | .serialClause | .collateralClause
  | .conditionalClause | .caseClause | .loopClause => true
  | _ => false

namespace SyntaxTree

open Generator

variable {run : Run} {attr : Attribute}

theorem not_isConstantUnit_of_isClause (hAttr : tree.attr id = .ok attr)
    (hClause : attr.isClause = true) (node : Node) (mode : ModeId) :
    ¬ IsConstantUnit tree id node mode := by
  apply not_isConstantUnit hAttr
  · rintro rfl
    cases hClause
  · rintro rfl
    cases hClause

theorem CompilesTo.hasFunction_of_name (hForest : tree.IsForest)
    (hRun : tree.CompilesTo options run) (hAttr : tree.attr id = .ok attr)
    (hClause : attr.isClause = true) (hRec : (id, function.name) ∈ run.context.compiled)
    (hFun : .function function ∈ run.context.output) : run.HasFunction tree id function := by
  rcases hRun.compiles hForest with ⟨hCompiles, hDrawn⟩
  have hLedger := hCompiles.isRecorded.ledger
  have hNot := not_isConstantUnit_of_isClause hAttr hClause
  rcases hDrawn.functions function hFun with ⟨other, hOther, hOf⟩
  rcases hLedger.named hRec with hOwn | ⟨node, mode, _, hUnit, -⟩
  · rcases hLedger.named hOther with hOtherOwn | hConst
    · rw [own_inj hOwn hOtherOwn]
      exact hOf
    · rcases (attr_eq_of_names hAttr hOwn hConst).2 with
        rfl | rfl
      · cases hClause
      · cases hClause
  · exact absurd hUnit (hNot node mode)

theorem areLeading_of_hasFunction (hOf : run.HasFunction tree id func) :
    Stmt.AreLeading tree run.Calls id func.body := by
  rcases hOf with ⟨writer, hDrawn, before, declared, next, -, -, hBody, -⟩
  exact (hDrawn.leads.of_run hBody).1

/-
  Whatever the options, every clause that is compiled has a function, and each path in it is read
  as the node meant: an item that has the function called, a declaration, a variable that is
  allocated, or a clause whose frame is opened.
-/
theorem Conforms.clause_paths_denote
    (hTree : tree.Conforms)
    (options : Options) :
    ∃ run, tree.CompilesTo options run ∧
      ∀ id name attr, (id, name) ∈ run.context.compiled →
        tree.attr id = .ok attr → attr.isClause = true →
          (∃ function, .function function ∈ run.context.output ∧ function.name = name) ∧
          ∀ function, .function function ∈ run.context.output →
            function.name = name →
              run.HasFunction tree id function ∧
                Stmt.AreLeading tree run.Calls id function.body := by
  rcases hTree.exists_compilesTo options with ⟨run, hRun⟩
  refine ⟨run, hRun, ?_⟩
  intro id name attr hRecorded hAttr hClause
  constructor
  · rcases (hRun.compiles hTree.forest).2.nodes id name hRecorded with ⟨node, mode, hUnit⟩ | hFound
    · exact absurd hUnit (not_isConstantUnit_of_isClause hAttr hClause node mode)
    · rcases hFound with ⟨function, hFunction, hName, -⟩
      exact ⟨function, hFunction, hName⟩
  · rintro function hFunction rfl
    have hOf := hRun.hasFunction_of_name hTree.forest hAttr hClause hRecorded hFunction
    exact ⟨hOf, areLeading_of_hasFunction hOf⟩

/- A loop in the last branch of a conditional clause. -/
def nestedLoop : SyntaxTree where
  nodes := Figure.nodes [.unit .conditionalClause ⟨0⟩
      [.ifPart (.ident ⟨3⟩ ⟨0⟩),
        .branch .thenPart ⟨0⟩ [.voided (.assign ⟨8⟩ ⟨1⟩ (.number "1"))],
        .unit .elifPart ⟨0⟩ [.ifPart (.ident ⟨3⟩ ⟨0⟩), .branch .thenPart ⟨0⟩
          [.unit .loopClause ⟨0⟩ [.tagged .forPart ⟨2⟩, .part .toPart [.number "3"],
              .branch .doPart ⟨0⟩ [.voided (.assign ⟨8⟩ ⟨1⟩ (.ident ⟨1⟩ ⟨2⟩))]]]]]]
  tags := ⟨#[{ name := "b", mode := ⟨3⟩, kind := .identifier },
      { name := "x", mode := ⟨8⟩, kind := .var },
      { name := "i", mode := ⟨1⟩, kind := .identifier }]⟩
  root := some ⟨0⟩

theorem clause_paths_denote_nestedLoop :
    nestedLoop.Conforms ∧
      ∃ run, nestedLoop.CompilesTo { level := 3 } run ∧
        ∀ id name attr, (id, name) ∈ run.context.compiled →
          nestedLoop.attr id = .ok attr →
            attr.isClause = true →
              (∃ function, .function function ∈ run.context.output ∧ function.name = name) ∧
              ∀ function,
                .function function ∈ run.context.output →
                  function.name = name →
                    run.HasFunction nestedLoop id function ∧
                      Stmt.AreLeading nestedLoop run.Calls id function.body := by
  have hTree : nestedLoop.Conforms := conforms_of_isOrderly (by decide +kernel)
  exact ⟨hTree, hTree.clause_paths_denote _⟩

end SyntaxTree

end Algol68
