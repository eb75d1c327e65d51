import Algol68.Proofs.LocalNames
import Algol68.Proofs.Paths
import Algol68.Proofs.Temporaries

/-
  The local names of generated functions.

  Every temporary that is free in the body of a function is
  declared in the lines before it, and no identifier is
  declared twice: the node and the stem of a temporary tell
  its class and how it is declared.

  Main declarations:
    * `SyntaxTree.Conforms.temporaries_declared_once`
-/

------ Free Temporaries

namespace Algol68

open Stmt (mentions targets reads operands)

open List hiding after

namespace Stmt

/- The temporaries that a statement declares for those behind it. -/
def locals : Stmt → List Temp
  | .referenceTo reference _ => [reference]
  | _ => []

mutual

/- The temporaries that a statement does not declare. -/
def free : Stmt → List Temp
  | .branch node guard yes no =>
    (Stmt.branch node guard yes no).mentions ++ (freeOf yes ++ freeOf no)
  | .branchOnly guard yes => (Stmt.branchOnly guard yes).mentions ++ freeOf yes
  | .switch selector arms otherwise =>
    (Stmt.switch selector arms otherwise).mentions ++ (freeArms arms ++ freeOf otherwise)
  | .loop header body => (Stmt.loop header body).mentions ++ freeOf body
  | .block body => freeOf body
  | .referenceTo _ _ => []
  | stmt => stmt.mentions

/- The temporaries that statements do not declare. -/
def freeOf : List Stmt → List Temp
  | [] => []
  | stmt :: rest => free stmt ++ (freeOf rest).filter (· ∉ stmt.locals)

/- The temporaries that arms do not declare. -/
def freeArms : List (List Stmt) → List Temp
  | [] => []
  | arm :: rest => freeOf arm ++ freeArms rest

end

attribute [simp] free

theorem mem_freeOf_cons :
    temp ∈ freeOf (stmt :: rest) ↔ temp ∈ free stmt ∨ temp ∈ freeOf rest ∧ temp ∉ stmt.locals := by
  simp [freeOf]

theorem mem_freeOf_append (hTemp : temp ∈ freeOf (first ++ second)) :
    temp ∈ freeOf first ∨ temp ∈ freeOf second := by
  induction first with
  | nil => exact .inr hTemp
  | cons stmt rest ih =>
    rw [cons_append, mem_freeOf_cons] at hTemp
    rw [mem_freeOf_cons]
    rcases hTemp with hFree | ⟨hRest, hLocal⟩
    · exact .inl (.inl hFree)
    · rcases ih hRest with hFirst | hSecond
      · exact .inl (.inr ⟨hFirst, hLocal⟩)
      · exact .inr hSecond

theorem mem_freeArms : temp ∈ freeArms arms ↔ ∃ arm ∈ arms, temp ∈ freeOf arm := by
  induction arms with
  | nil => simp [freeArms]
  | cons arm rest ih => simp [freeArms, ih]

mutual

theorem exists_of_mem_free (hTemp : temp ∈ free stmt) :
    ∃ inner ∈ within stmt, temp ∈ inner.mentions := by
  cases stmt
  case branch node guard yes no =>
    rw [free, mem_append, mem_append] at hTemp
    rw [within, exists_mem_cons_iff, exists_mem_append]
    exact hTemp.imp_right (Or.imp exists_of_mem_freeOf exists_of_mem_freeOf)
  case branchOnly guard yes =>
    rw [free, mem_append] at hTemp
    rw [within, exists_mem_cons_iff]
    exact hTemp.imp_right exists_of_mem_freeOf
  case switch sel arms otherwise =>
    rw [free, mem_append, mem_append] at hTemp
    rw [within, exists_mem_cons_iff, exists_mem_append]
    exact hTemp.imp_right (Or.imp exists_of_mem_freeArms exists_of_mem_freeOf)
  case loop header body =>
    rw [free, mem_append] at hTemp
    rw [within, exists_mem_cons_iff]
    exact hTemp.imp_right exists_of_mem_freeOf
  case block body =>
    rw [free] at hTemp
    exact exists_mem_cons_of_exists (exists_of_mem_freeOf hTemp)
  case referenceTo reference slot =>
    rw [free] at hTemp
    cases hTemp
  all_goals exact ⟨_, mem_singleton_self _, hTemp⟩

theorem exists_of_mem_freeOf (hTemp : temp ∈ freeOf body) :
    ∃ inner ∈ withinOf body, temp ∈ inner.mentions := by
  cases body with
  | nil =>
    rw [freeOf] at hTemp
    cases hTemp
  | cons stmt rest =>
    exact exists_mem_append.mpr ((mem_freeOf_cons.mp hTemp).imp exists_of_mem_free
      fun hRest => exists_of_mem_freeOf hRest.1)

theorem exists_of_mem_freeArms (hTemp : temp ∈ freeArms arms) :
    ∃ inner ∈ withinArms arms, temp ∈ inner.mentions := by
  cases arms with
  | nil =>
    rw [freeArms] at hTemp
    cases hTemp
  | cons arm rest =>
    rw [freeArms, mem_append] at hTemp
    exact exists_mem_append.mpr (hTemp.imp exists_of_mem_freeOf exists_of_mem_freeArms)

end

end Stmt

------ Declared Temporaries

variable {tree : SyntaxTree} {id : NodeId}

namespace Inline

open Declarations

/- A temporary is declared. -/
def Covers (declarations : Declarations) (temp : Temp) : Prop :=
  IsWord temp.stem ∧ ∃ storage declarator, declarations.Has storage declarator ∧
      Spells temp declarator

theorem Belongs.covers (hTree : tree.IsRegular) (hDecl : AreDeclared tree ctx)
    (hTemp : Belongs tree ctx id temp) : Covers ctx.declarations temp := by
  cases hTemp with
  | result _ hRes hName => exact ⟨hRes.isWord, _, _, hName, hRes.spells⟩
  | @pointer ptr owner hPtr _ hOwner =>
    rcases hOwner.exists_pointer hTree hDecl hPtr with ⟨first, hFirst, rfl, hMatches, hHas⟩
    refine ⟨hPtr.isWord, _, _, hHas, ?_⟩
    have hTemp : ptr.temp first.node = first.temp first.node := by
      unfold Pointer.temp
      rw [hFirst.stem_eq hTree hPtr hMatches]
    rw [hTemp]
    exact .pointer

end Inline

------ Code of Clauses

namespace Emission

open Inline Declarations

/- The free temporaries of statements are declared. -/
def Covered (ctx : Context) (body : List Stmt) : Prop :=
  ∀ temp ∈ Stmt.freeOf body, Covers ctx.declarations temp

namespace Covered

variable {guard : Expr}

theorem append (hFirst : Covered ctx first) (hSecond : Covered ctx second) :
    Covered ctx (first ++ second) := by
  intro temp hTemp
  rcases Stmt.mem_freeOf_append hTemp with hLeft | hRight
  · exact hFirst temp hLeft
  · exact hSecond temp hRight

/- Statements whose temporaries are declared. -/
theorem of_free (hBody : ∀ stmt ∈ body, ∀ temp ∈ stmt.free, Covers ctx.declarations temp) :
    Covered ctx body := by
  induction body with
  | nil =>
    intro temp hTemp
    cases hTemp
  | cons stmt rest ih =>
    intro temp hTemp
    rcases Stmt.mem_freeOf_cons.mp hTemp with hFree | ⟨hRest, -⟩
    · exact hBody stmt mem_cons_self temp hFree
    · exact ih (fun other hOther => hBody other (mem_cons_of_mem _ hOther)) temp hRest

theorem single (hStmt : ∀ temp ∈ stmt.free, Covers ctx.declarations temp) : Covered ctx [stmt] :=
  of_free (by simpa using hStmt)

theorem branch (hGuard : ∀ temp ∈ guard.temps, Covers ctx.declarations temp)
    (hYes : Covered ctx first) (hNo : Covered ctx second) :
    Covered ctx [.branch node guard first second] := by
  apply single
  intro temp hTemp
  simp only [Stmt.free, mentions, targets, reads,
    operands, Expr.tempsOf, nil_append, append_nil, mem_append] at hTemp
  rcases hTemp with hTemp | hTemp | hTemp
  · exact hGuard temp hTemp
  · exact hYes temp hTemp
  · exact hNo temp hTemp

theorem branchOnly (hGuard : ∀ temp ∈ guard.temps, Covers ctx.declarations temp)
    (hYes : Covered ctx first) : Covered ctx [.branchOnly guard first] := by
  apply single
  intro temp hTemp
  simp only [Stmt.free, mentions, targets, reads,
    operands, Expr.tempsOf, nil_append, append_nil, mem_append] at hTemp
  rcases hTemp with hTemp | hTemp
  · exact hGuard temp hTemp
  · exact hYes temp hTemp

theorem switch (hSel : ∀ temp ∈ sel.temps, Covers ctx.declarations temp)
    (hArms : ∀ arm ∈ arms, Covered ctx arm) (hOther : Covered ctx second) :
    Covered ctx [.switch sel arms second] := by
  apply single
  intro temp hTemp
  simp only [Stmt.free, mentions, targets, reads, operands, Expr.tempsOf, nil_append,
    append_nil, mem_append, Stmt.mem_freeArms] at hTemp
  rcases hTemp with hTemp | ⟨arm, hArm, hTemp⟩ | hTemp
  · exact hSel temp hTemp
  · exact hArms arm hArm temp hTemp
  · exact hOther temp hTemp

theorem loop
    (hHeader : ∀ stem ∈ ["from", "by", "to", "count"], Covers ctx.declarations (header.temp stem))
    (hBody : Covered ctx first) : Covered ctx [.loop header first] := by
  apply single
  intro temp hTemp
  rw [Stmt.free, mem_append] at hTemp
  rcases hTemp with hOwn | hTemp
  · have hStem : ∃ stem ∈ ["from", "by", "to", "count"], temp = header.temp stem := by
      simp only [mentions, targets, reads, operands, Expr.tempsOf, mem_append, map_cons, map_nil,
        mem_cons, not_mem_nil, or_false] at hOwn
      rcases hOwn with rfl | (rfl | rfl | rfl) | hLimit
      · exact ⟨"count", by simp, rfl⟩
      · exact ⟨"from", by simp, rfl⟩
      · exact ⟨"by", by simp, rfl⟩
      · exact ⟨"count", by simp, rfl⟩
      · split at hLimit
        · exact ⟨"to", by simp, mem_singleton.mp hLimit⟩
        · cases hLimit
    rcases hStem with ⟨stem, hStem, rfl⟩
    exact hHeader stem hStem
  · exact hBody temp hTemp

end Covered

variable (hTree : tree.IsRegular) (hDecl : AreDeclared tree ctx)

include hTree hDecl

theorem Code.covered (hCode : Code tree ctx id before body after val) :
    Covered ctx body ∧ ∀ temp ∈ val.temps, Covers ctx.declarations temp := by
  have hPlaced := CodeWithin.placed hTree hDecl hCode
  constructor
  · intro temp hTemp
    rcases Stmt.exists_of_mem_freeOf hTemp with ⟨stmt, hStmt, hMention⟩
    exact ((hPlaced.stmts stmt hStmt).mentions temp hMention).covers hTree hDecl
  · intro temp hTemp
    exact (hPlaced.temps val (mem_singleton_self _) temp hTemp).covers hTree hDecl

theorem InTurn.covered
    (hCode : InTurn (Code tree ctx) ids before body after vals) :
    Covered ctx body ∧ ∀ val ∈ vals, ∀ temp ∈ val.temps, Covers ctx.declarations temp := by
  induction hCode with
  | nil => exact ⟨.of_free (by simp), by simp⟩
  | cons hFirst _ ih =>
    have hHead := Code.covered hTree hDecl hFirst
    refine ⟨hHead.1.append ih.1, ?_⟩
    rw [List.forall_mem_cons]
    exact ⟨hHead.2, ih.2⟩

theorem ValueCode.covered (hCode : ValueCode tree ctx id before body after) : Covered ctx body := by
  cases hCode with
  | dropped hCode => exact (Code.covered hTree hDecl hCode).1
  | pushed hCode =>
    have hUnit := Code.covered hTree hDecl hCode
    refine hUnit.1.append (.single ?_)
    simpa [targets, reads, operands] using hUnit.2

theorem ItemCode.covered (hCode : ItemCode tree ctx item before body) : Covered ctx body := by
  cases hCode with
  | inline _ hCode => exact hCode.covered hTree hDecl
  | call | declaration => exact .single (by simp [targets, reads, operands])
  | @allocation inner entry slot size init _ _ _ hCode =>
    -- The reference is declared at the start of the block.
    have hInner : ∀ temp ∈ Stmt.freeOf inner, temp = referenceOf item.site.node entry ∨
          Covers ctx.declarations temp := by
      intro temp hTemp
      cases hCode with
      | none =>
        cases hTemp
      | some hCode =>
        have hUnit := Code.covered hTree hDecl hCode
        rcases Stmt.mem_freeOf_append hTemp with hUnitTemp | hStore
        · exact .inr (hUnit.1 temp hUnitTemp)
        · simp only [Stmt.freeOf, Stmt.free, mentions, targets, reads, operands, Expr.tempsOf,
            nil_append, append_nil, filter_nil, singleton_append, mem_cons] at hStore
          exact hStore.imp_right (hUnit.2 temp)
    apply Covered.single
    intro temp hTemp
    rw [Stmt.free, Stmt.mem_freeOf_cons] at hTemp
    rcases hTemp with hOwn | ⟨hRest, hLocal⟩
    · rw [Stmt.free] at hOwn
      cases hOwn
    · rw [Stmt.locals, mem_singleton] at hLocal
      rcases Stmt.mem_freeOf_cons.mp hRest with hGenerate | ⟨hBody, -⟩
      · refine absurd ?_ hLocal
        simpa [targets, reads, operands] using hGenerate
      · exact (hInner temp hBody).resolve_left hLocal

theorem ItemsCode.covered (hMark : Covers ctx.declarations mark)
    (hCode : ItemsCode tree ctx mark items before body) : Covered ctx body := by
  induction hCode with
  | nil => exact .of_free (by simp)
  | last hItem => exact hItem.covered hTree hDecl
  | cons hItem _ ih =>
    refine (hItem.covered hTree hDecl).append (.append (.single ?_) ih)
    simpa [targets, reads, operands] using hMark

omit hTree hDecl

theorem loopCounter_eq_some (hCounter : loopCounter tree id tag = .ok (some (temp, slot))) :
    ∃ name, temp = ⟨Text.identifier name ++ "_counter", id⟩ := by
  cases tag with
  | none => cases hCounter
  | some tag =>
    rcases Walk.bind_eq_ok.mp hCounter with ⟨entry, -, hFound⟩
    cases hFound
    exact ⟨entry.name, rfl⟩

theorem Marks.covers (hMarks : Marks (readyOf tree ctx).name id opensFrame) :
    Covers ctx.declarations (stackMark id) ∧ (opensFrame = true →
        Covers ctx.declarations (frameMark id)) := by
  have hStack : IsWord (stackMark id).stem := isWord_stem (by simp [stackMark])
  have hFrame : IsWord (frameMark id).stem := isWord_stem (by simp [frameMark])
  exact ⟨⟨hStack, _, _, hMarks.1, .plain⟩, fun hOpens => ⟨hFrame, _, _, hMarks.2 hOpens, .plain⟩⟩

theorem Marks.covered_frame (hMarks : Marks (readyOf tree ctx).name id opensFrame) (site : Site) :
    Covered ctx (openFrame id site opensFrame) ∧ Covered ctx (closeFrame id opensFrame) := by
  unfold openFrame closeFrame
  cases opensFrame with
  | false => exact ⟨.of_free (by simp), .of_free (by simp)⟩
  | true =>
    have hFrame := hMarks.covers.2 rfl
    constructor
    · exact .of_free (by simpa [targets, reads, operands] using hFrame)
    · exact .of_free (by simpa [targets, reads, operands] using hFrame)

include hTree hDecl

theorem SerialCode.covered (hMarked : plan.Marked (readyOf tree ctx).name)
    (hCode : SerialCode tree ctx plan before body) : Covered ctx body := by
  cases hCode with
  | mk hItems =>
    have hMark := (Marks.covers hMarked).1
    have hFrame := Marks.covered_frame hMarked plan.site
    have hSave : Covered ctx [.saveStack (stackMark plan.site.node)] :=
      .single (by simpa [targets, reads, operands] using hMark)
    have hBody := hItems.covered hTree hDecl hMark
    exact (hFrame.1.append (hSave.append hBody)).append hFrame.2

theorem ChoiceCode.covered (hMarked : plan.Marked (readyOf tree ctx).name)
    (hCode : ChoiceCode tree ctx plan before body) : Covered ctx body := by
  induction hCode with
  | nothing => exact .of_free (by simp)
  | otherwise hLast => exact hLast.covered hTree hDecl hMarked
  | @guarded _ _ rest _ _ _ _ _ _ hGuard hYes _ ih =>
    have hUnit := Code.covered hTree hDecl hGuard
    refine hUnit.1.append ?_
    cases rest with
    | nothing => exact .branchOnly hUnit.2 (hYes.covered hTree hDecl hMarked.1)
    | otherwise | select =>
      exact .branch hUnit.2 (hYes.covered hTree hDecl hMarked.1) (ih hMarked.2)
  | numbered hSelector hArms _ ih =>
    have hUnit := Code.covered hTree hDecl hSelector
    refine hUnit.1.append (.switch hUnit.2 ?_ (ih hMarked.2))
    intro arm hArm
    rcases Walk.exists_of_forall₂ hArms hArm with ⟨item, -, hItem⟩
    exact hItem.covered hTree hDecl

theorem LoopCode.covered (hMarked : plan.Marked tree (readyOf tree ctx).name id)
    (hCode : LoopCode tree ctx id plan before body) : Covered ctx body := by
  cases hCode with
  | @mk counter before mid bounds limit body vals start step
      hCounter hBounds hStart hStep hLimit hBody =>
      have hUnits := InTurn.covered hTree hDecl hBounds
      have hHeader : ∀ stem ∈ ["from", "by", "to", "count"], Covers ctx.declarations
            ((plan.header id).temp stem) :=
        fun stem hStem => ⟨isWord_stem (mem_append_right _ hStem), _, _,
            hMarked.bounds stem hStem, .plain⟩
      have hMark := (Marks.covers hMarked.marks).1
      have hFrame := Marks.covered_frame hMarked.marks plan.body.site
      have hCounterTemp : ∀ entry ∈ counter.toList, Covers ctx.declarations entry.1 := by
        rintro ⟨temp, slot⟩ hEntry
        rw [Option.mem_toList] at hEntry
        rw [hEntry] at hCounter
        rcases loopCounter_eq_some hCounter with ⟨name, rfl⟩
        exact ⟨isWord_counter name, _, _, hMarked.counter _ slot hCounter, .pointer⟩
      -- A bound is a value, or stands for an absent one.
      have hBound : ∀ {stem val}, stem ∈ ["from", "by", "to", "count"] →
          IsBound vals val → ∀ temp ∈ (Stmt.compute ((plan.header id).temp stem) val).free,
              Covers ctx.declarations temp := by
        intro stem val hStem hVal temp hTemp
        simp only [Stmt.free, mentions, targets, reads, operands, Expr.tempsOf,
          append_nil, singleton_append, mem_cons] at hTemp
        rcases hTemp with rfl | hTemp
        · exact hHeader stem hStem
        · rcases hVal with hVal | rfl
          · exact hUnits.2 val hVal temp hTemp
          · cases hTemp
      have hStarts : Covered ctx [.compute ((plan.header id).temp "from") start,
            .compute ((plan.header id).temp "by") step] := by
        apply Covered.of_free
        rw [forall_mem_cons, forall_mem_singleton]
        exact ⟨hBound (by simp) hStart, hBound (by simp) hStep⟩
      have hLimits : Covered ctx limit := by
        rcases hLimit with rfl | ⟨val, hVal, rfl⟩
        · exact .of_free (by simp)
        · exact .single (hBound (by simp) (.inl hVal))
      have hFetch : Covered ctx (counter.toList.map fun entry =>
            .fetch entry.1 "A68_INT" entry.2) := by
        apply Covered.of_free
        intro stmt hStmt
        rcases mem_map.mp hStmt with ⟨entry, hEntry, rfl⟩
        simpa [targets, reads, operands] using hCounterTemp entry hEntry
      have hSet : Covered ctx (counter.toList.map fun entry => .setCounter entry.1
              ((plan.header id).temp "count")) := by
        apply Covered.of_free
        intro stmt hStmt
        rcases mem_map.mp hStmt with ⟨entry, hEntry, rfl⟩
        simpa [targets, reads, operands] using
          ⟨hCounterTemp entry hEntry, hHeader "count" (by simp)⟩
      have hReset : Covered ctx (.resetStack (stackMark id) ::
          if plan.needsInitialisation then [.initialiseFrame plan.body.site] else []) := by
        apply Covered.of_free
        rw [forall_mem_cons]
        constructor
        · simpa [targets, reads, operands] using hMark
        · split <;> simp [targets, reads, operands]
      have hSave : Covered ctx [.saveStack (stackMark id)] :=
        .single (by simpa [targets, reads, operands] using hMark)
      have hInner := (hSet.append (hBody.covered hTree hDecl hMarked.body)).append hReset
      exact (((((hUnits.1.append hStarts).append hLimits).append hFrame.1).append hFetch).append
        (hSave.append (.loop hHeader hInner))).append hFrame.2

theorem ValuesCode.covered (hCode : ValuesCode tree ctx ids before body) : Covered ctx body := by
  induction hCode with
  | nil => exact .of_free (by simp)
  | cons hFirst _ ih => exact (hFirst.covered hTree hDecl).append ih

theorem RoutineCode.covered (hMarks : Marks (readyOf tree ctx).name id true)
    (hCode : RoutineCode tree ctx id call before body) : Covered ctx body := by
  cases hCode with
  | @mk after body pushes vals hArgs hPushes =>
    have hUnits := InTurn.covered hTree hDecl hArgs
    have hStack := (Marks.covers hMarks).1
    have hFrame := (Marks.covers hMarks).2 rfl
    have hSave : Covered ctx [.saveStack (stackMark id)] :=
      .single (by simpa [targets, reads, operands] using hStack)
    have hPushed : Covered ctx pushes := by
      apply Covered.of_free
      intro push hPush
      rcases hPushes push hPush with ⟨mode, form, val, hVal, rfl⟩
      simpa [targets, reads, operands] using hUnits.2 val hVal
    have hLast : Covered ctx [.saveFrame (frameMark id),
          .openProcedure call.routine call.level, .bindArguments call.routine (stackMark id),
          .resetStack (stackMark id), .executeUnit call.body call.result,
          .closeFrame (frameMark id)] := by
      apply Covered.of_free
      simpa [targets, reads, operands] using ⟨hFrame, hStack, hFrame⟩
    exact (hUnits.1.append (hSave.append hPushed)).append hLast

theorem InjectionCode.covered {injection : Injection}
    (hCode : InjectionCode tree ctx injection before body) : Covered ctx body := by
  cases hCode with
  | mk hOp =>
    have hUnit := Code.covered hTree hDecl hOp
    refine hUnit.1.append (.of_free ?_)
    rw [forall_mem_cons, forall_mem_cons]
    refine ⟨by simp [targets, reads, operands], ?_, ?_⟩
    · simpa [targets, reads, operands] using hUnit.2
    · split <;> simp [targets, reads, operands]

end Emission

------ Classes of Storage

namespace Inline

/- The classes of storage in which names are declared. -/
def storageClasses : List String :=
  ["A68_INT", "A68_REAL", "A68_BOOL", "A68_CHAR", "A68_BITS",
    "A68_REF", "A68_ROW", "BYTE_T", "ADDR_T", "INT_T"]

theorem mem_storageClasses_of_storageClass? {kind : ModeKind}
    (hOther : other ∈ storageClasses) : kind.storageClass?.getD other ∈ storageClasses := by
  cases kind <;> first | exact hOther | simp [storageClasses, ModeKind.storageClass?]

theorem mem_storageClasses_of_objectClass (hStorage : tree.modes.objectClass mode = .ok storage) :
    storage ∈ storageClasses := by
  rcases Walk.bind_eq_ok.mp hStorage with ⟨kind, -, hFound⟩
  have hOther : kind.storageClass?.getD "BYTE_T" ∈ storageClasses :=
    mem_storageClasses_of_storageClass? (by decide)
  cases kind <;> cases hFound <;> try exact hOther
  · decide
  · split
    · decide
    · decide

theorem Pointer.IsOf.mem_storageClasses {ptr : Pointer} (hPtr : ptr.IsOf tree) :
    ptr.storage ∈ storageClasses := by
  rcases hPtr.isFor.1.storage with ⟨_, hStorage⟩
  exact mem_storageClasses_of_objectClass hStorage

theorem HasResult.mem_storageClasses
    (hRes : HasResult tree checked id res) : res.storage ∈ storageClasses := by
  have hPlain : plainResult tree id = .ok res → res.storage ∈ storageClasses := by
    intro hFound
    rcases plainResult_eq_ok hFound with ⟨_, storage, -, hStorage, rfl⟩
    rcases Walk.bind_eq_ok.mp hStorage with ⟨kind, -, hKind⟩
    cases hKind
    exact mem_storageClasses_of_storageClass? (by decide)
  have hPair : (pairResult id).storage ∈ storageClasses := by simp [storageClasses, pairResult]
  cases hRes with
  | operation _ hOperation hSome =>
    rcases result_of_operationOf hOperation hSome with
      rfl | hFound
    · exact hPair
    · exact hPlain hFound
  | procedure _ hFound => exact hPlain hFound
  | widening | pair => exact hPair
  | bytes _ _ _ _ => simp [storageClasses, bytesResult]

theorem Names.mem_storageClasses (hName : Names tree checked temp storage declarator) :
    storage ∈ storageClasses := by
  cases hName with
  | pointer hPtr | result hPtr => exact hPtr.mem_storageClasses
  | mark hMark => rcases hMark.cases_stem with ⟨-, rfl, -⟩ | ⟨-, rfl, -⟩ | ⟨-, rfl, -⟩ <;> decide

theorem Names.not_mem_blank (hName : Names tree checked temp storage declarator) :
    ' ' ∉ storage.toList ∧ ' ' ∉ declarator.toList := by
  refine ⟨?_, hName.spells.not_mem_blank hName.isWord⟩
  have hPlain : ∀ storage ∈ storageClasses, ' ' ∉ storage.toList := by decide
  exact hPlain storage hName.mem_storageClasses

end Inline

------ Lines of Declarations

/-
  The free temporaries of a function are among the identifiers
  in its declarations, and there is no identifier twice.
-/
structure Function.DeclaresOnce (function : Function) : Prop where
  declared : ∀ temp ∈ Stmt.freeOf function.body, temp.text ∈
      function.declarations.flatMap Declarations.identifiersIn
  once : (function.declarations.flatMap Declarations.identifiersIn).Nodup

namespace Inline

open Emission Declarations

/- The temporaries of clauses and calls, by their declarators. -/
def marksOf (tree : SyntaxTree) (storage declarator : String) : Prop :=
  ∃ temp, IsMark tree temp storage declarator

variable (hDeclaring : Declaring tree naming errors ctx) (hMark : naming.mark = marksOf tree)

include hDeclaring hMark

theorem Declaring.exists_names (hHas : ctx.declarations.Has storage declarator) :
    ∃ temp, Names tree naming.checked temp storage declarator := by
  cases hDeclaring.named storage declarator hHas with
  | pointer hPtr => exact ⟨_, .pointer hPtr⟩
  | result hRes => exact ⟨_, .result hRes⟩
  | mark hFound =>
    rw [hMark] at hFound
    rcases hFound with ⟨temp, hTemp⟩
    exact ⟨temp, .mark hTemp⟩

/- Distinct declarators have distinct identifiers. -/
theorem Declaring.nodup_identifiers :
    (ctx.declarations.entries.map fun entry => identifierOf entry.2.toList).Nodup := by
  apply List.Nodup.map_on ?_ hDeclaring.ordered.nodup_entries
  rintro ⟨storage, declarator⟩ hFirst ⟨other, another⟩ hSecond hSame
  rcases hDeclaring.exists_names hMark (mem_entries.mp hFirst) with ⟨temp, hName⟩
  rcases hDeclaring.exists_names hMark (mem_entries.mp hSecond) with ⟨found, hFound⟩
  have hText : temp.text = found.text := by
    rw [← hName.identifierOf_eq, ← hFound.identifierOf_eq]
    exact hSame
  rw [← Temp.text_injective hText] at hFound
  rw [Prod.mk.injEq]
  exact hName.unique hFound

/- A function with covered code and the lines of its context. -/
theorem Declaring.declaresOnce {func : Function}
    (hLines : func.declarations = ctx.declarations.lines)
    (hCovered : Covered ctx func.body) : func.DeclaresOnce := by
  have hIdents : func.declarations.flatMap identifiersIn =
      ctx.declarations.entries.map fun entry => identifierOf entry.2.toList := by
    rw [hLines]
    apply identifiersIn_lines hDeclaring.ordered
    intro storage declarator hHas
    rcases hDeclaring.exists_names hMark hHas with ⟨_, hName⟩
    exact hName.not_mem_blank
  constructor
  · intro temp hTemp
    rw [hIdents, mem_map]
    rcases hCovered temp hTemp with ⟨hWord, storage, declarator, hHas, hSpells⟩
    exact ⟨_, mem_entries.mpr hHas, hSpells.identifierOf_eq hWord⟩
  · rw [hIdents]
    exact hDeclaring.nodup_identifiers hMark

end Inline

------ Marks of Clauses

open Inline Emission

variable {start : NodeId}

theorem Emission.marks_of_attr (hAttr : tree.attr id = .ok attr)
    (hClause : attr ∈ [.serialClause, .collateralClause, .call, .loopClause]) (opensFrame : Bool) :
    Marks (marksOf tree) id opensFrame :=
  ⟨⟨_, .address hAttr hClause (by simp)⟩, fun _ => ⟨_, .address hAttr hClause (by simp)⟩⟩

theorem SerialPlan.IsOf.marked {plan : SerialPlan} (hPlan : plan.IsOf tree calls start) :
    plan.Marked (marksOf tree) :=
  marks_of_attr hPlan.attr (by decide) _

theorem Branches.AreOf.marked {branches : Branches}
    (hBranches : branches.AreOf tree calls start id) : branches.Marked (marksOf tree) := by
  have hParts := hBranches.parts
  cases branches with
  | guarded yes => exact SerialPlan.IsOf.marked hParts.1
  | numbered alternatives => trivial

theorem ChoicePlan.IsOf.marked {plan : ChoicePlan} (hPlan : plan.IsOf tree calls start id) :
    plan.Marked (marksOf tree) := by
  induction hPlan with
  | only hBranches _ => exact ⟨hBranches.marked, trivial⟩
  | last hBranches hLast => exact ⟨hBranches.marked, hLast.1.marked⟩
  | more hBranches _ _ ih => exact ⟨hBranches.marked, ih⟩

theorem LoopPlan.IsOf.marked {plan : LoopPlan} (hPlan : plan.IsOf tree calls start)
    (hAttr : tree.attr id = .ok .loopClause) : plan.Marked tree (marksOf tree) id where
  bounds := fun _ hStem => ⟨_, .bound hAttr hStem⟩
  marks := marks_of_attr hAttr (by decide) _
  counter := by
    intro temp slot hCounter
    rcases loopCounter_eq_some hCounter with ⟨name, rfl⟩
    exact ⟨_, .counter name hAttr⟩
  body := SerialPlan.IsOf.marked hPlan

------ Functions

namespace Emission

open Inline

theorem Issued.declaresOnce (hIssued : Issued writer func)
    (hCodes : ∀ checked, writer.Codes tree ⟨checked, marksOf tree⟩ False code)
    (hCovered : ∀ ctx before body, AreDeclared tree ctx → code ctx before body → Covered ctx body) :
    func.DeclaresOnce := by
  rcases Context.Issued.coded hCodes hIssued with
    ⟨ctx, naming, errors, hMark, hDeclaring, hLines, hCode⟩
  exact hDeclaring.declaresOnce hMark hLines (hCovered ctx _ _ hDeclaring.booked hCode)

/- The same for clauses whose marks are those of the tree. -/
theorem Issued.clause_declaresOnce (hTree : tree.IsRegular) (plan : ClausePlan)
    (hIssued : Issued (plan.writer tree) func) (hUnits : plan.Has tree (Inlined tree))
    (hMarks : plan.Marked tree (marksOf tree)) : func.DeclaresOnce := by
  refine hIssued.declaresOnce (fun _ => plan.writer_codes hTree False.elim hUnits hMarks) ?_
  rintro ctx before body hDecl ⟨hMarked, hCode⟩
  cases plan with
  | serial | choice | loop => exact hCode.covered hTree hDecl hMarked

/- Whatever is drawn up for a node declares its names once. -/
theorem Drawn.declaresOnce (hTree : tree.IsRegular) (hDrawn : Drawn tree calls id writer)
    (hIssued : Issued writer func) : func.DeclaresOnce := by
  cases hDrawn with
  | @serial plan hPlan _ hUnits | @closed plan _ hPlan _ hUnits =>
    exact Issued.clause_declaresOnce hTree (.serial plan) hIssued hUnits hPlan.marked
  | display _ _ _ _ hUnits =>
    exact hIssued.declaresOnce (fun _ => values_codes hTree False.elim hUnits)
      fun _ _ _ hDecl hCode => hCode.covered hTree hDecl
  | @collateral _ plan hAttr _ _ _ hNode _ hUnits =>
    subst hNode
    exact Issued.clause_declaresOnce hTree (.serial plan)
      hIssued hUnits (marks_of_attr hAttr (by decide) _)
  | @choice _ plan _ hPlan hUnits =>
    exact Issued.clause_declaresOnce hTree (.choice plan) hIssued hUnits hPlan.marked
  | @loop plan hAttr hPlan hUnits =>
    exact Issued.clause_declaresOnce hTree (.loop id plan) hIssued hUnits (hPlan.marked hAttr)
  | routineCall hAttr _ _ _ _ hArgs =>
    exact hIssued.declaresOnce (fun _ => routineCall_codes hTree False.elim hArgs
        (marks_of_attr hAttr (by decide) _))
      fun _ _ _ hDecl hCode => hCode.2.covered hTree hDecl hCode.1
  | injection _ _ _ _ _ _ _ hUnit hOp =>
    exact hIssued.declaresOnce (fun _ => injection_codes hTree False.elim hUnit hOp)
      fun _ _ _ hDecl hCode => hCode.covered hTree hDecl
  | constant _ hPush =>
    refine hIssued.declaresOnce
      (fun _ => (ofStatements_codes : Writer.Codes tree _ False _ _)) ?_
    rintro ctx before body - rfl
    rcases pushOf_eq hPush with ⟨form, rfl⟩
    exact .of_free (by simp [targets, reads, operands, Expr.temps])
  | value hUnit =>
    refine hIssued.declaresOnce (fun _ => value_codes hTree False.elim hUnit) ?_
    rintro ctx before body hDecl ⟨_, hCode⟩
    exact hCode.covered hTree hDecl

end Emission

namespace SyntaxTree

/-
  Whatever the options, the temporaries in the statements of an emitted function are in the lines
  that declare them, and no identifier is declared twice.
-/
theorem Conforms.temporaries_declared_once
    (hTree : tree.Conforms)
    (options : Options) :
    ∃ run, tree.CompilesTo options run ∧
      ∀ function, .function function ∈ run.context.output → function.DeclaresOnce := by
  rcases hTree.exists_compilesTo options with ⟨run, hRun⟩
  refine ⟨run, hRun, ?_⟩
  intro function hFunction
  rcases (hRun.compiles hTree.forest).2.functions function
    hFunction with ⟨id, -, writer, hDrawn, hIssued⟩
  exact hDrawn.declaresOnce hTree.toIsRegular hIssued

theorem temporaries_declared_once_nestedLoop :
    nestedLoop.Conforms ∧
      ∃ run, nestedLoop.CompilesTo { level := 3 } run ∧
        ∀ function, .function function ∈ run.context.output → function.DeclaresOnce := by
  have hTree : nestedLoop.Conforms := conforms_of_isOrderly (by decide +kernel)
  exact ⟨hTree, hTree.temporaries_declared_once _⟩

end SyntaxTree

end Algol68
