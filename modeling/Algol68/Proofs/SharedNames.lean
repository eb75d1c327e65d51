import Algol68.Proofs.Naming

/-
  Nodes that share a name.

  Constants share the function of their value. Besides them,
  only an identifier whose number spells the value of another
  one shares its name, and then two functions have that name.

  Main declarations:
    * `SyntaxTree.CompilesTo.names_tell_nodes`
-/

------ Modes of Units

namespace Algol68

variable {tree : SyntaxTree} {id : NodeId}

namespace Inline

open Classifier

theorem eq_of_firstChildren (hKids : tree.firstChildren parent 2 = .ok [only])
    (hSub : tree.sub? parent = .ok (some id)) : only = id := by
  rw [SyntaxTree.firstChildren, hSub, Walk.ok_bind] at hKids
  rcases Walk.bind_eq_ok.mp hKids with ⟨node, -, hKids⟩
  rcases Walk.bind_eq_ok.mp hKids with ⟨rest, -, hKids⟩
  cases hKids
  rfl

/- Units are inlined because the classifier accepts them. -/
theorem accepted_of_inlined (hInlined : Inlined tree id) (hNode : tree.node id = .ok node)
    (hAttr : node.attr ≠ .conditionalClause) : ∃ tier, unit tree (.basic tier) id = .ok true := by
  cases hInlined with
  | @unit tier hBasic =>
    unfold SyntaxTree.isBasic at hBasic
    split at hBasic
    · exact ⟨tier, hBasic⟩
    · cases hBasic
  | @serial serial tier hBasic hSub =>
    unfold SyntaxTree.isBasicSerial at hBasic
    split at hBasic
    · cases single_of_singleUnit hBasic with
      | intro _ _ hKids _ _ hOnly =>
        rw [eq_of_firstChildren hKids hSub] at hOnly
        exact ⟨tier, hOnly⟩
    · cases hBasic
  | conditional _ hCond =>
    rw [SyntaxTree.attr_eq hNode, Except.ok.injEq] at hCond
    exact absurd hCond hAttr

/-
  An accepted identifier or denotation has a basic mode, and
  a denotation whose mode has literals is a constant.
-/
theorem mode_of_accepted (hUnit : unit tree (.basic tier) id = .ok true)
    (hNode : tree.node id = .ok node) (hAttr : node.attr = .denoter ∨ node.attr = .identifier) :
    ∃ mode, node.mode = some mode ∧ tree.modes.isBasic mode = .ok true ∧ (node.attr = .denoter →
          tree.modes.isFoldable mode = .ok true → tree.isConstant id = .ok true) := by
  have hVoiding : node.attr ≠ .voiding := by rcases hAttr with hAttr | hAttr <;> simp [hAttr]
  unfold unit at hUnit
  unfold SyntaxTree.isConstant unit
  cases hBound : tree.bound with
  | zero =>
    rw [hBound] at hUnit
    cases hUnit
  | succ fuel =>
    cases judgement_of_judge hUnit with
    | unit hFound hMode hAccepts _ =>
      rw [hNode, Except.ok.injEq] at hFound
      subst hFound
      refine ⟨_, hMode, hAccepts, ?_⟩
      intro hDenoter hFoldable
      simp [unitWithin, judge, hNode, hMode, hDenoter, shape, Query.constant, Requirement.accepts,
        hFoldable]
    | voidedAssignation hFound hVoid | voidedUnit hFound hVoid =>
      rw [hNode, Except.ok.injEq] at hFound
      exact absurd (hFound ▸ hVoid) hVoiding

end Inline

namespace Generator

open Inline Emission

/- The code of an identifier is that of a basic unit. -/
theorem inlined_of_drawn (hDrawn : Drawn tree calls id writer) (hNode : tree.node id = .ok node)
    (hAttr : node.attr = .denoter ∨ node.attr = .identifier)
    (hOther : ∀ node mode, ¬ IsConstantUnit tree id node mode) : Inlined tree id := by
  have hNot : ∀ {attr : Attribute}, tree.attr id = .ok attr →
      attr = .denoter ∨ attr = .identifier := by
    intro attr hFound
    rw [SyntaxTree.attr_eq hNode, Except.ok.injEq] at hFound
    exact hFound ▸ hAttr
  cases hDrawn with
  | serial hPlan hSite _ =>
    have hSerial := hPlan.attr
    rw [hSite] at hSerial
    simpa using hNot hSerial
  | closed hClosed | display hClosed | collateral hClosed | loop hClosed | routineCall hClosed
  | injection hClosed => simpa using hNot hClosed
  | choice kind hClause => cases kind <;> simpa [ChoiceKind.clause] using hNot hClause
  | constant hUnit _ => exact absurd hUnit (hOther _ _)
  | value hUnit => exact hUnit

------ Names of Both Kinds

/-
  The value of a constant identifier is spelled as the number
  of another identifier of its mode, which is no constant.
-/
def Spells (tree : SyntaxTree) (constant id : NodeId) : Prop :=
  ∃ unit node mode value, IsConstantUnit tree constant unit mode ∧
      unit.attr = .identifier ∧ FoldsTo tree constant value ∧
        value.key = id.text ∧ tree.node id = .ok node ∧
          node.attr = .identifier ∧ node.mode = some mode ∧
            ∀ unit mode, ¬ IsConstantUnit tree id unit mode

/-
  Constants of one mode whose values have the same bits, or
  are not both of the category of the mode.
-/
def SharesValue (tree : SyntaxTree) (id other : NodeId) : Prop :=
  ∃ unit otherUnit mode value otherValue, IsConstantUnit tree id unit mode ∧
      IsConstantUnit tree other otherUnit mode ∧
        unit.attr = otherUnit.attr ∧ FoldsTo tree id value ∧ FoldsTo tree other otherValue ∧
            (value.SameBits otherValue ∨ value.prim ≠ otherValue.prim)

/- A key has a separator only if the value is complex. -/
theorem not_mem_key {val : Value} (hVal : ∀ re im, val ≠ .complex re im) :
    '_' ∉ val.key.toList := by
  intro hMem
  cases val with
  | int n =>
    have hDigits : ∀ m : Nat, '_' ∉ (toString m).toList := by
      intro m hDigit
      exact absurd (Text.isDigit_of_mem_toString hDigit) (by decide)
    simp only [Value.key] at hMem
    split at hMem
    · simp only [String.toList_append, List.mem_append] at hMem
      rcases hMem with hLetter | hDigit
      · simp at hLetter
      · exact hDigits _ hDigit
    · rename_i hPos
      rw [Value.toString_natAbs hPos] at hMem
      exact hDigits _ hMem
  | real x => exact Value.not_mem_realHex x hMem
  | bool b => cases b <;> simp [Value.key] at hMem
  | char c => exact absurd (Text.isAlphanum_of_mem_paddedHex hMem) (by decide)
  | bits word =>
    exact absurd (Text.isAlphanum_of_mem_toDigits (by
      simpa [Value.key, Text.hex] using hMem)) (by decide)
  | complex re im => exact hVal re im rfl

theorem spells_of_names (hModes : tree.modes.IsExtension) (hNode : tree.node id = .ok node)
    (hInlined : node.attr = .denoter ∨ node.attr = .identifier → Inlined tree id)
    (hOwn : HasOwnName tree id name) (hConst : HasConstantName tree other name) :
    Spells tree other id := by
  rcases attr_eq_of_names (SyntaxTree.attr_eq hNode) hOwn hConst with ⟨hSame, hAttr⟩
  rcases hConst with ⟨unit, mode, val, hUnit, hFolds, hName⟩
  rcases hOwn with ⟨attr, hFound, hOwnName, hOther⟩
  cases (SyntaxTree.attr_eq hNode).symm.trans hFound
  rw [SyntaxTree.attr_eq hUnit.node, Except.ok.injEq] at hSame
  rcases functionName_eq hOwnName with ⟨_, words, hMode, hWords, rfl⟩
  rcases constantName_eq hName with ⟨unitWords, hUnitWords, hText⟩
  rw [hSame] at hText
  have hTail := words_append_key_eq_of_spelling hText
  have hCond : node.attr ≠ .conditionalClause := by
    rcases hAttr with hAttr | hAttr <;> simp [hAttr]
  rcases accepted_of_inlined (hInlined hAttr) hNode hCond with ⟨tier, hAccepted⟩
  rcases mode_of_accepted hAccepted hNode hAttr with ⟨nodeMode, hNodeMode, hBasic, hDenoter⟩
  cases (SyntaxTree.mode?_eq hNode).symm.trans hMode
  rw [hNodeMode] at hWords
  -- A complex value would need a mode that goes on after it.
  have hPlain : ∀ re im, val ≠ .complex re im := by
    rintro re im rfl
    have hLast : words.toList ++ '_' :: id.text.toList =
        (unitWords.toList ++ '_' :: (Text.realHex re).toList) ++
          '_' :: (Text.realHex im).toList := by
      simpa [Value.key] using hTail
    exact hModes.not_codeName_append hUnit.foldable hBasic
      hUnitWords hWords (Text.split_at_last (not_mem_text id) (Value.not_mem_realHex im) hLast).1
  rcases Text.split_at_last (not_mem_text id) (not_mem_key hPlain) hTail with ⟨hSameWords, hKey⟩
  rw [String.toList_inj] at hSameWords hKey
  subst hSameWords
  have hSameMode := hModes.codeName_inj hUnit.foldable hBasic hUnitWords hWords
  subst hSameMode
  rcases hAttr with hAttr | hAttr
  · exact absurd ⟨hNode, .inl hAttr, hNodeMode, hUnit.foldable,
      hDenoter hAttr hUnit.foldable⟩ (hOther node mode)
  · exact ⟨unit, node, mode, val, hUnit, hSame.trans hAttr,
      hFolds, hKey.symm, hNode, hAttr, hNodeMode, hOther⟩

theorem sharesValue_of_names (hModes : tree.modes.IsExtension)
    (hFirst : HasConstantName tree id name) (hSecond : HasConstantName tree other name) :
    SharesValue tree id other := by
  rcases hFirst with ⟨unit, mode, val, hUnit, hFolds, hName⟩
  rcases hSecond with ⟨otherUnit, otherMode, otherValue, hOther, hOtherFolds, hOtherName⟩
  rcases constantName_eq hName with ⟨words, hWords, rfl⟩
  rcases constantName_eq hOtherName with ⟨otherWords, hOtherWords, hText⟩
  have hAttr := attr_eq_of_firstWord hOther.attr (firstWord_eq_of_spelling hText)
  rw [hAttr] at hText
  have hFoldable := hModes.codeName_of_foldable hUnit.foldable hWords
  have hOtherFoldable := hModes.codeName_of_foldable hOther.foldable hOtherWords
  rcases Text.split_at_first (ModeTable.IsExtension.not_mem_foldableWords hFoldable)
    (ModeTable.IsExtension.not_mem_foldableWords hOtherFoldable)
    (words_append_key_eq_of_spelling hText) with
    ⟨hSameWords, hKey⟩
  rw [String.toList_inj] at hSameWords hKey
  subst hSameWords
  have hMode := ModeTable.IsExtension.foldableWords_inj hFoldable hOtherFoldable
  subst hMode
  refine ⟨unit, otherUnit, mode, val, otherValue, hUnit, hOther, hAttr, hFolds, hOtherFolds, ?_⟩
  by_cases hPrim : val.prim = otherValue.prim
  · exact .inl (Value.sameBits_of_key_eq hPrim hKey)
  · exact .inr hPrim

end Generator

------ Names and Definitions

namespace SyntaxTree

open Generator

/- A name of both kinds, in a compilation. -/
theorem CompilesTo.spells (hForest : tree.IsForest) (hModes : tree.modes.IsExtension)
    (hRun : tree.CompilesTo options run)
    (hRec : (id, name) ∈ run.context.compiled) (hOwn : HasOwnName tree id name)
    (hConst : HasConstantName tree other name) : Spells tree other id := by
  rcases hOwn with ⟨attr, hAttr, hName, hOther⟩
  rcases Classifier.attr_eq_ok.mp hAttr with ⟨node, hNode, rfl⟩
  refine spells_of_names hModes hNode ?_ ⟨_, hAttr, hName, hOther⟩ hConst
  intro hUnit
  rcases (hRun.compiles hForest).2.nodes id name hRec with ⟨_, _, hConstantUnit⟩ | hFound
  · exact absurd hConstantUnit (hOther _ _)
  · rcases hFound with ⟨_, -, -, writer, hDrawn, -⟩
    exact inlined_of_drawn hDrawn hNode hUnit hOther

/-
  In a tree over the standard modes, every name that is recorded is the name of one function, and
  nodes that share it are constants with one value, unless a constant identifier is spelled as the
  number of another identifier.
-/
theorem CompilesTo.names_tell_nodes
    (hForest : tree.IsForest)
    (hModes : tree.modes.IsExtension)
    (hRun : tree.CompilesTo options run)
    {id : NodeId}
    {name : String}
    (hRecorded : (id, name) ∈ run.context.compiled) :
    (∀ other, (other, name) ∈ run.context.compiled →
      other = id ∨ SharesValue tree id other ∨ Spells tree id other ∨ Spells tree other id) ∧
    (1 ≤ (Fragment.functionNames run.context.output).count name) ∧
    ((∀ first second, (first, name) ∈ run.context.compiled →
      (second, name) ∈ run.context.compiled → ¬ Spells tree first second) →
      (Fragment.functionNames run.context.output).count name = 1) := by
  have hAll := (hRun.compiles hForest).1.isRecorded
  have hMember : name ∈ Fragment.functionNames run.context.output :=
    hAll.ledger.mem_names_iff.mpr ⟨id, hRecorded⟩
  have hSome := List.count_pos_iff.mpr hMember
  refine ⟨?_, hSome, ?_⟩
  · intro other hOther
    rcases hAll.ledger.named hRecorded with hOwn | hConstant
    · rcases hAll.ledger.named hOther with hOtherOwn | hConstant
      · exact .inl (own_inj hOtherOwn hOwn)
      · exact .inr (.inr (.inr (hRun.spells hForest hModes hRecorded hOwn hConstant)))
    · rcases hAll.ledger.named hOther with hOtherOwn | hShared
      · exact .inr (.inr (.inl (hRun.spells hForest hModes hOther hOtherOwn hConstant)))
      · exact .inr (.inl (sharesValue_of_names hModes hConstant hShared))
  · intro hApart
    have hOne := hAll.ledger.count_le_one hAll.nodes
      fun first second hFirst hSecond hOwn hConstant =>
        hApart second first hSecond hFirst (hRun.spells hForest hModes hFirst hOwn hConstant)
    omega

/- What is recorded and defined when a tree is compiled. -/
def compiledNames (tree : SyntaxTree) (options : Options) (root : NodeId) :
    Walk (List (NodeId × String) × List String) := do
  let result ← (tree.compilationPass options root).run (tree.startRun (.ofOptions options))
  pure (result.2.context.compiled, Fragment.functionNames result.2.context.output)

theorem compilesTo_of_compiledNames {root : NodeId} (hRoot : tree.root = some root)
    (hNames : tree.compiledNames options root = .ok (entries, names)) :
    ∃ run, tree.CompilesTo options run ∧ run.context.compiled = entries ∧
        Fragment.functionNames run.context.output = names := by
  rcases Walk.bind_eq_ok.mp hNames with ⟨⟨⟨⟩, run⟩, hRun, hRes⟩
  cases hRes
  exact ⟨run, ⟨root, hRoot, hRun⟩, rfl, rfl⟩

/- Two equal denotations. -/
def twinDenotations : SyntaxTree where
  nodes := Figure.nodes [.unit .collateralClause ⟨0⟩ [.number "7", .number "7"]]
  root := some ⟨0⟩

theorem names_tell_nodes_twinDenotations :
    twinDenotations.IsForest ∧
      twinDenotations.modes.IsExtension ∧
        ∃ run, twinDenotations.CompilesTo { level := 1 } run ∧
          (⟨1⟩, "_denotation_int_7") ∈ run.context.compiled ∧
            (Fragment.functionNames run.context.output).count "_denotation_int_7" = 1 := by
  have hForest : twinDenotations.IsForest := (conforms_of_isOrderly (by decide +kernel)).forest
  have hNames : twinDenotations.compiledNames { level := 1 } ⟨0⟩ =
      .ok ([(⟨1⟩, "_denotation_int_7"), (⟨2⟩, "_denotation_int_7")], ["_denotation_int_7"]) := by
    decide +kernel
  rcases compilesTo_of_compiledNames rfl hNames with
    ⟨run, hRun, hCompiled, -⟩
  have hRecorded : (⟨1⟩, "_denotation_int_7") ∈ run.context.compiled := by
    rw [hCompiled]
    decide
  refine ⟨hForest, .standard, run, hRun, hRecorded, ?_⟩
  apply (hRun.names_tell_nodes hForest .standard hRecorded).2.2
  rintro first second hFirst - ⟨unit, _, _, _, hUnit, hAttr, -⟩
  rw [hCompiled] at hFirst
  simp only [List.mem_cons, Prod.mk.injEq, and_true, List.not_mem_nil, or_false] at hFirst
  rcases hFirst with rfl | rfl
  · have hNode := hUnit.node
    cases hNode
    cases hAttr
  · have hNode := hUnit.node
    cases hNode
    cases hAttr

/- An identifier whose number is the value of the next one. -/
def spelledNumber : SyntaxTree where
  nodes := Figure.nodes [.unit .collateralClause ⟨0⟩ [.ident ⟨1⟩ ⟨0⟩, .ident ⟨1⟩ ⟨1⟩],
      .mk .identityDeclaration "" (some ⟨1⟩) none [.number "1"]]
  tags := ⟨#[{ name := "k", mode := ⟨1⟩, kind := .parameter },
      { name := "n", mode := ⟨1⟩, kind := .identifier, value := some ⟨4⟩ }]⟩
  root := some ⟨0⟩

/- An integer that is declared to be a character. -/
def misfitConstant : SyntaxTree where
  nodes := Figure.nodes [.unit .collateralClause ⟨0⟩ [.ident ⟨1⟩ ⟨0⟩, .ident ⟨1⟩ ⟨1⟩],
      .mk .identityDeclaration "" (some ⟨0⟩) none [.denoter ⟨4⟩ "\"1\""],
      .mk .identityDeclaration "" (some ⟨1⟩) none [.number "31"]]
  tags := ⟨#[
      { name := "c", mode := ⟨1⟩, kind := .identifier, value := some ⟨4⟩ },
      { name := "n", mode := ⟨1⟩, kind := .identifier, value := some ⟨6⟩ }]⟩
  root := some ⟨0⟩

/- One name stands for two functions, and one function for two values. -/
theorem names_of_different_values :
    (spelledNumber.IsForest ∧
      spelledNumber.modes.IsExtension ∧
        ∃ run, spelledNumber.CompilesTo { level := 1 } run ∧
          run.context.compiled = [(⟨1⟩, "_identifier_int_1"), (⟨2⟩, "_identifier_int_1")] ∧
            (Fragment.functionNames run.context.output).count "_identifier_int_1" = 2) ∧
    (misfitConstant.IsForest ∧
      misfitConstant.modes.IsExtension ∧
        FoldsTo misfitConstant ⟨1⟩ (.char 0x31) ∧
          FoldsTo misfitConstant ⟨2⟩ (.int 31) ∧
            ∃ run, misfitConstant.CompilesTo { level := 1 } run ∧
              run.context.compiled =
                [(⟨1⟩, "_identifier_int_31"), (⟨2⟩, "_identifier_int_31")]) := by
  constructor
  · have hForest : spelledNumber.IsForest := (conforms_of_isOrderly (by decide +kernel)).forest
    have hNames : spelledNumber.compiledNames { level := 1 } ⟨0⟩ =
        .ok ([(⟨1⟩, "_identifier_int_1"),
          (⟨2⟩, "_identifier_int_1")],
          ["_identifier_int_1", "_identifier_int_1"]) := by
      decide +kernel
    rcases compilesTo_of_compiledNames rfl hNames with
      ⟨run, hRun, hCompiled, hFunctions⟩
    refine ⟨hForest, .standard, run, hRun, hCompiled, ?_⟩
    rw [hFunctions]
    decide
  · have hForest : misfitConstant.IsForest := (conforms_of_isOrderly (by decide +kernel)).forest
    have hNames : misfitConstant.compiledNames { level := 1 }
        ⟨0⟩ = .ok ([(⟨1⟩, "_identifier_int_31"),
          (⟨2⟩, "_identifier_int_31")],
          ["_identifier_int_31"]) := by
      decide +kernel
    rcases compilesTo_of_compiledNames rfl hNames with
      ⟨run, hRun, hCompiled, -⟩
    exact ⟨hForest, .standard, ⟨.ofOptions {}, _, rfl⟩,
      ⟨.ofOptions {}, _, rfl⟩, run, hRun, hCompiled⟩

end SyntaxTree

end Algol68
