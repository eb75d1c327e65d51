import Algol68.Proofs.Classification

/-
  Answers at different depths.

  The classifier bounds the depth of its walk, and gives an answer only if the bound was not met.
  So an answer stays what it is when the bound is raised, and the answers about a clause and about
  the units in it fit together.
-/

------ Clauses and Their Units

namespace Algol68

/- Whether the classifier may accept a node. -/
def Attribute.mayBeBasic : Attribute → Bool
  | .denoter | .identifier | .dereferencing | .formula
  | .monadicFormula | .call | .deproceduring | .slice
  | .selection | .assignation | .identityRelation | .cast
  | .widening | .voiding | .closedClause | .serialClause
  | .collateralClause | .conditionalClause => true
  | _ => false

variable {tree : SyntaxTree} {id : NodeId}

namespace Classifier

variable (hUnit : Judge.Follows .answers shallow deep)

include hUnit

theorem singleUnit_extends (hYes : singleUnit tree shallow query id = .ok true) :
    singleUnit tree deep query id = .ok true :=
  (singleUnit_follows False.elim hUnit.below (.refl _) False.elim).answer hYes

theorem conditional_extends (hAnswer : conditional tree shallow query fuel id = .ok answer) :
    conditional tree deep query fuel id = .ok answer :=
  (conditional_follows False.elim hUnit.below (.refl _) False.elim False.elim).answer hAnswer

omit hUnit

/- The classifier judges by answers it gives itself. -/
theorem exists_judge (tree : SyntaxTree) :
    ∃ shallow : Judge, shallow.Follows .answers (unit tree) ∧ unit tree = judge tree shallow := by
  have hBound : ∃ fuel, tree.bound = fuel + 1 := Nat.exists_eq_succ_of_ne_zero
      (Nat.mul_ne_zero (Nat.succ_ne_zero _) (Nat.succ_ne_zero _))
  rcases hBound with ⟨fuel, hFuel⟩
  refine ⟨unitWithin tree fuel, ?_, ?_⟩
  · unfold unit
    rw [hFuel]
    exact unitWithin_extends tree fuel
  · unfold unit
    rw [hFuel]
    rfl

end Classifier

namespace SyntaxTree

open Classifier

variable {node : Node}

theorem isBasic_eq_true : tree.isBasic id tier = .ok true ↔
      Tier.units ≤ tier ∧ unit tree (.basic tier) id = .ok true := by
  unfold isBasic
  by_cases hTier : Tier.units ≤ tier
  · simp [hTier]
  · simp [hTier]

/- A unit that was accepted has a shape that was accepted. -/
theorem exists_shape (hNode : tree.node id = .ok node) (hBasic : tree.isBasic id tier = .ok true)
    (hAttr : node.attr ≠ .voiding) :
    ∃ shallow mode, Judge.Follows .answers shallow (unit tree) ∧ node.mode = some mode ∧
        tree.modes.isBasic mode = .ok true ∧ shape tree shallow (.basic tier) id node mode =
            .ok true := by
  rcases exists_judge tree with ⟨shallow, hExtends, hJudge⟩
  have hUnit := (isBasic_eq_true.mp hBasic).2
  rw [hJudge] at hUnit
  rcases Walk.bind_eq_ok.mp hUnit with ⟨found, hFound, hRest⟩
  cases hNode.symm.trans hFound
  split at hRest
  · cases hRest
  · rename_i mode hMode
    rw [if_neg hAttr] at hRest
    rcases Walk.and_eq_true.mp hRest with ⟨hAccepts, hShape⟩
    exact ⟨shallow, mode, hExtends, hMode, hAccepts, hShape⟩

theorem mayBeBasic_of_isBasic {attr : Attribute} (hAttr : tree.attr id = .ok attr)
    (hBasic : tree.isBasic id tier = .ok true) : attr.mayBeBasic = true := by
  rcases attr_eq_ok.mp hAttr with ⟨node, hNode, rfl⟩
  by_cases hVoiding : node.attr = .voiding
  · rw [hVoiding]
    rfl
  · rcases exists_shape hNode hBasic hVoiding with ⟨shallow, mode, -, -, -, hShape⟩
    unfold shape at hShape
    split at hShape <;> simp_all [Attribute.mayBeBasic]

/- The one unit of a serial clause that was accepted. -/
theorem isBasic_of_isBasicSerial (hShaped : tree.IsShaped)
    (hBasic : tree.isBasicSerial id tier = .ok true) :
    ∃ only attr, tree.attr id = .ok .serialClause ∧ tree.children id = .ok [only] ∧
        tree.attr only = .ok attr ∧ attr.isDeclaration = false ∧
            tree.isBasic only tier = .ok true := by
  unfold isBasicSerial at hBasic
  split at hBasic
  · rename_i hTier
    have hSingle := single_of_singleUnit hBasic
    rcases hSingle.exists_children hShaped with ⟨-, only, -, -, hKids, hAccepted⟩
    rcases hSingle with ⟨hAttr, -, hFirst, hNode, hOther, -⟩
    rw [firstChildren_eq hKids, Except.ok.injEq] at hFirst
    cases hFirst
    have hUnits : Tier.units ≤ tier := Nat.le_trans (by decide) hTier
    exact ⟨only, _, hAttr, hKids, attr_eq hNode, hOther, isBasic_eq_true.mpr ⟨hUnits, hAccepted⟩⟩
  · cases hBasic

/- A serial clause that is a unit by itself. -/
theorem isBasicSerial_of_isBasic (hAttr : tree.attr id = .ok .serialClause)
    (hBasic : tree.isBasic id tier = .ok true) : tree.isBasicSerial id tier = .ok true := by
  rcases attr_eq_ok.mp hAttr with ⟨node, hNode, hSerial⟩
  rcases exists_shape hNode hBasic (by simp [hSerial]) with ⟨shallow, mode, hExtends, -, -, hShape⟩
  simp only [shape, hSerial] at hShape
  split at hShape
  · rename_i hTier
    have hClauses : Tier.clauses ≤ tier := of_decide_eq_true hTier
    rw [isBasicSerial, if_pos hClauses]
    exact singleUnit_extends hExtends hShape
  · cases hShape

/- A closed clause that is a unit by itself. -/
theorem isBasicSerial_of_closed (hNode : tree.node id = .ok node)
    (hAttr : node.attr = .closedClause) (hBasic : tree.isBasic id tier = .ok true) :
    ∃ serial, node.sub = some serial ∧ tree.isBasicSerial serial tier = .ok true := by
  rcases exists_shape hNode hBasic (by simp [hAttr]) with ⟨shallow, mode, hExtends, -, -, hShape⟩
  simp only [shape, hAttr] at hShape
  split at hShape
  · rename_i hTier
    have hClauses : Tier.clauses ≤ tier := of_decide_eq_true hTier
    rcases Walk.holdsOf_eq_true.mp hShape with ⟨serial, hSub, hSingle⟩
    refine ⟨serial, hSub, ?_⟩
    rw [isBasicSerial, if_pos hClauses]
    exact singleUnit_extends hExtends hSingle
  · cases hShape

/- A display that is a unit by itself. -/
theorem isBasicStruct_of_isBasic (hNode : tree.node id = .ok node)
    (hAttr : node.attr = .collateralClause) (hBasic : tree.isBasic id tier = .ok true)
    (hMode : node.mode = some mode) : tree.modes.isBasicStruct mode = .ok true := by
  rcases exists_shape hNode hBasic (by simp [hAttr]) with ⟨shallow, found, -, hFound, -, hShape⟩
  simp only [shape, hAttr] at hShape
  split at hShape
  · simp only [collateral, mode?_eq hNode, hMode, Walk.ok_bind, Walk.and_eq_true] at hShape
    exact hShape.1
  · cases hShape

/- A conditional clause is a unit by itself if and only if its guards and branches are. -/
theorem isBasicConditional_iff (hTree : tree.IsRegular)
    (hAttr : tree.attr id = .ok .conditionalClause) :
    tree.isBasicConditional id tier = .ok true ↔ tree.isBasic id tier = .ok true := by
  rcases attr_eq_ok.mp hAttr with ⟨node, hNode, hClause⟩
  constructor
  · intro hBasic
    -- The answer about the clause exists, and it extends to this one.
    unfold isBasicConditional at hBasic
    split at hBasic
    · rename_i hTier
      rcases Walk.bind_eq_ok.mp hBasic with ⟨found, hFound, hRest⟩
      rcases Walk.and_eq_true.mp hRest with ⟨hMode, hUnits⟩
      rcases Walk.holdsOf_eq_true.mp hMode with ⟨mode, rfl, hAccepts⟩
      rw [mode?_eq hNode, Except.ok.injEq] at hFound
      rcases hTree.isFinite.isBasic_ends hNode tier with ⟨answer, hAnswer⟩
      rcases exists_judge tree with ⟨shallow, hExtends, hJudge⟩
      have hLow : Tier.units ≤ tier := Nat.le_trans (by decide) hTier
      have hMatches : (Query.basic tier).requirement.accepts tree.modes mode = .ok true := hAccepts
      have hHere : (Query.basic tier).isBasicAt Tier.clauses = true := decide_eq_true hTier
      have hWithin : isBasic tree id tier =
          conditional tree shallow (.basic tier) tree.bound id := by
        unfold isBasic
        rw [if_pos hLow, hJudge]
        simp [judge, hNode, hFound, hClause, hMatches, shape, hHere, Walk.and]
      have hSame := conditional_extends hExtends (hWithin.symm.trans hAnswer)
      rw [hUnits, Except.ok.injEq] at hSame
      rw [hAnswer, hSame]
    · cases hBasic
  · intro hBasic
    rcases exists_shape hNode hBasic (by simp [hClause]) with
      ⟨shallow, mode, hExtends, hMode, hAccepts, hShape⟩
    simp only [shape, hClause] at hShape
    split at hShape
    · rename_i hTier
      have hClauses : Tier.clauses ≤ tier := of_decide_eq_true hTier
      have hUnits := conditional_extends hExtends hShape
      simp [isBasicConditional, hClauses, mode?_eq hNode, hMode, hAccepts, hUnits]
    · cases hShape

end SyntaxTree

end Algol68
