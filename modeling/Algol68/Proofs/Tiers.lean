import Algol68.Proofs.Depths
import Algol68.Proofs.Figures

/-
  Answers at different tiers.

  Clauses are admitted from one tier on, and no tier admits
  more than that one, so that all tiers from there on give the
  same answers. Whatever is accepted at a tier is accepted at
  all higher ones.

  Main declarations:
    * `SyntaxTree.accepted_at_higher_tiers`
-/

------ A Change of Tier

namespace Algol68

namespace SyntaxTree

open Classifier Walk

variable (tree : SyntaxTree) (id : NodeId) (hClimbs : Climbs extent tier higher)

include hClimbs

theorem isBasic_follows : Follows False extent (tree.isBasic id tier) (tree.isBasic id higher) :=
  isBasic_goes False.elim False.elim hClimbs

theorem isBasicIndexer_follows :
    Follows False extent (tree.isBasicIndexer id tier) (tree.isBasicIndexer id higher) :=
  indexer_follows False.elim (followsBelow_basic False.elim) hClimbs False.elim

theorem isBasicSerial_follows :
    Follows False extent (tree.isBasicSerial id tier) (tree.isBasicSerial id higher) :=
  isBasicSerial_goes False.elim False.elim hClimbs

theorem isBasicCollateral_follows :
    Follows False extent (tree.isBasicCollateral id tier) (tree.isBasicCollateral id higher) :=
  hClimbs.gate (Nat.le_refl _)
    (collateral_follows False.elim (followsBelow_basic False.elim) hClimbs False.elim)

theorem isBasicConditional_follows :
    Follows False extent (tree.isBasicConditional id tier) (tree.isBasicConditional id higher) :=
  isBasicConditional_goes False.elim False.elim hClimbs

theorem isBasicCase_follows :
    Follows False extent (tree.isBasicCase id tier) (tree.isBasicCase id higher) :=
  isBasicCase_goes False.elim False.elim hClimbs

end SyntaxTree

------ The Highest Tier That Matters

theorem Classifier.Climbs.of_min (tier : Nat) : Climbs .all (min tier Tier.clauses) tier := by
  constructor <;> simp

theorem Classifier.Climbs.of_le (hHigher : tier ≤ higher) : Climbs .accepts tier higher :=
  ⟨min_le_min_right _ hHigher, fun hOther => absurd rfl hOther⟩

namespace SyntaxTree

open Classifier Walk

variable (tree : SyntaxTree) (id : NodeId) (tier : Nat)

@[simp] theorem isBasic_min : tree.isBasic id (min tier Tier.clauses) = tree.isBasic id tier :=
  ((isBasic_follows tree id (.of_min tier)).keeps trivial).symm

@[simp] theorem isBasicSerial_min :
    tree.isBasicSerial id (min tier Tier.clauses) = tree.isBasicSerial id tier :=
  ((isBasicSerial_follows tree id (.of_min tier)).keeps trivial).symm

@[simp] theorem isBasicConditional_min :
    tree.isBasicConditional id (min tier Tier.clauses) = tree.isBasicConditional id tier :=
  ((isBasicConditional_follows tree id (.of_min tier)).keeps trivial).symm

@[simp] theorem isBasicCase_min :
    tree.isBasicCase id (min tier Tier.clauses) = tree.isBasicCase id tier :=
  ((isBasicCase_follows tree id (.of_min tier)).keeps trivial).symm

------ Higher Tiers

variable {tree : SyntaxTree} {id : NodeId} {tier : Nat}

theorem isBasic_mono (hHigher : tier ≤ higher) (hBasic : tree.isBasic id tier = .ok true) :
    tree.isBasic id higher = .ok true :=
  (isBasic_follows tree id (.of_le hHigher)).accept hBasic

/-
  Whatever a tier accepts is accepted at all higher ones:
  units, indexers, and clauses of each kind.
-/
theorem accepted_at_higher_tiers (tree : SyntaxTree) (id : NodeId) {tier higher : Nat}
    (hHigher : tier ≤ higher) :
    (tree.isBasic id tier = .ok true → tree.isBasic id higher = .ok true) ∧
      (tree.isBasicIndexer id tier = .ok true → tree.isBasicIndexer id higher = .ok true) ∧
      (tree.isBasicSerial id tier = .ok true → tree.isBasicSerial id higher = .ok true) ∧
      (tree.isBasicCollateral id tier = .ok true → tree.isBasicCollateral id higher = .ok true) ∧
      (tree.isBasicConditional id tier = .ok true → tree.isBasicConditional id higher = .ok true) ∧
      (tree.isBasicCase id tier = .ok true → tree.isBasicCase id higher = .ok true) := by
  have hClimbs : Climbs .accepts tier higher := .of_le hHigher
  exact ⟨(isBasic_follows tree id hClimbs).accept, (isBasicIndexer_follows tree id hClimbs).accept,
    (isBasicSerial_follows tree id hClimbs).accept,
    (isBasicCollateral_follows tree id hClimbs).accept,
    (isBasicConditional_follows tree id hClimbs).accept,
    (isBasicCase_follows tree id hClimbs).accept⟩

/- A choice between two numbers. -/
def alternative : SyntaxTree where
  nodes := Figure.nodes [.unit .conditionalClause ⟨1⟩
      [.ifPart (.denoter ⟨3⟩ "TRUE"), .branch .thenPart ⟨1⟩ [.number "1"],
        .branch .elsePart ⟨1⟩ [.number "2"]]]
  root := some ⟨0⟩

theorem accepted_at_higher_tiers_alternative :
    Tier.clauses ≤ Tier.clauses + 1 ∧ alternative.isBasic ⟨0⟩ (Tier.clauses + 1) = .ok true ∧
        alternative.isBasicConditional ⟨0⟩ (Tier.clauses + 1) = .ok true := by
  have hHigher : Tier.clauses ≤ Tier.clauses + 1 := by decide
  have hMore := accepted_at_higher_tiers alternative ⟨0⟩ hHigher
  exact ⟨hHigher, hMore.1 (by decide +kernel), hMore.2.2.2.2.1 (by decide +kernel)⟩

end SyntaxTree

end Algol68
