import Algol68.Hasher

/- Optimisation tiers and the settings of a compilation. -/

------ Tiers

namespace Algol68

namespace Tier

/- Identifiers, denotations, formulas and calls of builtins. -/
def units : Nat := 1

/- Slices, selections, casts, widenings and assignations. -/
def indexing : Nat := 2

/- Whole clauses and calls of routines. -/
def clauses : Nat := 3

def highest : Nat := 9

end Tier

------ Options

/-
  The settings of a compilation. Level zero generates nothing,
  and checked code tests what the interpreter would test. The
  hasher gives the fingerprints of fragments.
-/
structure Options where
  level : Nat := Tier.clauses
  checked : Bool := false
  hasher : Hasher := default

namespace Options

/- The settings of a level; there is none above the highest. -/
def ofLevel (level : Nat) : Options := { level := min level Tier.highest }

def withChecked (options : Options) (checked : Bool) : Options :=
  { options with checked := checked }

def tier (options : Options) : Nat := min options.level Tier.highest

end Options

end Algol68
