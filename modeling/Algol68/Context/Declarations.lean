/- The local declarations of a generated function. -/

------ Declarations

namespace Algol68

/-
  Declarators grouped by storage class. Classes and the
  declarators of a class are in order and occur once.
-/
structure Declarations where
  classes : List (String × List String) := []
deriving DecidableEq, Repr

variable (declarations : Declarations)

namespace Declarations

/- Put a name into an ordered list, unless it is there. -/
def insertName (name : String) : List String → List String
  | [] => [name]
  | first :: rest =>
    if name < first then name :: first :: rest
    else if name = first then first :: rest
    else first :: insertName name rest

/- Put a declarator into its class. -/
def insertInto (storage name : String) : List (String × List String) → List (String × List String)
  | [] => [(storage, [name])]
  | (first, names) :: rest =>
    if storage < first then (storage, [name]) :: (first, names) :: rest
    else if storage = first then (first, insertName name names) :: rest
    else (first, names) :: insertInto storage name rest

def add (storage name : String) : Declarations := ⟨insertInto storage name declarations.classes⟩

def contains (storage name : String) : Bool :=
  match declarations.classes.lookup storage with
  | some names => names.contains name
  | none => false

def isEmpty : Bool := declarations.classes.isEmpty

def lines : List String :=
  declarations.classes.map fun entry => entry.1 ++ " " ++ String.intercalate ", " entry.2 ++ ";"

end Declarations

end Algol68
