import Algol68.Decimal.Numeral

/-
  Values of the data format that trees are written in.

  Numbers keep their spelling, and a text may hold half of a surrogate pair, which is allowed
  where a text is skipped and nowhere else.
-/

------ Values

namespace Algol68

inductive Quoted
  | text (content : String)
  /- A text with half of a surrogate pair in it. -/
  | unpaired
deriving DecidableEq, Repr, Inhabited

/- A value. Members of an object keep their order. -/
inductive Json
  | null
  | bool (value : Bool)
  | number (spelling : List Char)
  | string (content : Quoted)
  | array (items : List Json)
  | object (members : List (Quoted × Json))
deriving Repr, Inhabited

namespace Json

def nat (n : Nat) : Json := .number (Nat.toDigits 10 n)

def text (content : String) : Json := .string (.text content)

def option {α : Type} (encode : α → Json) : Option α → Json
  | some value => encode value
  | none => .null

def ofFields (fields : List (String × Json)) : Json :=
  .object (fields.map fun field => (.text field.1, field.2))

------ Views

def bool? : Json → Option Bool
  | .bool value => some value
  | _ => none

def text? : Json → Option String
  | .string (.text content) => some content
  | _ => none

/- The number, if the value is written with digits only. -/
def nat? : Json → Option Nat
  | .number spelling => Decimal.natOfDigits? 10 spelling
  | _ => none

/- A number written with digits only and less than `bound`. -/
def natBelow? (bound : Nat) (json : Json) : Option Nat := do
  let n ← json.nat?
  if n < bound then some n else none

def array? : Json → Option (List Json)
  | .array items => some items
  | _ => none

/- The decoded items, if the value is an array of them. -/
def listOf? {α : Type} (decode : Json → Option α) (json : Json) : Option (List α) := do
  (← json.array?).mapM decode

/- A value or nothing, where nothing is written as null. -/
def nullable? {α : Type} (decode : Json → Option α) : Json → Option (Option α)
  | .null => some none
  | json => (decode json).map some

/- The member of a given name, if the value is an object. -/
def member? : Json → String → Option Json
  | .object members, name => members.lookup (.text name)
  | _, _ => none

def withMembers : Json → Json → Json
  | .object members, .object replacements =>
    .object (members.map fun entry => (entry.1, (replacements.lookup entry.1).getD entry.2))
  | json, _ => json

------ Records and Variants

def isNamed : Quoted × Json → Bool
  | (.text _, _) => true
  | (.unpaired, _) => false

/- How often a name occurs among members. -/
def occurrences (name : String) (members : List (Quoted × Json)) : Nat :=
  (members.filter fun entry => entry.1 == .text name).length

/-
  The fields of a record, each present or not. A record is an object, in which no field may be
  repeated and other members are skipped, or an array of the fields in order, which may lack the
  last `defaulted` of them.
-/
def record? (names : List String) (defaulted : Nat) : Json → Option (List (Option Json))
  | .object members =>
    if members.all isNamed && names.all fun name => occurrences name members ≤ 1 then
      some (names.map fun name => members.lookup (.text name))
    else none
  | .array items =>
    if names.length ≤ items.length + defaulted ∧ items.length ≤ names.length then
      some (items.map some ++ List.replicate (names.length - items.length) none)
    else none
  | _ => none

def required? {α : Type} (decode : Json → Option α) (field : Option Json) : Option α :=
  field.bind decode

/- A field that is nothing when it is absent or null. -/
def optional? {α : Type} (decode : Json → Option α) : Option Json → Option (Option α)
  | some json => nullable? decode json
  | none => some none

def variant? : Json → Option (String × Option Json)
  | .string (.text name) => some (name, none)
  | .object [(.text name, carried)] => some (name, some carried)
  | _ => none

/- The name of a variant that carries nothing but null. -/
def bareVariant? (json : Json) : Option String :=
  match json.variant? with
  | some (name, none) => some name
  | some (name, some .null) => some name
  | _ => none

end Json

end Algol68
