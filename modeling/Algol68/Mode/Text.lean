import Algol68.Mode
import Algol68.Text.Words

/-
  The texts of a mode: its name in the source language and the words it adds to a generated name.
-/

------ Names

namespace Algol68

variable (table : ModeTable)

namespace ModeTable

def commaSeparated (texts : List String) : String := String.intercalate ", " texts

/-
  The text of a kind, where `name` gives the text of a part.
  A row has one comma less than it has dimensions.
-/
def kindText (name : ModeId → Walk String) : ModeKind → Walk String
  | .void => pure "VOID"
  | .int => pure "INT"
  | .real => pure "REAL"
  | .bool => pure "BOOL"
  | .char => pure "CHAR"
  | .bits => pure "BITS"
  | .hip => pure "HIP"
  | .ref target => do
    pure ("REF " ++ (← name target))
  | .row dims element => do
    if dims = 0 then throw .degenerate
    let commas := List.replicate (dims - 1) ','
    pure ("[" ++ String.ofList commas ++ "] " ++ (← name element))
  | .struct fields => do
    let texts ← fields.mapM fun field => do
      pure ((← name field.mode) ++ " " ++ field.name)
    pure ("STRUCT (" ++ commaSeparated texts ++ ")")
  | .union alternatives => do
    let texts ← alternatives.mapM name
    pure ("UNION (" ++ commaSeparated texts ++ ")")
  | .proc [] result => do
    pure ("PROC " ++ (← name result))
  | .proc params result => do
    let texts ← params.mapM name
    pure ("PROC (" ++ commaSeparated texts ++ ") " ++ (← name result))

/- The name of a mode that is at most `fuel` levels deep. -/
def nameWithin (table : ModeTable) : Nat → ModeId → Walk String
  | 0, _ => throw .unbounded
  | fuel + 1, mode => do
    let entry ← table.modes.fetch mode
    match entry.name with
    | some name => pure name
    | none => kindText (table.nameWithin fuel) entry.kind

def name (mode : ModeId) : Walk String := table.nameWithin (table.size + 1) mode

/- The words of a mode in generated names, as `ref_int`. -/
def codeName (mode : ModeId) : Walk String := do
  pure (Text.modeIdentifier (← table.name mode))

end ModeTable

end Algol68
