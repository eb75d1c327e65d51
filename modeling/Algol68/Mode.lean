import Algol68.Fault
import Algol68.Value

/-
  Modes and the table that holds them.

  Equal modes share one entry of the table, so modes are compared by their handles.
-/

------ Kinds

namespace Algol68

structure Field where
  name : String
  mode : ModeId
deriving DecidableEq, Repr

/- How a mode is built from other modes. -/
inductive ModeKind
  | void
  | int
  | real
  | bool
  | char
  | bits
  /- The mode of `NIL`. -/
  | hip
  | ref (target : ModeId)
  | row (dims : Nat) (element : ModeId)
  | struct (fields : List Field)
  | union (alternatives : List ModeId)
  | proc (params : List ModeId) (result : ModeId)
deriving DecidableEq, Repr

/- A kind, with the declared name that replaces its text. -/
structure Mode where
  kind : ModeKind
  name : Option String := none
deriving DecidableEq, Repr

/- The modes every table starts with. -/
structure StandardModes where
  void : ModeId
  int : ModeId
  real : ModeId
  bool : ModeId
  char : ModeId
  bits : ModeId
  hip : ModeId
  complex : ModeId
  refInt : ModeId
  refReal : ModeId
  refBool : ModeId
  refChar : ModeId
  refBits : ModeId
  refComplex : ModeId
deriving DecidableEq, Repr

def StandardModes.ofPrim (standard : StandardModes) : Prim → ModeId
  | .int => standard.int
  | .real => standard.real
  | .bool => standard.bool
  | .char => standard.char
  | .bits => standard.bits
  | .complex => standard.complex

------ Tables

structure ModeTable where
  modes : Store ModeEntity Mode
  standard : StandardModes

variable (table : ModeTable) (mode : ModeId)

namespace ModeTable

def standardTable : ModeTable where
  modes :=
    ⟨#[⟨.void, none⟩, ⟨.int, none⟩, ⟨.real, none⟩,
      ⟨.bool, none⟩, ⟨.char, none⟩, ⟨.bits, none⟩,
      ⟨.hip, none⟩,
      ⟨.struct [⟨"re", ⟨2⟩⟩, ⟨"im", ⟨2⟩⟩], some "COMPL"⟩,
      ⟨.ref ⟨1⟩, none⟩, ⟨.ref ⟨2⟩, none⟩, ⟨.ref ⟨3⟩, none⟩,
      ⟨.ref ⟨4⟩, none⟩, ⟨.ref ⟨5⟩, none⟩, ⟨.ref ⟨7⟩, none⟩]⟩
  standard :=
    { void := ⟨0⟩
      int := ⟨1⟩
      real := ⟨2⟩
      bool := ⟨3⟩
      char := ⟨4⟩
      bits := ⟨5⟩
      hip := ⟨6⟩
      complex := ⟨7⟩
      refInt := ⟨8⟩
      refReal := ⟨9⟩
      refBool := ⟨10⟩
      refChar := ⟨11⟩
      refBits := ⟨12⟩
      refComplex := ⟨13⟩ }

def size : Nat := table.modes.size

def find? (kind : ModeKind) : Option ModeId :=
  (table.modes.toList.reverse.find? fun entry => entry.2.kind == kind).map Prod.fst

/- The mode of a kind, added to the table if it is new. -/
def intern (kind : ModeKind) : ModeId × ModeTable :=
  match table.find? kind with
  | some mode => (mode, table)
  | none => (table.modes.nextHandle, { table with modes := table.modes.push ⟨kind, none⟩ })

------ Reading Modes

def kind : Walk ModeKind := do
  let entry ← table.modes.fetch mode
  pure entry.kind

def deref? : Walk (Option ModeId) := do
  match ← table.kind mode with
  | .ref target => pure (some target)
  | _ => pure none

def rowElement? : Walk (Option ModeId) := do
  match ← table.kind mode with
  | .row _ element => pure (some element)
  | .ref target =>
    match ← table.kind target with
    | .row _ element => pure (some element)
    | _ => pure none
  | _ => pure none

def field? (name : String) : Walk (Option (Nat × ModeId)) := do
  match ← table.kind mode with
  | .struct fields =>
    pure ((fields.zipIdx.find? fun entry => entry.1.name == name).map fun entry =>
        (entry.2, entry.1.mode))
  | _ => pure none

def prim? : Walk (Option Prim) := do
  match ← table.kind mode with
  | .int => pure (some .int)
  | .real => pure (some .real)
  | .bool => pure (some .bool)
  | .char => pure (some .char)
  | .bits => pure (some .bits)
  | _ => if mode = table.standard.complex then pure (some .complex) else pure none

end ModeTable

end Algol68
