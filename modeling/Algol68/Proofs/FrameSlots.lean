import Algol68.Proofs.ChildLists
import Algol68.Proofs.Interning
import Algol68.Proofs.Modes

/-
  Frames of scopes: the places of tags and objects in the frame of the scope that they are
  declared in, and the levels of nested scopes.
-/

------ Growing Tables of Modes

namespace Algol68

open List

namespace ModeTable

variable {later table : ModeTable}

/- A table that has the modes of another, and maybe more. -/
def Extends (later table : ModeTable) : Prop :=
  table.size ≤ later.size ∧ ∀ mode kind, table.kind mode = .ok kind → later.kind mode = .ok kind

theorem Extends.refl (table : ModeTable) : table.Extends table := ⟨le_rfl, fun _ _ hKind => hKind⟩

theorem extends_intern (table : ModeTable) (kind : ModeKind) :
    (table.intern kind).2.Extends table := by
  have hInterns := table.interns_intern kind
  refine ⟨?_, ?_⟩
  · rcases hInterns.grown with ⟨hSize, -⟩ | ⟨hSize, -⟩ <;> omega
  · intro mode old hOld
    rcases kind_eq_ok.mp hOld with ⟨entry, hEntry, hKind⟩
    rw [Store.fetch_eq_ok] at hEntry
    exact kind_eq_ok.mpr ⟨entry, Store.fetch_eq_ok.mpr (hInterns.kept mode entry hEntry), hKind⟩

end ModeTable

------ Slots

namespace TreeBuilder

/- What has a place in a frame: a tag, with a value or without, or the object of a variable. -/
inductive Room
  | tag (id : TagId) (valued : Bool)
  | object (mode : ModeId)

/- A range of positions has room for a value of a mode. -/
def Spans (modes : ModeTable) (mode : ModeId) (slot : Nat × Nat) : Prop :=
  ∃ bytes, modes.byteSize mode = .ok bytes ∧ slot.2 = slot.1 + bytes

/- The place of a tag or an object in a frame of a level. -/
def HasSlot (tags : Store TagEntity Tag) (modes : ModeTable) (level : Nat) :
    Room → Nat × Nat → Prop
  | .tag id valued, slot => ∃ tag, tags.get? id = some tag ∧ tag.level = level ∧
    tag.offset = slot.1 ∧ if valued then Spans modes tag.mode slot else slot.2 = slot.1
  | .object mode, slot => Spans modes mode slot

/- Rooms, the latest first, that fill a frame up to its end. -/
def Fills (tags : Store TagEntity Tag) (modes : ModeTable) (level : Nat) : List Room → Nat → Prop
  | [], stop => stop = 0
  | room :: earlier, stop => ∃ start, HasSlot tags modes level room (start, stop) ∧
    Fills tags modes level earlier start

/- The rooms that are declared in a scope. -/
def roomsOf (declared : List (TableId × Room)) (table : TableId) : List Room :=
  (declared.filter fun entry => entry.1 = table).map Prod.snd

/- Scopes filled with what is declared in them, each a level below the scope around it. -/
structure Frames (declared : List (TableId × Room)) (tables : Store TableEntity ScopeTable)
    (tags : Store TagEntity Tag) (modes : ModeTable) : Prop where
  known : ∀ entry ∈ declared, ∃ table, tables.get? entry.1 = some table
  fills : ∀ id table, tables.get? id = some table →
    Fills tags modes table.level (roomsOf declared id) table.frameIncrement
  outermost : ∀ id table, tables.get? id = some table → table.parent = none →
    id = ⟨0⟩ ∧ table.level = 0
  nested : ∀ id table parent, tables.get? id = some table → table.parent = some parent →
    ∃ outer, tables.get? parent = some outer ∧ table.level = outer.level + 1

/- Tags that stay where they are. -/
def Keeps (tags later : Store TagEntity Tag) : Prop :=
  ∀ id tag, tags.get? id = some tag → ∃ node value body, later.get? id =
    some { tag with definingNode := node, value := value, body := body }

/- Scopes of which one has a longer frame. -/
def Grows (tables later : Store TableEntity ScopeTable) (scope : TableId) (bytes : Nat) : Prop :=
  ∃ table next, tables.get? scope = some table ∧ next.level = table.level ∧
    next.parent = table.parent ∧ next.frameIncrement = table.frameIncrement + bytes ∧
    ∀ id, later.get? id = if id = scope then some next else tables.get? id

variable {modes moreModes : ModeTable} {tags moreTags : Store TagEntity Tag} {room : Room}
  {tables later : Store TableEntity ScopeTable} {scope : TableId} {declared : List (TableId × Room)}

theorem Keeps.refl (tags : Store TagEntity Tag) : Keeps tags tags :=
  fun _ _ hTag => ⟨_, _, _, hTag⟩

theorem Keeps.push (tags : Store TagEntity Tag) (tag : Tag) : Keeps tags (tags.push tag) :=
  fun _ _ hOld => ⟨_, _, _, Store.get?_push_of_some tag hOld⟩

theorem Spans.mono (hModes : moreModes.Extends modes) (hSpans : Spans modes mode slot) :
    Spans moreModes mode slot := by
  rcases hSpans with ⟨bytes, hBytes, hSlot⟩
  exact ⟨bytes, ModeTable.byteSizeWithin_mono hModes.2 (Nat.succ_le_succ hModes.1) hBytes, hSlot⟩

theorem Fills.mono (hTags : Keeps tags moreTags) (hModes : moreModes.Extends modes)
    (hFills : Fills tags modes level rooms stop) : Fills moreTags moreModes level rooms stop := by
  induction rooms generalizing stop with
  | nil => exact hFills
  | cons room earlier ih =>
    rcases hFills with ⟨start, hSlot, hEarlier⟩
    refine ⟨start, ?_, ih hEarlier⟩
    cases room with
    | object mode => exact hSlot.mono hModes
    | tag id valued =>
      rcases hSlot with ⟨tag, hTag, hLevel, hOffset, hRoom⟩
      rcases hTags id tag hTag with ⟨node, value, body, hMore⟩
      refine ⟨_, hMore, hLevel, hOffset, ?_⟩
      cases valued with
      | true => exact hRoom.mono hModes
      | false => exact hRoom

namespace Frames

variable (hFrames : Frames declared tables tags modes)

include hFrames

theorem mono (hTags : Keeps tags moreTags) (hModes : moreModes.Extends modes) :
    Frames declared tables moreTags moreModes where
  known := hFrames.known
  fills id table hTable := (hFrames.fills id table hTable).mono hTags hModes
  outermost := hFrames.outermost
  nested := hFrames.nested

/- A scope that is opened has no tags yet. -/
theorem opened (hScope : tables.get? scope = some outer) : Frames declared
    (tables.push { level := outer.level + 1, parent := some scope }) tags modes := by
  have hGet := tables.get?_push { level := outer.level + 1, parent := some scope }
  have hNew := tables.get?_nextHandle
  rcases hFrames with ⟨hKnown, hFills, hOutermost, hNested⟩
  have hEmpty : roomsOf declared tables.nextHandle = [] := by
    simp [roomsOf, filter_eq_nil_iff]
    grind
  constructor <;> grind [Fills]

/- A frame grows by the room for what is declared. -/
theorem declare (hGrows : Grows tables later scope bytes)
    (hSlot : ∀ table, tables.get? scope = some table → HasSlot tags modes table.level room
      (table.frameIncrement, table.frameIncrement + bytes)) :
    Frames ((scope, room) :: declared) later tags modes := by
  rcases hGrows with ⟨table, next, hTable, hLevel, hParent, hFrame, hLater⟩
  rcases hFrames with ⟨hKnown, hFills, hOutermost, hNested⟩
  constructor <;> grind [roomsOf, Fills]

/- A scope whose frame stays as long as it is. -/
theorem kept (hGrows : Grows tables later scope 0) : Frames declared later tags modes := by
  rcases hGrows with ⟨table, next, hTable, hNext⟩
  rcases hFrames with ⟨hKnown, hFills, hOutermost, hNested⟩
  constructor <;> grind

end Frames

/- What fills a frame lies one behind the other and leaves no gap. -/
theorem Fills.slots (hFills : Fills tags modes level rooms stop) :
    ∃ slots, Forall₂ (HasSlot tags modes level) rooms slots ∧
      slots.Pairwise (fun slot earlier => earlier.2 ≤ slot.1) ∧
      (∀ slot ∈ slots, slot.2 ≤ stop) ∧
      ∀ pos, pos < stop ↔ ∃ slot ∈ slots, slot.1 ≤ pos ∧ pos < slot.2 := by
  induction rooms generalizing stop with
  | nil =>
    cases hFills
    exact ⟨[], .nil, .nil, by simp⟩
  | cons room earlier ih =>
    rcases hFills with ⟨start, hSlot, hEarlier⟩
    have hOrder : start ≤ stop := by cases room <;> grind [HasSlot, Spans]
    rcases ih hEarlier with ⟨slots, hSlots, hApart, hWithin, hCover⟩
    refine ⟨(start, stop) :: slots, .cons hSlot hSlots, .cons hWithin hApart, by grind, ?_⟩
    intro pos
    simp only [mem_cons, exists_eq_or_imp, ← hCover]
    omega

end TreeBuilder

end Algol68
