/-
  Append-only stores and the handles that address them.

  A handle is the position of an entry, and the same number serves as the entry's name in
  generated code. Entries are never removed, so a handle stays valid for the life of its store.
-/

------ Handles

namespace Algol68

/- A position in a store. The type `entity` says what the store holds and is never inspected. -/
structure Handle (entity : Type) where
  number : Nat

namespace Handle

variable {entity : Type} (handle : Handle entity)

/- Handles of equal number are equal. -/
@[ext] theorem ext {left right : Handle entity} (hNumber : left.number = right.number) :
    left = right := by
  cases left
  cases right
  exact congrArg Handle.mk hNumber

instance : DecidableEq (Handle entity) :=
  fun left right =>
    if hNumber : left.number = right.number then isTrue (ext hNumber)
    else isFalse fun hEqual => hNumber (congrArg number hEqual)

instance : Inhabited (Handle entity) := ⟨⟨0⟩⟩

instance : Repr (Handle entity) := ⟨fun handle precedence => reprPrec handle.number precedence⟩

instance : Hashable (Handle entity) := ⟨fun handle => hash handle.number⟩

/- The plain decimal spelling of a handle. -/
def text : String := toString handle.number

def trace : String := "#" ++ handle.text

end Handle

------ What Stores Hold

/- Marks the handles of syntax nodes. -/
inductive NodeEntity

/- Marks the handles of modes. -/
inductive ModeEntity

/- Marks the handles of tags. -/
inductive TagEntity

/- Marks the handles of scope tables. -/
inductive TableEntity

abbrev NodeId := Handle NodeEntity

abbrev ModeId := Handle ModeEntity

abbrev TagId := Handle TagEntity

abbrev TableId := Handle TableEntity

------ Stores

/- The entries of one kind in the order they were added. -/
structure Store (entity α : Type) where
  entries : Array α := #[]

namespace Store

variable {entity α : Type} (store : Store entity α)

def size : Nat := store.entries.size

/- Whether nothing has been added. -/
def isEmpty : Bool := store.size == 0

def get? (handle : Handle entity) : Option α := store.entries[handle.number]?

def nextHandle : Handle entity := ⟨store.size⟩

variable (entry : α)

def push : Store entity α := ⟨store.entries.push entry⟩

def set? (handle : Handle entity) (entry : α) : Option (Store entity α) :=
  if handle.number < store.size then some ⟨store.entries.setIfInBounds handle.number entry⟩
  else none

def handles : List (Handle entity) := (List.range store.size).map Handle.mk

/- All entries with their handles, in order. -/
def toList : List (Handle entity × α) := store.handles.zip store.entries.toList

/- An added entry is found at the handle announced for it. -/
@[simp] theorem get?_push_nextHandle : (store.push entry).get? store.nextHandle = some entry := by
  simp [get?, push, nextHandle, size]

theorem get?_push_of_lt {handle : Handle entity} (hRange : handle.number < store.size) :
    (store.push entry).get? handle = store.get? handle := by
  simp only [get?, push, size] at *
  rw [Array.getElem?_push_lt hRange, Array.getElem?_eq_getElem hRange]

/- Adding an entry makes the store larger by one. -/
@[simp] theorem size_push : (store.push entry).size = store.size + 1 := by
  simp [size, push]

end Store

end Algol68
