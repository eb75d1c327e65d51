import Algol68.Mode.Layout
import Algol68.Mode.Text
import Algol68.Proofs.Links

/-
  Tables of modes on which every walk ends.

  A table is sound when its modes are made of modes of the table, none is made of itself, and
  every row has a dimension. A declared name stands for the whole mode, so a mode may refer to
  itself by its name.
-/

------ Sound Tables

namespace Algol68

variable {kind : ModeKind}

namespace ModeKind

/- The modes whose values make up a value of the kind. -/
def held : ModeKind → List ModeId
  | .struct fields => fields.map Field.mode
  | .union alternatives => alternatives
  | _ => []

/- The modes a kind is built from. -/
def parts : ModeKind → List ModeId
  | .ref target => [target]
  | .row _ element => [element]
  | .struct fields => fields.map Field.mode
  | .union alternatives => alternatives
  | .proc params result => params ++ [result]
  | _ => []

/- Whether a row of the kind has a dimension. -/
def hasDimensions : ModeKind → Bool
  | .row dims _ => decide (0 < dims)
  | _ => true

theorem mem_parts_of_mem_held (hHeld : mode ∈ kind.held) : mode ∈ kind.parts := by
  cases kind <;> simp_all [held, parts]

end ModeKind

namespace ModeTable

open Relation

/- A value of one mode holds a value of another. -/
def Holds (table : ModeTable) (mode part : ModeId) : Prop :=
  ∃ entry, table.modes.fetch mode = .ok entry ∧ part ∈ entry.kind.held

/- The name of one mode is spelled with that of another. -/
def Spells (table : ModeTable) (mode part : ModeId) : Prop :=
  ∃ entry, table.modes.fetch mode = .ok entry ∧ entry.name = none ∧ part ∈ entry.kind.parts

/- Modes are made of modes of the table. -/
structure IsInRange (table : ModeTable) : Prop where
  parts : ∀ mode entry, table.modes.fetch mode = .ok entry →
    ∀ part ∈ entry.kind.parts, part.number < table.size

/- No mode is made of itself, and rows have dimensions. -/
structure IsSound (table : ModeTable) : Prop extends table.IsInRange where
  rows : ∀ mode entry, table.modes.fetch mode = .ok entry → entry.kind.hasDimensions = true
  heldApart : ∀ mode, ¬ TransGen table.Holds mode mode
  spelledApart : ∀ mode, ¬ TransGen table.Spells mode mode

------ Reading Modes

variable {table : ModeTable} {mode : ModeId} {name : String}

theorem kind_eq_ok : table.kind mode = .ok kind ↔ ∃ entry, table.modes.fetch mode = .ok entry ∧
        entry.kind = kind := by
  simp [ModeTable.kind, Walk.bind_eq_ok]

theorem kind_ends (hMode : mode.number < table.size) : (table.kind mode).Ends := by
  obtain ⟨entry, hEntry⟩ := Store.exists_fetch hMode
  exact ⟨entry.kind, kind_eq_ok.mpr ⟨entry, hEntry, rfl⟩⟩

theorem IsInRange.part_lt (hTable : table.IsInRange) (hKind : table.kind mode = .ok kind)
    (hPart : part ∈ kind.parts) : part.number < table.size := by
  obtain ⟨entry, hEntry, rfl⟩ := kind_eq_ok.mp hKind
  exact hTable.parts mode entry hEntry part hPart

theorem deref?_eq_some :
    table.deref? mode = .ok (some target) ↔ table.kind mode = .ok (.ref target) := by
  rcases hKind : table.kind mode with fault | kind
  · simp [deref?, hKind]
  · cases kind <;> simp [deref?, hKind]

theorem IsInRange.deref_lt (hTable : table.IsInRange)
    (hTarget : table.deref? mode = .ok (some target)) : target.number < table.size :=
  hTable.part_lt (deref?_eq_some.mp hTarget) (by simp [ModeKind.parts])

theorem IsInRange.rowElement_lt (hTable : table.IsInRange)
    (hElem : table.rowElement? mode = .ok (some element)) : element.number < table.size := by
  rcases hKind : table.kind mode with fault | kind
  · simp [rowElement?, hKind] at hElem
  · cases kind with
    | row dims part =>
      obtain rfl : part = element := by simpa [rowElement?, hKind] using hElem
      exact hTable.part_lt hKind (by simp [ModeKind.parts])
    | ref target =>
      rcases hTarget : table.kind target with fault | kind
      · simp [rowElement?, hKind, hTarget] at hElem
      · cases kind with
        | row dims part =>
          obtain rfl : part = element := by simpa [rowElement?, hKind, hTarget] using hElem
          exact hTable.part_lt hTarget (by simp [ModeKind.parts])
        | _ => simp [rowElement?, hKind, hTarget] at hElem
    | _ => simp [rowElement?, hKind] at hElem

theorem field?_eq_some (hField : table.field? mode name = .ok (some (index, found))) :
    ∃ fields, table.kind mode = .ok (.struct fields) ∧ found ∈ fields.map Field.mode := by
  rcases hKind : table.kind mode with fault | kind
  · simp [field?, hKind] at hField
  · cases kind with
    | struct fields =>
      simp only [field?, hKind, Walk.ok_bind, Walk.pure_eq_ok, Except.ok.injEq,
        Option.map_eq_some_iff] at hField
      obtain ⟨⟨field, pos⟩, hFind, -, rfl⟩ := hField
      have hMem := List.mem_of_find?_eq_some hFind
      refine ⟨fields, rfl, List.mem_map.mpr ⟨field, ?_, rfl⟩⟩
      exact (List.mem_zipIdx hMem).2.2 ▸ List.getElem_mem _
    | _ => simp [field?, hKind] at hField

theorem IsInRange.field_lt (hTable : table.IsInRange)
    (hField : table.field? mode name = .ok (some (index, found))) : found.number < table.size := by
  obtain ⟨fields, hKind, hFound⟩ := field?_eq_some hField
  exact hTable.part_lt hKind hFound

/- More modes and more depth do not change a size. -/
theorem byteSizeWithin_mono {later : ModeTable} {bytes : Nat}
    (hKinds : ∀ mode kind, table.kind mode = .ok kind → later.kind mode = .ok kind)
    (hFuel : fuel ≤ more) (hSize : table.byteSizeWithin fuel mode = .ok bytes) :
    later.byteSizeWithin more mode = .ok bytes := by
  induction fuel generalizing mode bytes more with
  | zero => cases hSize
  | succ fuel ih =>
    obtain ⟨more, rfl⟩ := Nat.exists_eq_succ_of_ne_zero (Nat.ne_zero_of_lt hFuel)
    rw [byteSizeWithin] at hSize ⊢
    rcases Walk.bind_eq_ok.mp hSize with ⟨kind, hKind, hSize⟩
    rw [hKinds mode kind hKind, Walk.ok_bind]
    cases kind with
    | struct | union =>
      rcases Walk.bind_eq_ok.mp hSize with ⟨sizes, hSizes, hTotal⟩
      refine Walk.bind_eq_ok.mpr ⟨sizes, ?_, hTotal⟩
      rw [Walk.mapM_eq_ok] at hSizes ⊢
      exact hSizes.imp fun _ _ => ih (Nat.le_of_succ_le_succ hFuel)
    | _ => exact hSize

------ Questions about Modes

variable (hMode : mode.number < table.size)

include hMode

theorem ends_of_kind {rest : ModeKind → Walk α}
    (hRest : ∀ kind, table.kind mode = .ok kind → (rest kind).Ends) :
    (table.kind mode >>= rest).Ends :=
  (kind_ends hMode).bind hRest

theorem deref?_ends : (table.deref? mode).Ends := by
  refine ends_of_kind hMode ?_
  rintro (_ | _) _ <;> exact .of_pure

theorem field?_ends (name : String) : (table.field? mode name).Ends := by
  obtain ⟨kind, hKind⟩ := kind_ends hMode
  cases kind <;> simp [field?, hKind, Walk.Ends]

theorem isPrimitive_ends : (table.isPrimitive mode).Ends := ends_of_kind hMode fun _ _ => .of_pure

theorem isRow_ends : (table.isRow mode).Ends := ends_of_kind hMode fun _ _ => .of_pure

theorem isRef_ends : (table.isRef mode).Ends := ends_of_kind hMode fun _ _ => .of_pure

theorem isVoid_ends : (table.isVoid mode).Ends := ends_of_kind hMode fun _ _ => .of_pure

theorem storageClass?_ends : (table.storageClass? mode).Ends :=
  ends_of_kind hMode fun _ _ => .of_pure

theorem objectClass_ends : (table.objectClass mode).Ends := by
  obtain ⟨kind, hKind⟩ := kind_ends hMode
  cases kind <;> simp [objectClass, hKind, Walk.Ends]

theorem isFoldable_ends : (table.isFoldable mode).Ends :=
  (isPrimitive_ends hMode).or fun _ => .of_pure

omit hMode

namespace IsInRange

variable (hTable : table.IsInRange)

include hTable hMode

theorem rowElement?_ends : (table.rowElement? mode).Ends := by
  refine ends_of_kind hMode ?_
  intro kind hKind
  cases kind with
  | ref target =>
    have hTarget : target.number < table.size := hTable.part_lt hKind (by simp [ModeKind.parts])
    refine ends_of_kind hTarget ?_
    intro inner _
    cases inner <;> exact .of_pure
  | _ => exact .of_pure

theorem isBasicStruct_ends : (table.isBasicStruct mode).Ends := by
  refine ends_of_kind hMode ?_
  intro kind hKind
  cases kind with
  | struct fields =>
    cases fields with
    | nil => exact .of_pure
    | cons first rest =>
      refine .allM ?_
      intro field hField
      refine isPrimitive_ends (hTable.part_lt hKind ?_)
      exact List.mem_map_of_mem hField
  | _ => exact .of_pure

theorem isPlain_ends : (table.isPlain mode).Ends :=
  (isPrimitive_ends hMode).or fun _ => hTable.isBasicStruct_ends hMode

theorem isBasic_ends : (table.isBasic mode).Ends := by
  refine ends_of_kind hMode ?_
  intro kind hKind
  cases kind with
  | ref target =>
    have hTarget : target.number < table.size := hTable.part_lt hKind (by simp [ModeKind.parts])
    refine ends_of_kind hTarget ?_
    intro inner _
    cases inner with
    | ref | proc => exact .of_pure
    | _ => exact hTable.isPlain_ends hTarget
  | _ => exact hTable.isPlain_ends hMode

theorem isBasicNonRow_ends : (table.isBasicNonRow mode).Ends :=
  (isRow_ends hMode).not.and fun _ => hTable.isBasic_ends hMode

omit hTable hMode

theorem accepts_ends (hTable : table.IsInRange) (requirement : Requirement)
    (hMode : mode.number < table.size) : (requirement.accepts table mode).Ends := by
  cases requirement with
  | basic => exact hTable.isBasic_ends hMode
  | constant => exact isFoldable_ends hMode

end IsInRange

------ Sizes and Names

namespace IsSound

/- A held mode leads to fewer held modes. -/
private theorem heldCount_lt (hSound : table.IsSound)
    (hKind : table.kind mode = .ok kind) (hPart : part ∈ kind.held) :
    part.reachCount table.Holds table.size < mode.reachCount table.Holds table.size := by
  have hRange : part.number < table.size :=
    hSound.part_lt hKind (ModeKind.mem_parts_of_mem_held hPart)
  obtain ⟨entry, hEntry, rfl⟩ := kind_eq_ok.mp hKind
  exact Handle.reachCount_lt (.single ⟨entry, hEntry, hPart⟩) (hSound.heldApart part) hRange

variable (hSound : table.IsSound)

include hSound hMode

/- The depth that a size needs is the number of held modes. -/
theorem byteSizeWithin_ends (hFuel : mode.reachCount table.Holds table.size < fuel) :
    (table.byteSizeWithin fuel mode).Ends := by
  induction fuel generalizing mode with
  | zero => omega
  | succ fuel ih =>
    refine ends_of_kind hMode ?_
    intro kind hKind
    have hHeld : ∀ part ∈ kind.held, (table.byteSizeWithin fuel part).Ends := by
      intro part hPart
      refine ih (hSound.part_lt hKind (ModeKind.mem_parts_of_mem_held hPart)) ?_
      have hLess := hSound.heldCount_lt hKind hPart
      omega
    cases kind with
    | struct fields =>
      refine .bind (.mapM ?_) fun _ _ => .of_pure
      intro field hField
      exact hHeld field.mode (List.mem_map_of_mem hField)
    | union alternatives => exact .bind (.mapM hHeld) fun _ _ => .of_pure
    | _ => exact .of_pure

theorem byteSize_ends : (table.byteSize mode).Ends :=
  hSound.byteSizeWithin_ends hMode (Nat.lt_succ_of_le (mode.reachCount_le _ _))

theorem fieldOffset_ends (index : Nat) : (table.fieldOffset mode index).Ends := by
  refine ends_of_kind hMode ?_
  intro kind hKind
  cases kind with
  | struct fields =>
    refine .bind (.mapM ?_) fun _ _ => .of_pure
    intro field hField
    refine hSound.byteSize_ends (hSound.part_lt hKind ?_)
    exact List.mem_map_of_mem (List.mem_of_mem_take hField)
  | _ => exact .of_pure

omit hSound hMode

/- The text of a kind ends if the names of its parts do. -/
theorem kindText_ends {name : ModeId → Walk String} (hRows : kind.hasDimensions = true)
    (hName : ∀ part ∈ kind.parts, (name part).Ends) : (kindText name kind).Ends := by
  cases kind with
  | ref target => exact .bind (hName target (by simp [ModeKind.parts])) fun _ _ => .of_pure
  | row dims elem =>
    have hDims : dims ≠ 0 := by
      simp only [ModeKind.hasDimensions, decide_eq_true_eq] at hRows
      omega
    simp only [kindText, hDims]
    exact .bind (hName elem (by simp [ModeKind.parts])) fun _ _ => .of_pure
  | struct fields =>
    refine .bind (.mapM ?_) fun _ _ => .of_pure
    intro field hField
    exact .bind (hName field.mode (List.mem_map_of_mem hField)) fun _ _ => .of_pure
  | union alternatives => exact .bind (.mapM hName) fun _ _ => .of_pure
  | proc params res =>
    have hRes : (name res).Ends := hName res (by simp [ModeKind.parts])
    cases params with
    | nil => exact .bind hRes fun _ _ => .of_pure
    | cons first rest =>
      refine .bind (.mapM ?_) fun _ _ => .bind hRes fun _ _ => .of_pure
      intro param hParam
      exact hName param (List.mem_append_left _ hParam)
  | _ => exact .of_pure

include hSound hMode

/- The depth that a name needs is the number of spelled modes. -/
theorem nameWithin_ends (hFuel : mode.reachCount table.Spells table.size < fuel) :
    (table.nameWithin fuel mode).Ends := by
  induction fuel generalizing mode with
  | zero => omega
  | succ fuel ih =>
    obtain ⟨entry, hEntry⟩ := Store.exists_fetch hMode
    refine .bind ⟨entry, hEntry⟩ ?_
    intro found hFound
    cases hName : found.name with
    | some name => exact .of_pure
    | none =>
      refine kindText_ends (hSound.rows mode found hFound) ?_
      intro part hPart
      have hRange : part.number < table.size := hSound.parts mode found hFound part hPart
      refine ih hRange ?_
      have hLess : part.reachCount table.Spells table.size <
            mode.reachCount table.Spells table.size :=
        Handle.reachCount_lt (.single ⟨found, hFound, hName, hPart⟩)
          (hSound.spelledApart part) hRange
      omega

theorem name_ends : (table.name mode).Ends :=
  hSound.nameWithin_ends hMode (Nat.lt_succ_of_le (mode.reachCount_le _ _))

theorem codeName_ends : (table.codeName mode).Ends :=
  .bind (hSound.name_ends hMode) fun _ _ => .of_pure

end IsSound

end ModeTable

end Algol68
