import Algol68.Proofs.Labels
import Algol68.Proofs.WrittenTree

/-
  Interning of modes.

  A table may keep an index of its kinds, which is not written
  with it and is made again on first use. With or without one,
  whatever is requested and however often the table is written
  and read, every kind has one mode.

  Main declarations:
    * `IndexedTable.interning_invariant`
-/

------ Structure of Modes

namespace Algol68

open List

/- A kind without the modes that it is built from. -/
def ModeKind.form : ModeKind → ModeKind
  | .ref _ => .ref ⟨0⟩
  | .row dims _ => .row dims ⟨0⟩
  | .struct fields => .struct (fields.map fun field => ⟨field.name, ⟨0⟩⟩)
  | .union alternatives => .union (alternatives.map fun _ => ⟨0⟩)
  | .proc params _ => .proc (params.map fun _ => ⟨0⟩) ⟨0⟩
  | kind => kind

variable {table : ModeTable}

namespace ModeTable

/- A mode that comes to an end on every way into its parts. -/
inductive IsFinite (table : ModeTable) : ModeId → Prop
  | intro {mode : ModeId} {kind : ModeKind} (hKind : table.kind mode = .ok kind)
      (hParts : ∀ part ∈ kind.parts, IsFinite table part) : IsFinite table mode

/- Two modes of one form whose parts have the same structure. -/
inductive SameStructure (table : ModeTable) : ModeId → ModeId → Prop
  | intro {left right : ModeId} {first second : ModeKind} (hLeft : table.kind left = .ok first)
      (hRight : table.kind right = .ok second) (hForm : first.form = second.form)
      (hCount : first.parts.length = second.parts.length)
      (hParts : ∀ parts ∈ first.parts.zip second.parts, SameStructure table parts.1 parts.2) :
      SameStructure table left right

/- The table after requests for kinds, and the modes given. -/
def internAll (table : ModeTable) : List ModeKind → List ModeId × ModeTable
  | [] => ([], table)
  | kind :: kinds =>
    let (mode, next) := table.intern kind
    let (modes, last) := next.internAll kinds
    (mode :: modes, last)

/- What one request for a kind does to a table. -/
structure Interns (before : ModeTable) (kind : ModeKind) (mode : ModeId)
    (after : ModeTable) : Prop where
  kind_eq : after.kind mode = .ok kind
  kept : ∀ old entry, before.modes.get? old = some entry → after.modes.get? old = some entry
  grown : after.size = before.size ∧ before.kind mode = .ok kind ∨
    after.size = before.size + 1 ∧ ∀ old, before.kind old ≠ .ok kind

theorem kind_eq_of_form_eq {first : ModeKind} (hForm : first.form = second.form)
    (hParts : first.parts = second.parts) : first = second := by
  cases first <;> cases second <;> simp [ModeKind.form, ModeKind.parts] at hForm hParts ⊢
  case struct.struct fields others =>
    induction fields generalizing others with
    | nil => cases others <;> simp_all
    | cons field fields ih =>
      rcases others with _ | ⟨other, others⟩
      · simp at hForm
      · simp only [map_cons, cons.injEq] at hForm hParts
        rw [cons.injEq]
        refine ⟨?_, ih others hParts.2 hForm.2⟩
        cases field
        simp_all
  all_goals simp_all

/- Modes of a table without repetitions have a structure each. -/
theorem eq_of_sameStructure (hUnique : ∀ {left right kind}, table.kind left = .ok kind →
      table.kind right = .ok kind → left = right)
    (hSame : table.SameStructure left right) : left = right := by
  induction hSame with
  | @intro left right first second hLeft hRight hForm hCount _ ih =>
    have hParts : first.parts = second.parts := by
      refine ext_getElem hCount ?_
      intro pos hFirst hSecond
      exact ih (first.parts[pos], second.parts[pos])
        (mem_iff_getElem.mpr ⟨pos, by simp [hFirst, hSecond], by simp⟩)
    rw [← kind_eq_of_form_eq hForm hParts] at hRight
    exact hUnique hLeft hRight

theorem IsFinite.sameStructure (hFinite : table.IsFinite mode) : table.SameStructure mode mode := by
  induction hFinite with
  | @intro mode kind hKind _ ih =>
    refine .intro hKind hKind rfl rfl ?_
    intro parts hParts
    rcases mem_iff_getElem.mp hParts with ⟨pos, hBound, rfl⟩
    simp only [getElem_zip]
    exact ih _ (getElem_mem _)

end ModeTable

------ Indexed Tables

/-
  A table with an index of its kinds, the latest first. The
  index is empty if it has to be made again.
-/
structure IndexedTable where
  table : ModeTable
  index : List (ModeKind × ModeId)

/- The kinds of a table with their modes, the latest first. -/
def ModeTable.kinds (table : ModeTable) : List (ModeKind × ModeId) :=
  table.modes.toList.reverse.map fun entry => (entry.2.kind, entry.1)

/- What can be asked of a table. -/
inductive Request
  | intern (kind : ModeKind)
  | reference (target : ModeId)
  | row (element : ModeId)
  | struct (fields : List (String × ModeId))
  | union (alternatives : List ModeId)
  | proc (params : List ModeId) (result : ModeId)
  /- Write the table, and go on with what is read from its text. -/
  | reread

/- The kind that a request asks for, if it asks for one. -/
def Request.kind? : Request → Option ModeKind
  | .intern kind => some kind
  | .reference target => some (.ref target)
  | .row element => some (.row 1 element)
  | .struct fields => some (.struct (fields.map fun field => ⟨field.1, field.2⟩))
  | .union alternatives => some (.union alternatives)
  | .proc params result => some (.proc params result)
  | .reread => none

variable (indexed : IndexedTable)

namespace IndexedTable

/- The standard modes, all of them in the index. -/
def standard : IndexedTable := ⟨.standardTable, ModeTable.standardTable.kinds⟩

/- The index, made again if it is empty. -/
def usedIndex : List (ModeKind × ModeId) :=
  if indexed.index.isEmpty then indexed.table.kinds else indexed.index

/- The mode of a kind, looked up in the index. -/
def intern (kind : ModeKind) : ModeId × IndexedTable :=
  match indexed.usedIndex.lookup kind with
  | some mode => (mode, ⟨indexed.table, indexed.usedIndex⟩)
  | none =>
    let mode := indexed.table.modes.nextHandle
    (mode, ⟨{ indexed.table with modes := indexed.table.modes.push ⟨kind, none⟩ },
      (kind, mode) :: indexed.usedIndex⟩)

/- The table that is read from the text of a table. -/
def reread? : Option IndexedTable := do
  let json ← Json.parse? indexed.table.toJson.pretty
  let table ← ModeTable.ofJson? json
  pure ⟨table, []⟩

/- The answer to a request, and the table after it. -/
def perform (request : Request) : Option (Option ModeId × IndexedTable) :=
  match request.kind? with
  | some kind => some ((indexed.intern kind).map some id)
  | none => indexed.reread?.map fun next => (none, next)

/- The modes that requests give, and the table after them. -/
def run (indexed : IndexedTable) : List Request → Option (List ModeId × IndexedTable)
  | [] => some ([], indexed)
  | request :: requests => do
    let (answer, next) ← indexed.perform request
    let (answers, last) ← next.run requests
    pure (answer.toList ++ answers, last)

/- The index is that of the table, or has to be made again. -/
def IsFaithful : Prop :=
  indexed.index = [] ∨ indexed.index = indexed.table.kinds

end IndexedTable

------ One Request

namespace ModeTable

variable {kind : ModeKind}

theorem find?_eq_lookup (table : ModeTable) (kind : ModeKind) :
    table.find? kind = table.kinds.lookup kind := by
  unfold find? kinds
  induction table.modes.toList.reverse with
  | nil => rfl
  | cons entry entries ih =>
    rw [find?_cons, map_cons, lookup_cons]
    by_cases hKind : entry.2.kind = kind
    · simp [hKind]
    · have hOther : (kind == entry.2.kind) = false := by simpa using Ne.symm hKind
      simp [beq_eq_false_iff_ne.mpr hKind, hOther, ih]

theorem kinds_push (table : ModeTable) (entry : Mode) :
    { table with modes := table.modes.push entry }.kinds =
      (entry.kind, table.modes.nextHandle) :: table.kinds := by
  simp [kinds, Store.toList, Store.handles, Store.push, Store.size, Store.nextHandle,
    range_succ, zip_append]

theorem kind_of_find? (hFound : table.find? kind = some mode) : table.kind mode = .ok kind := by
  rcases Option.map_eq_some_iff.mp hFound with ⟨⟨found, entry⟩, hEntry, rfl⟩
  have hMem := mem_of_find?_eq_some hEntry
  have hKind := find?_some hEntry
  rw [mem_reverse, Store.toList, mem_iff_getElem] at hMem
  rcases hMem with ⟨pos, hBound, hAt⟩
  simp only [Store.handles, getElem_zip, getElem_map, getElem_range] at hAt
  rcases hAt with ⟨rfl, rfl⟩
  have hRange : pos < table.modes.entries.size := by
    simpa [Store.handles, Store.size] using hBound
  refine kind_eq_ok.mpr ⟨_, Store.fetch_eq_ok.mpr (Array.getElem?_eq_getElem hRange), ?_⟩
  simpa using hKind

theorem interns_intern (table : ModeTable) (kind : ModeKind) :
    table.Interns kind (table.intern kind).1 (table.intern kind).2 := by
  unfold intern
  split
  · rename_i mode hFound
    have hKind := kind_of_find? hFound
    exact ⟨hKind, fun _ _ hEntry => hEntry, .inl ⟨rfl, hKind⟩⟩
  · rename_i hNone
    refine ⟨?_, ?_, .inr ⟨Store.size_push _ _, ?_⟩⟩
    · exact kind_eq_ok.mpr ⟨_, Store.fetch_eq_ok.mpr (Store.get?_push_nextHandle _ _), rfl⟩
    · intro old entry hEntry
      rw [Store.get?_push_of_lt _ _ (Array.getElem?_eq_some_iff.mp hEntry).1]
      exact hEntry
    · intro old hKind
      rcases kind_eq_ok.mp hKind with ⟨entry, hEntry, hSame⟩
      exact find?_eq_none hNone (Store.fetch_eq_ok.mp hEntry) hSame

theorem get?_internAll {mode : ModeId} (kinds : List ModeKind)
    (hEntry : table.modes.get? mode = some entry) :
    (table.internAll kinds).2.modes.get? mode = some entry := by
  induction kinds generalizing table with
  | nil => exact hEntry
  | cons kind kinds ih => exact ih ((table.interns_intern kind).kept mode entry hEntry)

theorem IsExtension.internAll (hTable : table.IsExtension) (kinds : List ModeKind) :
    (table.internAll kinds).2.IsExtension := by
  induction kinds generalizing table with
  | nil => exact hTable
  | cons kind kinds ih => exact ih (.intern hTable kind)

/- A table that fits goes on to do so with a kind that fits. -/
theorem Fits.intern (hTable : table.Fits) (hKind : kind.Fits) : (table.intern kind).2.Fits := by
  unfold ModeTable.intern
  split
  · exact hTable
  · refine ⟨?_, hTable.2⟩
    intro mode hMode
    rcases Array.mem_push.mp hMode with hOld | rfl
    · exact hTable.1 mode hOld
    · exact hKind

end ModeTable

namespace IndexedTable

variable {indexed : IndexedTable}

theorem usedIndex_eq (hFaithful : indexed.IsFaithful) :
    indexed.usedIndex = indexed.table.kinds := by
  unfold usedIndex
  split
  · rfl
  · rename_i hSome
    rcases hFaithful with hNone | hKinds
    · simp [hNone] at hSome
    · exact hKinds

/- The index changes nothing but the way a mode is found. -/
theorem intern_eq (hFaithful : indexed.IsFaithful) (kind : ModeKind) :
    ∃ next, indexed.intern kind = ((indexed.table.intern kind).1, next) ∧
      next.table = (indexed.table.intern kind).2 ∧ next.IsFaithful := by
  unfold intern ModeTable.intern
  rw [usedIndex_eq hFaithful, ModeTable.find?_eq_lookup]
  cases hFound : indexed.table.kinds.lookup kind with
  | some mode => exact ⟨⟨indexed.table, indexed.table.kinds⟩, rfl, rfl, .inr rfl⟩
  | none =>
    refine ⟨⟨_, _⟩, rfl, rfl, .inr ?_⟩
    exact (indexed.table.kinds_push ⟨kind, none⟩).symm

theorem reread?_eq (hFits : indexed.table.Fits) : indexed.reread? = some ⟨indexed.table, []⟩ := by
  simp [reread?, Json.parse?_pretty indexed.table.plain_toJson, ModeTable.ofJson?_toJson hFits]

------ Runs

/- A run gives the modes that the table gives by itself, and leaves the table that is left then. -/
theorem run_eq (hFaithful : indexed.IsFaithful) (hFits : indexed.table.Fits)
    (hKinds : ∀ kind ∈ requests.filterMap Request.kind?, kind.Fits) :
    ∃ last, indexed.run requests =
        some ((indexed.table.internAll (requests.filterMap Request.kind?)).1, last) ∧
      last.table = (indexed.table.internAll (requests.filterMap Request.kind?)).2 ∧
      last.IsFaithful ∧ last.table.Fits := by
  induction requests generalizing indexed with
  | nil => exact ⟨indexed, rfl, rfl, hFaithful, hFits⟩
  | cons request requests ih =>
    cases hKind : request.kind? with
    | none =>
      rw [filterMap_cons_none hKind] at hKinds ⊢
      have hEmpty : IsFaithful ⟨indexed.table, []⟩ := .inl rfl
      rcases ih hEmpty hFits hKinds with ⟨last, hRun, hLast⟩
      refine ⟨last, ?_, hLast⟩
      simp [run, perform, hKind, reread?_eq hFits, hRun]
    | some kind =>
      rw [filterMap_cons_some hKind] at hKinds ⊢
      rcases intern_eq hFaithful kind with ⟨next, hIntern, hTable, hNext⟩
      have hNextFits : next.table.Fits := by
        rw [hTable]
        exact hFits.intern (hKinds kind mem_cons_self)
      rcases ih hNext hNextFits (fun other hOther => hKinds other (mem_cons_of_mem _ hOther))
        with ⟨last, hRun, hLast⟩
      refine ⟨last, ?_, ?_⟩
      · simp [run, perform, hKind, hIntern, hRun, ModeTable.internAll, hTable]
      · simpa [ModeTable.internAll, hTable] using hLast

/-
  From the standard modes on, whatever is requested and however often the table is written and
  read in between, every request is answered as if the table had never been written. Then no two
  modes have one kind, a request gives a mode of its kind and adds an entry only if there was
  none, entries never change, and modes of one structure are one mode.
-/
theorem interning_invariant
    (requests more : List Request)
    (hFits : ∀ kind ∈ (requests ++ more).filterMap Request.kind?, kind.Fits) :
    ∃ answers reached others later,
      standard.run requests = some (answers, reached) ∧ reached.run more = some (others, later) ∧
      (answers, reached.table) =
        ModeTable.standardTable.internAll (requests.filterMap Request.kind?) ∧
      (∀ left right kind, reached.table.kind left = .ok kind →
        reached.table.kind right = .ok kind → left = right) ∧
      (∀ request kind, request.kind? = some kind → ∃ mode next,
        reached.perform request = some (some mode, next) ∧
        reached.table.Interns kind mode next.table) ∧
      reached.perform .reread = some (none, ⟨reached.table, []⟩) ∧
      (∀ mode entry, reached.table.modes.get? mode = some entry →
        later.table.modes.get? mode = some entry) ∧
      ∀ left right, reached.table.IsFinite left →
        (reached.table.SameStructure left right ↔ left = right) := by
  rw [List.filterMap_append] at hFits
  have hStandard : standard.IsFaithful := .inr rfl
  rcases run_eq hStandard (by decide)
    (fun kind hKind => hFits kind (List.mem_append_left _ hKind)) with
    ⟨reached, hRun, hReached, hFaithful, hTable⟩
  rcases run_eq hFaithful hTable (fun kind hKind => hFits kind (List.mem_append_right _ hKind))
    with ⟨later, hMore, hLater, -, -⟩
  have hExtension : reached.table.IsExtension := by
    rw [hReached]
    exact ModeTable.IsExtension.internAll .standard _
  have hUnique : ∀ {left right kind}, reached.table.kind left = .ok kind →
      reached.table.kind right = .ok kind → left = right := by
    intro left right kind hLeft hRight
    rcases ModeTable.kind_eq_ok.mp hLeft with ⟨first, hFirst, rfl⟩
    rcases ModeTable.kind_eq_ok.mp hRight with ⟨second, hSecond, hSame⟩
    exact hExtension.kind_inj (Store.fetch_eq_ok.mp hFirst) (Store.fetch_eq_ok.mp hSecond)
      hSame.symm
  refine ⟨_, reached, _, later, hRun, hMore, ?_, fun _ _ _ => hUnique, ?_, ?_, ?_, ?_⟩
  · rw [hReached]
    rfl
  · intro request kind hKind
    rcases intern_eq hFaithful kind with ⟨next, hIntern, hNext, -⟩
    have hPerform : reached.perform request = some (some (reached.table.intern kind).1, next) := by
      simp [perform, hKind, hIntern]
    refine ⟨_, next, hPerform, ?_⟩
    rw [hNext]
    exact reached.table.interns_intern kind
  · simp [perform, Request.kind?, reread?_eq hTable]
  · intro mode entry hEntry
    rw [hLater]
    exact ModeTable.get?_internAll _ hEntry
  · intro left right hFinite
    refine ⟨ModeTable.eq_of_sameStructure hUnique, ?_⟩
    rintro rfl
    exact hFinite.sameStructure

/- A structure asked for twice, with the table written in between. -/
theorem interning_invariant_pair :
    ∃ reached, standard.run [.row ⟨1⟩, .struct [("n", ⟨1⟩), ("row", ⟨14⟩)], .reread,
        .intern (.struct [⟨"n", ⟨1⟩⟩, ⟨"row", ⟨14⟩⟩]), .reference ⟨15⟩] =
      some ([⟨14⟩, ⟨15⟩, ⟨15⟩, ⟨16⟩], reached) := by
  rcases interning_invariant [.row ⟨1⟩, .struct [("n", ⟨1⟩), ("row", ⟨14⟩)], .reread,
    .intern (.struct [⟨"n", ⟨1⟩⟩, ⟨"row", ⟨14⟩⟩]), .reference ⟨15⟩] [] (by decide) with
    ⟨answers, reached, _, _, hRun, -, hAnswers, -⟩
  have hModes : answers = [⟨14⟩, ⟨15⟩, ⟨15⟩, ⟨16⟩] := congrArg Prod.fst hAnswers
  exact ⟨reached, hModes ▸ hRun⟩

end IndexedTable

end Algol68
