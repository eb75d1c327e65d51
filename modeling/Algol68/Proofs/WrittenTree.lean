import Mathlib.Data.List.Nodup
import Algol68.Tree.Json
import Algol68.Proofs.JsonText

/-
  Written trees are read back.

  A tree is written with the numbers it has, and its reader
  takes handles, lines and levels of half a word, offsets
  and sizes of a word and dimensions of a byte.

  Main declarations:
    * `SyntaxTree.read_written`
-/

------ Records

namespace Algol68

open List

namespace Json

variable {fields : List (String × Json)} {α : Type}

/- Each field of a record is found under its name. -/
theorem lookup_text (hNodup : (fields.map Prod.fst).Nodup) (hField : field ∈ fields) :
    (fields.map fun field => (Quoted.text field.1, field.2)).lookup
      (.text field.1) = some field.2 := by
  induction fields with
  | nil => simp at hField
  | cons first fields ih =>
    rw [map_cons, nodup_cons] at hNodup
    rcases mem_cons.mp hField with rfl | hLater
    · simp
    · have hOther : (Quoted.text field.1 == Quoted.text first.1) = false := by
        apply beq_eq_false_iff_ne.mpr
        intro hSame
        injection hSame with hName
        exact hNodup.1 (hName ▸ mem_map_of_mem hLater)
      rw [map_cons, lookup_cons, hOther]
      exact ih hNodup.2 hLater

theorem occurrences_le_one (hNodup : (fields.map Prod.fst).Nodup) (name : String) :
    occurrences name (fields.map fun field => (Quoted.text field.1, field.2)) ≤ 1 := by
  have hCount := nodup_iff_count_le_one.mp hNodup name
  rw [count, countP_map, countP_eq_length_filter] at hCount
  have hSame : ∀ field : String × Json, (Quoted.text field.1 == Quoted.text name) =
        (field.1 == name) := by
    intro field
    rw [Bool.eq_iff_iff, beq_iff_eq, beq_iff_eq, Quoted.text.injEq]
  simpa [occurrences, filter_map, Function.comp_def, hSame] using hCount

theorem record?_ofFields (hNames : fields.map Prod.fst = names) (hNodup : names.Nodup)
    (defaulted : Nat) :
    record? names defaulted (ofFields fields) = some (fields.map fun field => some field.2) := by
  subst hNames
  have hLookups : (fields.map Prod.fst).map (fun name =>
      (fields.map fun field => (Quoted.text field.1, field.2)).lookup (.text name)) =
      fields.map fun field => some field.2 := by
    rw [map_map]
    exact map_congr_left fun field hField => lookup_text hNodup hField
  have hNamed : (fields.map fun field => (Quoted.text field.1, field.2)).all isNamed = true := by
    simp [isNamed]
  have hOnce : ((fields.map Prod.fst).all fun name => occurrences name (fields.map fun field =>
        (Quoted.text field.1, field.2)) ≤ 1) = true := by
    simp [occurrences_le_one hNodup]
  simp [record?, ofFields, hNamed, hOnce, hLookups]

@[simp] theorem natBelow?_nat (hBelow : n < bound) : (nat n).natBelow? bound = some n := by
  simp [natBelow?, nat?, nat, hBelow,
    Decimal.natOfDigits?_toDigits (by decide : 1 < 10) (by decide)]

@[simp] theorem text?_text (content : String) : (text content).text? = some content := rfl

@[simp] theorem bareVariant?_text (name : String) : (text name).bareVariant? = some name := rfl

theorem listOf?_map (hDecode : ∀ item ∈ items, decode (encode item) = some item) :
    (Json.array (items.map encode)).listOf? decode = some items := by
  simp only [listOf?, array?, Option.bind_eq_bind, Option.bind_some]
  induction items with
  | nil => rfl
  | cons item items ih =>
    simp [hDecode item mem_cons_self, ih fun other hOther => hDecode other (.tail item hOther)]

/- So is a value that may be absent. -/
theorem optional?_option (hNull : ∀ item, encode item ≠ .null)
    (hDecode : ∀ item ∈ value, decode (encode item) = some item) :
    optional? decode (some (option encode value)) = some value := by
  cases value with
  | none => rfl
  | some item =>
    have hItem := hDecode item rfl
    simp only [optional?, option]
    unfold nullable?
    split
    · rename_i hVal
      exact absurd hVal (hNull item)
    · simp [hItem]

end Json

------ Sizes

namespace Handle

variable {entity : Type}

/- The number is one of half a word. -/
def Fits (handle : Handle entity) : Prop := handle.number < halfWord

instance (handle : Handle entity) : Decidable handle.Fits := inferInstanceAs (Decidable (_ < _))

/- A handle that may be absent has such a number. -/
def FitsIfAny (handle : Option (Handle entity)) : Prop := ∀ present ∈ handle, Fits present

instance (handle : Option (Handle entity)) : Decidable (FitsIfAny handle) :=
  inferInstanceAs (Decidable (∀ present ∈ handle, Fits present))

end Handle

namespace ModeKind

/- The numbers of a kind are in their ranges. -/
def Fits : ModeKind → Prop
  | .ref target => target.Fits
  | .row dims element => dims < byteBound ∧ element.Fits
  | .struct fields => ∀ field ∈ fields, field.mode.Fits
  | .union alternatives => ∀ alternative ∈ alternatives, alternative.Fits
  | .proc params result => (∀ param ∈ params, param.Fits) ∧ result.Fits
  | _ => True

instance : (kind : ModeKind) → Decidable kind.Fits
  | .ref target => inferInstanceAs (Decidable target.Fits)
  | .row _ _ => inferInstanceAs (Decidable (_ ∧ _))
  | .struct fields => inferInstanceAs (Decidable (∀ field ∈ fields, _))
  | .union alternatives => inferInstanceAs (Decidable (∀ alternative ∈ alternatives, _))
  | .proc _ _ => inferInstanceAs (Decidable (_ ∧ _))
  | .void | .int | .real | .bool | .char | .bits | .hip => inferInstanceAs (Decidable True)

end ModeKind

namespace ModeTable

/- The numbers of a table are in their ranges. -/
def Fits (table : ModeTable) : Prop :=
  (∀ mode ∈ table.modes.entries, mode.kind.Fits) ∧ ∀ entry ∈ table.standard.entries, entry.2.Fits

instance (table : ModeTable) : Decidable table.Fits := inferInstanceAs (Decidable (_ ∧ _))

end ModeTable

namespace Tag

/- The numbers of a tag are in their ranges. -/
def Fits (tag : Tag) : Prop :=
  tag.mode.Fits ∧ Handle.FitsIfAny tag.definingNode ∧
    Handle.FitsIfAny tag.value ∧ Handle.FitsIfAny tag.body ∧
      tag.level < halfWord ∧ tag.offset < fullWord

instance (tag : Tag) : Decidable tag.Fits := inferInstanceAs (Decidable (_ ∧ _))

end Tag

namespace ScopeTable

/- The numbers of a scope table are in their ranges. -/
def Fits (table : ScopeTable) : Prop :=
  table.level < halfWord ∧ Handle.FitsIfAny table.parent ∧ table.frameIncrement < fullWord

instance (table : ScopeTable) : Decidable table.Fits := inferInstanceAs (Decidable (_ ∧ _))

end ScopeTable

namespace Node

/- The numbers of a node are in their ranges. -/
def Fits (node : Node) : Prop :=
  Handle.FitsIfAny node.mode ∧ Handle.FitsIfAny node.tag ∧
    Handle.FitsIfAny node.table ∧ node.line < halfWord ∧
      Handle.FitsIfAny node.sub ∧ Handle.FitsIfAny node.next

instance (node : Node) : Decidable node.Fits := inferInstanceAs (Decidable (_ ∧ _))

end Node

namespace SyntaxTree

/- The numbers of a tree are in their ranges. -/
def Fits (tree : SyntaxTree) : Prop :=
  (∀ node ∈ tree.nodes.entries, node.Fits) ∧ tree.modes.Fits ∧
    (∀ tag ∈ tree.tags.entries, tag.Fits) ∧ (∀ table ∈ tree.tables.entries, table.Fits) ∧
        Handle.FitsIfAny tree.root

instance (tree : SyntaxTree) : Decidable tree.Fits := inferInstanceAs (Decidable (_ ∧ _))

end SyntaxTree

------ Reading Back

open Json

namespace Handle

variable {entity : Type}

@[simp] theorem ofJson?_toJson (hFits : handle.Fits) :
    ofJson? handle.toJson = some handle := by
  simp [ofJson?, toJson, natBelow?_nat hFits]

@[simp] theorem optional?_toJson (hFits : FitsIfAny handle) :
    optional? ofJson? (some (option toJson handle)) = some handle :=
  optional?_option (fun _ => by simp [toJson, Json.nat])
    fun present hPresent => ofJson?_toJson (hFits present hPresent)

end Handle

namespace Store

variable {entity α : Type}

theorem ofJson?_toJson {store : Store entity α}
    (hDecode : ∀ entry ∈ store.entries, decode (encode entry) = some entry) :
    ofJson? decode (store.toJson encode) = some store := by
  have hList := listOf?_map fun entry hEntry => hDecode entry (Array.mem_toList_iff.mp hEntry)
  simp [ofJson?, toJson, hList]

end Store

theorem Field.ofJson?_toJson (hFits : field.mode.Fits) : ofJson? field.toJson = some field := by
  unfold ofJson? toJson
  rw [record?_ofFields]
  · simp [required?, hFits]
  · rfl
  · decide

namespace ModeKind

theorem ofJson?_ofFields (hNull : carried ≠ .null) :
    ofJson? (ofFields [(name, carried)]) = carrierOfJson? name carried := by
  unfold ofJson? ofFields
  simp [variant?]

theorem ofJson?_toJson (hFits : kind.Fits) : ofJson? kind.toJson = some kind := by
  cases kind with
  | ref target =>
    rw [toJson, ofJson?_ofFields (by simp [Handle.toJson, Json.nat])]
    simp [carrierOfJson?, show target.Fits from hFits]
  | row dims elem =>
    rw [toJson, ofJson?_ofFields (by simp [ofFields])]
    change rowOfJson? _ = _
    rw [rowOfJson?, record?_ofFields]
    · simp [required?, hFits.1, hFits.2]
    · rfl
    · decide
  | struct fields =>
    rw [toJson, ofJson?_ofFields (by simp)]
    have hList := listOf?_map fun field hField => Field.ofJson?_toJson (hFits field hField)
    simp [carrierOfJson?, hList]
  | union alternatives =>
    rw [toJson, ofJson?_ofFields (by simp)]
    have hList := listOf?_map fun alternative hMem =>
      Handle.ofJson?_toJson (hFits alternative hMem)
    simp [carrierOfJson?, hList]
  | proc params res =>
    have hList := listOf?_map fun param hParam => Handle.ofJson?_toJson (hFits.1 param hParam)
    rw [toJson, ofJson?_ofFields (by simp [ofFields])]
    change procOfJson? _ = _
    rw [procOfJson?, record?_ofFields]
    · simp [required?, hList, hFits.2]
    · rfl
    · decide
  | _ => rfl

end ModeKind

theorem Mode.ofJson?_toJson (hFits : mode.kind.Fits) : ofJson? mode.toJson = some mode := by
  have hName : optional? text? (some (option .text mode.name)) = some mode.name :=
    optional?_option (fun _ => by simp [Json.text]) fun _ _ => rfl
  unfold ofJson? toJson
  rw [record?_ofFields]
  · simp [required?, ModeKind.ofJson?_toJson hFits, hName]
  · rfl
  · decide

theorem StandardModes.ofJson?_toJson (hFits : ∀ entry ∈ standard.entries, entry.2.Fits) :
    ofJson? standard.toJson = some standard := by
  have hEach : ∀ entry ∈ standard.entries, Handle.ofJson? entry.2.toJson = some entry.2 :=
    fun entry hEntry => Handle.ofJson?_toJson (hFits entry hEntry)
  simp only [entries, forall_mem_cons] at hEach
  unfold ofJson? toJson
  rw [record?_ofFields]
  · simp [entries, required?, hEach]
  · rfl
  · decide

theorem ModeTable.ofJson?_toJson (hFits : table.Fits) : ofJson? table.toJson = some table := by
  have hModes := Store.ofJson?_toJson fun mode hMode => Mode.ofJson?_toJson (hFits.1 mode hMode)
  unfold ofJson? toJson
  rw [record?_ofFields]
  · simp [required?, hModes, StandardModes.ofJson?_toJson hFits.2]
  · rfl
  · decide

@[simp] theorem Builtin.ofSpelling?_spelling (builtin : Builtin) :
    ofSpelling? builtin.spelling = some builtin := by
  cases builtin <;> decide +kernel

theorem Tag.ofJson?_toJson (hFits : tag.Fits) : ofJson? tag.toJson = some tag := by
  rcases hFits with ⟨hMode, hDefining, hVal, hBody, hLevel, hOffset⟩
  have hBuiltin : optional? (fun json => json.bareVariant?.bind Builtin.ofSpelling?)
      (some (option (fun builtin => .text builtin.spelling) tag.builtin)) = some tag.builtin :=
    optional?_option (fun _ => by simp [Json.text])
      fun builtin _ => Builtin.ofSpelling?_spelling builtin
  unfold ofJson? toJson
  rw [record?_ofFields]
  · simp [required?, hMode, hDefining, hVal, hBody, hBuiltin, hLevel, hOffset]
  · rfl
  · decide

theorem ScopeTable.ofJson?_toJson (hFits : table.Fits) : ofJson? table.toJson = some table := by
  rcases hFits with ⟨hLevel, hParent, hIncrement⟩
  unfold ofJson? toJson
  rw [record?_ofFields]
  · simp [required?, bool?, hLevel, hParent, hIncrement]
  · rfl
  · decide

theorem Node.markingOfJson?_toJson (marking : Marking) :
    markingOfJson? (some marking.toJson) = some marking := by
  cases marking <;> rfl

theorem Node.ofJson?_toJson (hFits : node.Fits) : ofJson? node.toJson = some node := by
  rcases hFits with ⟨hMode, hTag, hTable, hLine, hSub, hNext⟩
  unfold ofJson? toJson
  rw [record?_ofFields]
  · simp [required?, hMode, hTag, hTable, hLine, hSub, hNext, markingOfJson?_toJson]
  · rfl
  · decide

/- A tree is found in its written form. -/
theorem SyntaxTree.ofJson?_toJson (hFits : tree.Fits) : ofJson? tree.toJson = some tree := by
  rcases hFits with ⟨hNodes, hModes, hTags, hTables, hRoot⟩
  have hNodeStore := Store.ofJson?_toJson fun node hNode => Node.ofJson?_toJson (hNodes node hNode)
  have hTagStore := Store.ofJson?_toJson fun tag hTag => Tag.ofJson?_toJson (hTags tag hTag)
  have hTableStore := Store.ofJson?_toJson fun table hTable =>
    ScopeTable.ofJson?_toJson (hTables table hTable)
  unfold ofJson? toJson
  rw [record?_ofFields]
  · simp [required?, hNodeStore, hTagStore, hTableStore, ModeTable.ofJson?_toJson hModes, hRoot]
  · rfl
  · decide

------ Written Texts

namespace Json

namespace Plain

variable {α : Type}

attribute [simp] nat bool

@[simp] theorem ofFields (hFields : ∀ field ∈ fields, Plain field.2) : Plain (ofFields fields) := by
  apply object
  intro entry hEntry
  rcases mem_map.mp hEntry with ⟨field, hField, rfl⟩
  exact hFields field hField

@[simp] theorem option (hEncode : ∀ item, Plain (encode item)) (val : Option α) :
    Plain (option encode val) := by
  cases val with
  | none => exact null
  | some item => exact hEncode item

@[simp] theorem list (hEncode : ∀ item, Plain (encode item)) (items : List α) :
    Plain (.array (items.map encode)) := by
  apply array
  intro json hJson
  rcases mem_map.mp hJson with ⟨item, -, rfl⟩
  exact hEncode item

@[simp] theorem text (content : String) : Plain (text content) := string _

end Plain

end Json

open Json

@[simp] theorem Handle.plain_toJson (handle : Handle entity) : Plain handle.toJson := .nat _

@[simp] theorem Field.plain_toJson (field : Field) : Plain field.toJson := by simp [toJson]

@[simp] theorem ModeKind.plain_toJson (kind : ModeKind) : Plain kind.toJson := by
  cases kind with
  | proc params res =>
    apply Plain.ofFields
    simp
  | _ => simp [toJson]

@[simp] theorem Mode.plain_toJson (mode : Mode) : Plain mode.toJson := by simp [toJson]

@[simp] theorem ModeTable.plain_toJson (table : ModeTable) : Plain table.toJson := by
  simp [toJson, Store.toJson, StandardModes.toJson, StandardModes.entries]

@[simp] theorem Tag.plain_toJson (tag : Tag) : Plain tag.toJson := by simp [toJson]

@[simp] theorem ScopeTable.plain_toJson (table : ScopeTable) : Plain table.toJson := by
  simp [toJson]

@[simp] theorem Marking.plain_toJson (marking : Marking) : Plain marking.toJson := by
  cases marking <;> simp [toJson]

@[simp] theorem Node.plain_toJson (node : Node) : Plain node.toJson := by simp [toJson]

namespace SyntaxTree

theorem plain_toJson (tree : SyntaxTree) : Plain tree.toJson := by simp [toJson, Store.toJson]

/-
  The text of a tree holds its written form and nothing else,
  and the tree is read from it as it was.
-/
theorem read_written
    (tree : SyntaxTree)
    (hFits : tree.Fits) :
    Json.parse? tree.write = some tree.toJson ∧ read? tree.write = some tree := by
  have hParse : Json.parse? tree.write = some tree.toJson := parse?_pretty tree.plain_toJson
  refine ⟨hParse, ?_⟩
  simp [read?, hParse, ofJson?_toJson hFits]

/- A tree with the greatest numbers and the odd characters. -/
def outermost : SyntaxTree where
  nodes :=
    ⟨#[
      { attr := .serialClause
        mode := some ⟨halfWord - 1⟩
        tag := some ⟨halfWord - 1⟩
        table := some ⟨halfWord - 1⟩
        symbol := "\"\\/\n\t\r\x01\x08\x0c\x1f\x7fé\u20ac𝄞"
        line := halfWord - 1
        sub := some ⟨halfWord - 1⟩
        next := some ⟨halfWord - 1⟩
        marking := .compiled "\"" },
      { attr := .loopClause, marking := .notGenerated }]⟩
  modes :=
    { ModeTable.standardTable with
      modes :=
        ⟨#[⟨.hip, some ""⟩, ⟨.row (byteBound - 1) ⟨0⟩, none⟩,
          ⟨.struct [⟨"\\", ⟨halfWord - 1⟩⟩], some "ß"⟩,
          ⟨.union [⟨0⟩, ⟨1⟩], none⟩, ⟨.union [], none⟩,
          ⟨.proc [⟨halfWord - 1⟩] ⟨0⟩, none⟩]⟩ }
  tags :=
    ⟨#[
      { name := "_"
        mode := ⟨halfWord - 1⟩
        kind := .standard
        definingNode := some ⟨halfWord - 1⟩
        builtin := some .random
        level := halfWord - 1
        offset := fullWord - 1 }]⟩
  tables :=
    ⟨#[
      { level := halfWord - 1
        parent := some ⟨halfWord - 1⟩
        frameIncrement := fullWord - 1
        hasRoutines := true }]⟩
  root := none

theorem read_written_outermost : outermost.Fits ∧ read? outermost.write = some outermost :=
  have hFits : outermost.Fits := by decide
  ⟨hFits, (read_written outermost hFits).2⟩

end SyntaxTree

end Algol68
