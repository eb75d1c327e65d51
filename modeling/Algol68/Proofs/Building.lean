import Algol68.Proofs.FrameSlots

/-
  Every construction of a tree. The nodes have the children that they were built from, and the
  tags have their places in the frames of the scopes that they were declared in.
-/

------ Records of Constructions

namespace Algol68.TreeBuilder

open List

/-
  What a construction was given: nodes with their children, the open scopes, and tags with the
  scopes they were declared in. The latest comes first.
-/
structure Record where
  nodes : List (NodeId × List NodeId) := []
  scope : TableId := ⟨0⟩
  outerScopes : List TableId := []
  declared : List (TableId × Room) := []

namespace Record

/- A node above children. -/
def add (kids : List NodeId) (id : NodeId) (record : Record) : Record :=
  { record with nodes := (id, kids) :: record.nodes }

def next (record : Record) : NodeId := ⟨record.nodes.length⟩

/- A node that an operation adds besides the one it gives. -/
def part (record : Record) (kids : List NodeId) : Record := record.add kids record.next

/- A node, and parts that are added before it. Both may have parts among their children. -/
def above (made : (Nat → NodeId) → List (List NodeId) × List NodeId) (id : NodeId)
    (record : Record) : Record :=
  let (parts, kids) := made fun pos => ⟨record.nodes.length + pos⟩
  (parts.foldl part record).add kids id

def declare (room : Room) (record : Record) : Record :=
  { record with declared := (record.scope, room) :: record.declared }

def enter (table : TableId) (record : Record) : Record :=
  { record with scope := table, outerScopes := record.scope :: record.outerScopes }

/- The outermost scope stays open. -/
def leave (record : Record) : Record :=
  match record.outerScopes with
  | [] => record
  | outer :: rest => { record with scope := outer, outerScopes := rest }

end Record

/- The children of the parts of a loop. -/
def loopChildren (parts : LoopParts) : List (List NodeId) :=
  parts.counter.toList.map (fun _ => []) ++ [parts.start, parts.step, parts.upper, parts.lower,
    parts.guard, parts.body, parts.stop].flatMap fun unit => unit.toList.map ([·])

------ Operations

/- The operations of a builder, with the record that their answer makes of the one before. -/
inductive Operation : {α : Type} → Build α → (α → Record → Record) → Prop
  | setLine : Operation (setLine number) fun _ record => record
  | intern : Operation (intern kind) fun _ record => record
  | standardTag : Operation (standardTag builtin) fun _ record => record
  | node : Operation (addNode attr mode kids) (.add kids)
  | otherDeclaration : Operation (otherDeclaration attr name) (.add [])
  | denoter : Operation (denoter text mode) (.add [])
  | identifier : Operation (identifier tag) (.add [])
  | standard : Operation (standard builtin) (.add [])
  | jump : Operation (jump tag) (.add [])
  | nil : Operation (nil mode) (.add [])
  | skip : Operation (skip mode) (.add [])
  | generator : Operation (generator mode) (.add [])
  | dereference : Operation (dereference operand) (.add [operand])
  | deprocedure : Operation (deprocedure operand) (.add [operand])
  | cast : Operation (TreeBuilder.cast mode operand) (.add [operand])
  | widen : Operation (widen operand mode) (.add [operand])
  | void : Operation (void operand) (.add [operand])
  | unite : Operation (unite operand mode) (.add [operand])
  | closed : Operation (closed clause) (.add [clause])
  | assign : Operation (assign destination source) (.add [destination, source])
  | call : Operation (call callee arguments mode) (.add (callee :: arguments))
  | collateral : Operation (collateral units mode) (.add units)
  | formula : Operation (formula left builtin right)
    (.above fun part => ([[]], [left, part 0, right]))
  | userFormula : Operation (userFormula left tag right mode)
    (.above fun part => ([[]], [left, part 0, right]))
  | identityRelation : Operation (identityRelation left same right)
    (.above fun part => ([[]], [left, part 0, right]))
  | monadic : Operation (monadic builtin operand) (.above fun part => ([[]], [part 0, operand]))
  | callBuiltin : Operation (callBuiltin builtin arguments)
    (.above fun part => ([[]], part 0 :: arguments))
  | selection : Operation (selection field operand) (.above fun part => ([[]], [part 0, operand]))
  | slice : Operation (slice primary indices) (.above fun part => ([indices], [primary, part 0]))
  | trimmedSlice : Operation (trimmedSlice primary)
    (.above fun part => ([[], [part 0]], [primary, part 1]))
  | conditional : Operation (conditionalNode attr test yes none)
    (.above fun part => ([[test], [yes]], [part 0, part 1]))
  | conditionalElse : Operation (conditionalNode attr test yes (some (.otherwise no)))
    (.above fun part => ([[test], [yes], [no]], [part 0, part 1, part 2]))
  | conditionalElif : Operation (conditionalNode attr test yes (some (.elif no)))
    (.above fun part => ([[test], [yes]], [part 0, part 1, no]))
  | case : Operation (caseNode attr selector units none)
    (.above fun part => ([[selector], units], [part 0, part 1]))
  | caseOut : Operation (caseNode attr selector units (some (.out last)))
    (.above fun part => ([[selector], units, [last]], [part 0, part 1, part 2]))
  | caseOuse : Operation (caseNode attr selector units (some (.ouse last)))
    (.above fun part => ([[selector], units], [part 0, part 1, last]))
  | loop : Operation (loop parts)
    (.above fun part => (loopChildren parts, (range (loopChildren parts).length).map part))
  | openScope : Operation openScope .enter
  | serial : Operation (serial items) fun id record => record.leave.add items id
  | routineText : Operation (routineText mode body) fun id record => record.leave.add [body] id
  | identityDeclaration : Operation (identityDeclaration name mode source) fun made record =>
    (record.declare (.tag made.2 true)).add [source] made.1
  | variableDeclaration : Operation (variableDeclaration name mode init) fun made record =>
    ((record.declare (.tag made.2 true)).declare (.object mode)).add init.toList made.1
  | procedureDeclaration : Operation (procedureDeclaration name routine) fun made record =>
    (record.declare (.tag made.2 true)).add [routine] made.1
  | label : Operation (label name) fun made record =>
    (record.declare (.tag made.2 false)).add [] made.1
  | parameter : Operation (parameter name mode) fun id => .declare (.tag id true)
  | loopCounter : Operation (loopCounter name) fun id => .declare (.tag id true)
  | operatorTag : Operation (operatorTag name mode) fun id => .declare (.tag id false)
  | program : Operation (program clause) fun _ record => record.part [clause]

/- Constructions, with their records. -/
inductive Construction : Record → TreeBuilder → Prop
  | empty : Construction {} .empty
  | step {next : TreeBuilder} (hBefore : Construction record builder)
      (hOperation : Operation step made) (hRun : step.run builder = .ok (answer, next)) :
      Construction (made answer record) next

------ What Operations Keep

/- A builder is in the state that a record tells. -/
structure Record.Fits (record : Record) (builder : TreeBuilder) : Prop where
  scope : builder.scope = record.scope
  outer : builder.outerScopes = record.outerScopes
  size : builder.tree.nodes.size = record.nodes.length
  links : (record.nodes.flatMap Prod.snd).Nodup → Links builder.tree.nodes record.nodes
  frames : Frames record.declared builder.tree.tables builder.tree.tags builder.tree.modes

/-
  From a builder that fits a record, a step leads to one that fits a later record. Instances put
  together what the steps of an operation do.
-/
class Does (step : Build α) (post : outParam (α → Record → Record → Prop)) : Prop where
  meets : ∀ record builder, record.Fits builder → Step.Meets False step builder fun answer next =>
    ∃ later, post answer record later ∧ later.Fits next

/- A step that leaves the record as it is. -/
abbrev Silent (step : Build α) : Prop := Does step fun _ record later => later = record

theorem Does.mono {step : Build α} (hDoes : Does step strong)
    (hWeak : ∀ answer record later, strong answer record later → weak answer record later) :
    Does step weak := by
  refine ⟨fun record builder hFits => .mono (hDoes.meets record builder hFits) ?_⟩
  rintro answer next ⟨later, hStrong, hNext⟩
  exact ⟨later, hWeak answer record later hStrong, hNext⟩

instance : Silent get := ⟨fun _ _ hFits => ⟨_, rfl, hFits⟩⟩

instance : Silent modes := ⟨fun _ _ hFits => ⟨_, rfl, hFits⟩⟩

instance (val : α) : Does (pure val) fun answer record later => answer = val ∧ later = record :=
  ⟨fun _ _ hFits => ⟨_, ⟨rfl, rfl⟩, hFits⟩⟩

instance (walk : Walk α) : Silent (liftM walk) := by
  refine ⟨fun record builder hFits => .of_lift ?_⟩
  cases walk with
  | ok => exact ⟨_, rfl, hFits⟩
  | error => exact False.elim

instance {rest : α → Build β} {second : α → β → Record → Record → Prop} [hStep : Does step first]
    [hRest : ∀ answer, Does (rest answer) (second answer)] :
    Does (step >>= rest) fun last record later => ∃ answer mid,
      first answer record mid ∧ second answer last mid later := by
  refine ⟨fun record builder hFits => .bind (hStep.meets record builder hFits) ?_⟩
  rintro answer next ⟨mid, hMid, hNext⟩
  refine .mono ((hRest answer).meets mid next hNext) ?_
  rintro last _ ⟨later, hLater, hLast⟩
  exact ⟨later, ⟨answer, mid, hMid, hLater⟩, hLast⟩

instance [Decidable condition] {yes no : Build α} [hYes : Does yes first] [hNo : Does no second] :
    Does (if condition then yes else no) fun answer record later =>
      first answer record later ∨ second answer record later := by
  split
  · exact hYes.mono fun _ _ _ => .inl
  · exact hNo.mono fun _ _ _ => .inr

instance : Silent (intern kind) := ⟨fun _ builder hFits => ⟨_, rfl, { hFits with
  frames := hFits.frames.mono (.refl _) (builder.tree.modes.extends_intern kind) }⟩⟩

instance (tag : Tag) : Does (pushTag tag) fun _ record later => later = record :=
  ⟨fun _ _ hFits => ⟨_, rfl, { hFits with frames := hFits.frames.mono (.push _ tag) (.refl _) }⟩⟩

instance : Silent (standardTag builtin) := by
  have hModify : ∀ change : TreeBuilder → List (Builtin × TagId), Silent
      (modify fun builder => { builder with standardTags := change builder }) :=
    fun _ => ⟨fun _ _ hFits => ⟨_, rfl, { hFits with }⟩⟩
  refine ⟨fun record builder hFits => .get_bind ?_⟩
  split
  · exact ⟨_, rfl, hFits⟩
  · refine (?_ : Silent _).meets record builder hFits
    simp only [builtinMode]
    exact .mono inferInstance (by grind)

variable {record : Record} {builder : TreeBuilder} {kids : List NodeId} {node : Node}
  {nodes : Store NodeEntity Node}

/- A step that adds a node above children and gives it. -/
abbrev AddsNode (step : Build NodeId) (kids : List NodeId) : Prop :=
  Does step fun id record later => id = record.next ∧ later = record.part kids

instance : AddsNode (addNode attr mode kids symbol tag) kids := by
  refine ⟨fun record builder hFits => .bind linkSiblings_meets ?_⟩
  rintro _ _ ⟨nodes, rfl, hSize, hRelinks⟩
  have hNew : nodes.nextHandle = record.next := congrArg Handle.mk (hSize.trans hFits.size)
  refine ⟨_, ⟨hNew, rfl⟩, { hFits with size := ?_, links := ?_ }⟩
  · exact (Store.size_push _ _).trans (congrArg Nat.succ (hSize.trans hFits.size))
  · intro hNodup
    have hLinks := hFits.links (nodup_append.mp hNodup).2.1
    exact Eq.mp (by rw [hNew]; rfl) (hLinks.push hRelinks rfl rfl hNodup)

instance {id : NodeId} {table : TableId} :
    Silent (modifyNode id fun node => { node with table := table }) := by
  refine ⟨fun record builder hFits => .mono modifyNode_meets ?_⟩
  rintro _ _ ⟨nodes, node, rfl, hSize, hNode, hGet⟩
  refine ⟨_, rfl, { hFits with size := hSize.trans hFits.size, links := ?_ }⟩
  intro hNodup
  rcases hFits.links hNodup with ⟨hListed, hSub, hNext, hTarget, hSource, rank, hFalls⟩
  have hOld : ∀ down left right, Leads nodes down left right →
      Leads builder.tree.nodes down left right := by
    rintro down left right ⟨found, hFound, hRight⟩
    grind [Leads]
  clear hNodup
  refine ⟨?_, ?_, ?_, ?_, ?_, rank, ?_⟩ <;> grind

instance : Does openScope fun table record later => later = record.enter table := by
  refine ⟨fun record builder hFits => .get_bind (.walk_bind False.elim ?_)⟩
  intro outer hOuter
  refine ⟨_, rfl, { hFits with scope := rfl, outer := ?_, frames := ?_ }⟩
  · exact congrArg₂ cons hFits.scope hFits.outer
  · exact hFits.frames.opened (Store.fetch_eq_ok.mp hOuter)

instance : Does closeScope fun _ record later => later = record.leave := by
  refine ⟨fun record builder hFits => .get_bind ?_⟩
  unfold Record.leave
  rw [← hFits.outer]
  cases builder.outerScopes with
  | nil => exact ⟨_, rfl, hFits⟩
  | cons outer rest => exact ⟨_, rfl, { hFits with scope := rfl, outer := rfl }⟩

------ Declarations

theorem modifyTable_meets {table : TableId} {change : ScopeTable → ScopeTable} (bytes : Nat)
    (hChange : ∀ table,
      (change table).level = table.level ∧ (change table).parent = table.parent ∧
        (change table).frameIncrement = table.frameIncrement + bytes) :
    Step.Meets False (modifyTable table change) builder fun _ next => ∃ tables,
      Grows builder.tree.tables tables table bytes ∧
      next = { builder with tree := { builder.tree with tables := tables } } := by
  refine .get_bind (.walk_bind False.elim ?_)
  intro tables hTables
  rcases Store.modify_eq_ok hTables with ⟨-, entry, hEntry, hGet⟩
  rcases hChange entry with ⟨hLevel, hParent, hFrame⟩
  exact ⟨tables, ⟨entry, change entry, hEntry, hLevel, hParent, hFrame, hGet⟩, rfl⟩

instance {table : TableId} :
    Silent (modifyTable table fun entry => { entry with hasRoutines := true }) := by
  refine ⟨fun record builder hFits => .mono (modifyTable_meets 0 fun _ => ⟨rfl, rfl, rfl⟩) ?_⟩
  rintro _ _ ⟨tables, hGrows, rfl⟩
  exact ⟨_, rfl, { hFits with frames := hFits.frames.kept hGrows }⟩

instance {id : TagId} {node value body : Tag → Option NodeId} : Silent (modifyTag id fun entry =>
    { entry with definingNode := node entry, value := value entry, body := body entry }) := by
  refine ⟨fun record builder hFits => .get_bind (.walk_bind False.elim ?_)⟩
  intro tags hTags
  rcases Store.modify_eq_ok hTags with ⟨-, entry, hEntry, hGet⟩
  refine ⟨_, rfl, { hFits with frames := hFits.frames.mono ?_ (.refl _) }⟩
  intro other old hOld
  rw [hGet]
  split
  · rename_i hOther
    cases hEntry.symm.trans (hOther ▸ hOld)
    exact ⟨_, _, _, rfl⟩
  · exact ⟨_, _, _, hOld⟩

theorem reserve_meets : Step.Meets False (reserve mode) builder fun _ next => ∃ bytes tables,
    builder.tree.modes.byteSize mode = .ok bytes ∧
    Grows builder.tree.tables tables builder.scope bytes ∧
    next = { builder with tree := { builder.tree with tables := tables } } := by
  refine .get_bind (.walk_bind False.elim ?_)
  intro bytes hBytes
  refine .mono (modifyTable_meets bytes fun _ => ⟨rfl, rfl, rfl⟩) ?_
  rintro _ _ ⟨tables, hGrows, rfl⟩
  exact ⟨bytes, tables, hBytes, hGrows, rfl⟩

theorem Record.Fits.declare (hFits : record.Fits builder) (hTags : Keeps builder.tree.tags tags)
    (hGrows : Grows builder.tree.tables tables builder.scope bytes)
    (hSlot : ∀ table, builder.tree.tables.get? builder.scope = some table →
      HasSlot tags builder.tree.modes table.level room
        (table.frameIncrement, table.frameIncrement + bytes)) :
    (record.declare room).Fits
      { builder with tree := { builder.tree with tables := tables, tags := tags } } := by
  have hFrames := (hFits.frames.mono hTags (.refl _)).declare hGrows hSlot
  rw [hFits.scope] at hFrames
  exact { hFits with frames := hFrames }

instance : Does (reserve mode) fun _ record later => later = record.declare (.object mode) := by
  refine ⟨fun record builder hFits => .mono reserve_meets ?_⟩
  rintro _ _ ⟨bytes, tables, hBytes, hGrows, rfl⟩
  exact ⟨_, rfl, hFits.declare (.refl _) hGrows fun _ _ => ⟨bytes, hBytes, rfl⟩⟩

instance : Does (declareTag name mode kind (some mode)) fun id record later =>
    later = record.declare (.tag id true) := by
  refine ⟨fun record builder hFits => .get_bind (.walk_bind False.elim ?_)⟩
  intro table hTable
  refine .bind reserve_meets ?_
  rintro _ _ ⟨bytes, tables, hBytes, hGrows, rfl⟩
  refine ⟨_, rfl, hFits.declare (.push _ _) hGrows ?_⟩
  intro same hSame
  cases (Store.fetch_eq_ok.mp hTable).symm.trans hSame
  exact ⟨_, Store.get?_push_nextHandle _ _, rfl, rfl, bytes, hBytes, rfl⟩

instance : Does (declareTag name mode kind none) fun id record later =>
    later = record.declare (.tag id false) := by
  refine ⟨fun record builder hFits => .get_bind (.walk_bind False.elim ?_)⟩
  intro table hTable
  rw [Store.fetch_eq_ok] at hTable
  have hGrows : Grows builder.tree.tables builder.tree.tables builder.scope 0 :=
    ⟨table, table, hTable, rfl, rfl, rfl, by grind⟩
  refine ⟨_, rfl, hFits.declare (.push _ _) hGrows ?_⟩
  intro same hSame
  cases hTable.symm.trans hSame
  exact ⟨_, Store.get?_push_nextHandle _ _, rfl, rfl, rfl⟩

------ Every Operation

instance (id : Option NodeId) : Silent (id.mapM modeOf) := by
  cases id with
  | none | some =>
    simp only [Option.mapM_none, Option.mapM_some, map_eq_pure_bind, modeOf]
    exact .mono inferInstance (by grind)

/- A step that adds parts and gives them. -/
abbrev AddsParts (step : Build (List NodeId)) (parts : List (List NodeId)) : Prop :=
  Does step fun ids record later => later = parts.foldl .part record ∧
    ids = (range parts.length).map fun pos => ⟨record.nodes.length + pos⟩

instance {unit : Option NodeId} : AddsParts (loopPart attr unit) (unit.toList.map ([·])) := by
  cases unit with
  | none | some =>
    simp only [loopPart]
    exact .mono inferInstance (by simp +contextual [Record.next])

instance {counter : Option TagId} :
    AddsParts (forPart counter) (counter.toList.map fun _ => []) := by
  cases counter with
  | none | some =>
    simp only [forPart]
    exact .mono inferInstance (by simp +contextual [Record.next])

theorem Record.length_foldl (parts : List (List NodeId)) (record : Record) :
    (parts.foldl part record).nodes.length = record.nodes.length + parts.length := by
  induction parts generalizing record with
  | nil => rfl
  | cons kids rest ih => simp [ih, part, add]; omega

theorem does_of_operation (hOperation : Operation step made) :
    Does step fun answer record later => later = made answer record := by
  cases hOperation
  case setLine => exact ⟨fun _ _ hFits => ⟨_, rfl, { hFits with }⟩⟩
  case intern | standardTag | openScope => infer_instance
  case node => exact .mono inferInstance (by grind [Record.part])
  case loop =>
    simp only [loop]
    refine .mono inferInstance ?_
    intro id record later hMade
    simp only [and_assoc, exists_eq_left] at hMade
    rcases hMade with ⟨-, rfl, rfl⟩
    simp only [Record.above, loopChildren, flatMap_cons, flatMap_nil, append_nil, foldl_append,
      length_append, Record.length_foldl, range_add, map_append, map_map, Function.comp_def,
      append_assoc, Nat.add_assoc, Record.part]
  all_goals
    simp only [otherDeclaration, denoter, identifier, standard, occurrence, jump, TreeBuilder.nil,
      skip, generator, reference, dereference, deprocedure, TreeBuilder.cast, widen, void, unite,
      closed, assign, call, collateral, modeOf, formula, userFormula, identityRelation, monadic,
      callBuiltin, selection, slice, trimmedSlice, conditionalNode, conditionalParts, caseNode,
      caseParts, addPart, resultMode, serial, routineText, addScopeNode, identityDeclaration,
      variableDeclaration, procedureDeclaration, label, parameter, loopCounter, operatorTag,
      program, finish]
    exact .mono inferInstance (by grind [Record.above, Record.part, Record.next, Record.add])

theorem Construction.fits (hMade : Construction record builder) : record.Fits builder := by
  induction hMade with
  | empty =>
    refine ⟨rfl, rfl, rfl, fun _ => ?_, ?_⟩
    · constructor <;> simp [TreeBuilder.empty, Leads, Store.get?]
    · have hOnly : ∀ id table, TreeBuilder.empty.tree.tables.get? id = some table →
          id = ⟨0⟩ ∧ table = {} := by
        rintro ⟨_ | _⟩ table hTable <;> cases hTable
        exact ⟨rfl, rfl⟩
      constructor <;> grind [Fills, roomsOf]
  | step hBefore hOperation hRun ih =>
    rcases ((does_of_operation hOperation).meets _ _ ih).of_run hRun with ⟨_, rfl, hNext⟩
    exact hNext

/-
  A finished tree has every node with the children that it was built from, in their order, and its
  links form a forest, if no node was given twice.
-/
theorem Construction.children_eq_given (hMade : Construction record builder)
    (hOnce : (record.nodes.flatMap Prod.snd).Nodup) (root : Option NodeId) :
    let tree := { builder.tree with root := root }
    tree.IsForest ∧ (∀ id node, tree.node id = .ok node → ∃ kids, (id, kids) ∈ record.nodes) ∧
      ∀ id kids, (id, kids) ∈ record.nodes → tree.children id = .ok kids := by
  intro tree
  have hLinks : Links tree.nodes record.nodes := hMade.fits.links hOnce
  refine ⟨hLinks.isForest, ?_, ?_⟩
  · intro id node hNode
    exact hLinks.listed id node (Store.fetch_eq_ok.mp hNode)
  · intro id kids hKids
    exact hLinks.children_eq ((nodup_flatMap.mp hOnce).1 _ hKids) hKids

/- `7; 8`. -/
theorem Construction.children_eq_given_serial :
    ∃ tree : SyntaxTree, tree.IsForest ∧ tree.children ⟨4⟩ = .ok [⟨1⟩, ⟨3⟩] ∧
      tree.children ⟨1⟩ = .ok [⟨0⟩] ∧ tree.children ⟨3⟩ = .ok [⟨2⟩] := by
  have hFirst := Construction.empty.step (@Operation.denoter "7" ⟨1⟩) rfl
  have hVoided := hFirst.step (@Operation.void ⟨0⟩) rfl
  have hSecond := hVoided.step (@Operation.denoter "8" ⟨1⟩) rfl
  have hBoth := hSecond.step (@Operation.void ⟨2⟩) rfl
  have hSerial := hBoth.step (@Operation.serial [⟨1⟩, ⟨3⟩]) rfl
  rcases hSerial.children_eq_given (by decide) (some ⟨4⟩) with ⟨hForest, -, hKids⟩
  exact ⟨_, hForest, hKids ⟨4⟩ [⟨1⟩, ⟨3⟩] (by decide), hKids ⟨1⟩ [⟨0⟩] (by decide),
    hKids ⟨3⟩ [⟨2⟩] (by decide)⟩

/-
  The tags that were declared in a scope, and the objects of variables, lie in its frame one behind
  the other in the order of their declaration, and fill it. Tags and scopes have their levels.
-/
theorem Construction.slots_fill_frame (hMade : Construction record builder) (id : TableId)
    (hTable : builder.tree.tables.get? id = some table) :
    (∃ slots, Forall₂ (HasSlot builder.tree.tags builder.tree.modes table.level)
        (roomsOf record.declared id) slots ∧
      slots.Pairwise (fun slot earlier => earlier.2 ≤ slot.1) ∧
      ∀ pos, pos < table.frameIncrement ↔ ∃ slot ∈ slots, slot.1 ≤ pos ∧ pos < slot.2) ∧
    (table.parent = none → id = ⟨0⟩ ∧ table.level = 0) ∧
    ∀ parent, table.parent = some parent → ∃ outer,
      builder.tree.tables.get? parent = some outer ∧ table.level = outer.level + 1 := by
  have hFrames := hMade.fits.frames
  rcases (hFrames.fills id table hTable).slots with ⟨slots, hSlots, hApart, -, hCover⟩
  exact ⟨⟨slots, hSlots, hApart, hCover⟩, hFrames.outermost id table hTable,
    fun parent => hFrames.nested id table parent hTable⟩

theorem Construction.slots_fill_frame_variable :
    ∃ (tree : SyntaxTree) (slots : List (Nat × Nat)),
      Forall₂ (HasSlot tree.tags tree.modes 1) [.object ⟨1⟩, .tag ⟨0⟩ true] slots ∧
      ∀ pos, pos < 40 ↔ ∃ slot ∈ slots, slot.1 ≤ pos ∧ pos < slot.2 := by
  have hScope := Construction.empty.step .openScope rfl
  have hNumber := hScope.step (@Operation.variableDeclaration "x" ⟨1⟩ none) rfl
  rcases (hNumber.slots_fill_frame ⟨1⟩ rfl).1 with ⟨slots, hSlots, -, hCover⟩
  exact ⟨_, slots, hSlots, hCover⟩

end Algol68.TreeBuilder
