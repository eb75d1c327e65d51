import Algol68.Proofs.Compilation
import Algol68.Proofs.Labels

/-
  The names of functions.

  A function is named after the number of its node, or after the value of the constants that share
  it. Names of one kind tell their nodes or values apart, but the number of one identifier may
  spell the value of another.
-/

------ Kinds of Names

namespace Algol68

open List hiding after

variable {tree : SyntaxTree} {id : NodeId}

namespace Generator

variable {shape : String} {attr : Attribute}

/- A name made with the number of a node. -/
def HasOwnName (tree : SyntaxTree) (id : NodeId) (name : String) : Prop :=
  ∃ attr, tree.attr id = .ok attr ∧ functionName tree id attr.shortName = .ok name ∧
      ∀ node mode, ¬ IsConstantUnit tree id node mode

/- A name made with the value of a constant. -/
def HasConstantName (tree : SyntaxTree) (id : NodeId) (name : String) : Prop :=
  ∃ node mode value, IsConstantUnit tree id node mode ∧ FoldsTo tree id value ∧
      constantName tree node mode value = .ok name

/- A name with a word for a shape, words of a mode and a key. -/
def spelling (shape words key : String) : String := "_" ++ shape ++ "_" ++ words ++ "_" ++ key

/- What comes before the first separator of a text. -/
def firstWord (text : String) : List Char := text.toList.takeWhile (· != '_')

theorem toList_spelling (shape words key : String) :
    (spelling shape words key).toList = '_' :: (shape.toList ++
        '_' :: (words.toList ++ '_' :: key.toList)) := by
  simp [spelling]

/- The shapes of equal names begin with one word. -/
theorem firstWord_eq_of_spelling
    (hSame : spelling shape words key = spelling otherShape otherWords otherKey) :
    firstWord shape = firstWord otherShape := by
  have hCut : ∀ first rest : List Char, (first ++ '_' :: rest).takeWhile (· != '_') =
        first.takeWhile (· != '_') := by
    intro first rest
    induction first with
    | nil => rfl
    | cons c first ih => simp only [cons_append, takeWhile_cons, ih]
  have hLists := congrArg (fun text => text.toList.tail.takeWhile (· != '_')) hSame
  simp only [toList_spelling, tail_cons] at hLists
  rw [hCut, hCut] at hLists
  exact hLists

theorem words_append_key_eq_of_spelling
    (hSame : spelling shape words key = spelling shape otherWords otherKey) :
    words.toList ++ '_' :: key.toList = otherWords.toList ++ '_' :: otherKey.toList := by
  have hLists := congrArg String.toList hSame
  simpa [toList_spelling] using hLists

/- The keys in equal names, if they have no separator. -/
theorem key_eq_of_spelling (hKey : '_' ∉ key.toList) (hOther : '_' ∉ otherKey.toList)
    (hSame : spelling shape words key = spelling otherShape otherWords otherKey) :
    key = otherKey := by
  have hSplit : ∀ shape words key : String, (spelling shape words key).toList =
        ('_' :: (shape.toList ++ '_' :: words.toList)) ++ '_' :: key.toList := by
    simp [toList_spelling]
  have hLists := congrArg String.toList hSame
  rw [hSplit, hSplit] at hLists
  exact String.toList_inj.mp (Text.split_at_last hKey hOther hLists).2

/- The words of the mode in a name. -/
def ModeWords (tree : SyntaxTree) (mode : Option ModeId) (words : String) : Prop :=
  match mode with
  | some mode => tree.modes.codeName mode = .ok words
  | none => words = "void"

theorem functionName_eq (hName : functionName tree id shape = .ok name) :
    ∃ mode words, tree.mode? id = .ok mode ∧ ModeWords tree mode words ∧
        name = spelling shape words id.text := by
  rcases Walk.bind_eq_ok.mp hName with ⟨mode, hMode, hName⟩
  cases mode with
  | none =>
    cases hName
    exact ⟨none, "void", hMode, rfl, rfl⟩
  | some mode =>
    rcases Walk.bind_eq_ok.mp hName with ⟨words, hWords, hName⟩
    cases hName
    exact ⟨some mode, words, hMode, hWords, rfl⟩

theorem constantName_eq (hName : constantName tree node mode val = .ok name) :
    ∃ words, tree.modes.codeName mode = .ok words ∧
      name = spelling node.attr.shortName words val.key := by
  rcases Walk.bind_eq_ok.mp hName with ⟨words, hWords, hName⟩
  cases hName
  exact ⟨words, hWords, rfl⟩

theorem not_mem_text (id : NodeId) : '_' ∉ id.text.toList := by
  intro hMem
  exact absurd (Handle.isDigit_of_mem_text hMem) (by decide)

theorem own_inj (hFirst : HasOwnName tree id name) (hSecond : HasOwnName tree other name) :
    id = other := by
  rcases hFirst with ⟨attr, -, hName, -⟩
  rcases hSecond with ⟨otherAttr, -, hOther, -⟩
  rcases functionName_eq hName with ⟨_, words, -, -, rfl⟩
  rcases functionName_eq hOther with ⟨_, otherWords, -, -, hSame⟩
  exact Handle.text_injective (key_eq_of_spelling (not_mem_text id) (not_mem_text other) hSame)

theorem attr_eq_of_firstWord (hConst : constant = .denoter ∨ constant = .identifier)
    (hWord : firstWord attr.shortName = firstWord constant.shortName) : attr = constant := by
  rcases hConst with rfl | rfl
  · cases attr <;> first | rfl | exact absurd hWord (by decide)
  · cases attr <;> first | rfl | exact absurd hWord (by decide)

/- A name of both kinds is that of nodes of one attribute. -/
theorem attr_eq_of_names (hAttr : tree.attr id = .ok attr) (hOwn : HasOwnName tree id name)
    (hConst : HasConstantName tree other name) :
    tree.attr other = .ok attr ∧ (attr = .denoter ∨ attr = .identifier) := by
  rcases hOwn with ⟨ownAttr, hOwnAttr, hName, -⟩
  cases hAttr.symm.trans hOwnAttr
  rcases hConst with ⟨node, mode, val, hUnit, -, hOther⟩
  rcases functionName_eq hName with ⟨_, words, -, -, rfl⟩
  rcases constantName_eq hOther with ⟨_, -, hSame⟩
  have hSameAttr := attr_eq_of_firstWord hUnit.attr (firstWord_eq_of_spelling hSame)
  rw [SyntaxTree.attr_eq hUnit.node, hSameAttr]
  exact ⟨rfl, hUnit.attr⟩

end Generator

------ Names in Order

/- The names of the functions in a piece of output. -/
def Fragment.functionNames (output : List Fragment) : List String :=
  output.filterMap fun
    | .function definition => some definition.name
    | _ => none

@[simp] theorem Fragment.functionNames_append (first second : List Fragment) :
    functionNames (first ++ second) = functionNames first ++ functionNames second :=
  filterMap_append

theorem Fragment.mem_functionNames :
    name ∈ functionNames output ↔ ∃ definition, Fragment.function definition ∈ output ∧
        definition.name = name := by
  simp only [functionNames, mem_filterMap]
  constructor
  · rintro ⟨fragment, hMem, hName⟩
    cases fragment with
    | function definition => exact ⟨definition, hMem, Option.some.inj hName⟩
    | text content | statements => cases hName
  · rintro ⟨definition, hMem, rfl⟩
    exact ⟨_, hMem, rfl⟩

namespace Generator

variable {names : List String}

/-
  The order in which nodes are compiled and functions are defined: one for each node with a name
  of its own, and one for all constants that share a name.
-/
inductive Ledger (tree : SyntaxTree) : List (NodeId × String) → List String → Prop
  | start : Ledger tree [] []
  | own {entries : List (NodeId × String)} {names : List String} {id : NodeId} {name : String}
      (hLedger : Ledger tree entries names) (hName : HasOwnName tree id name) :
      Ledger tree (entries ++ [(id, name)]) (names ++ [name])
  | first {entries : List (NodeId × String)} {names : List String} {id : NodeId} {name : String}
      (hLedger : Ledger tree entries names) (hName : HasConstantName tree id name)
      (hNew : ∀ other, (other, name) ∈ entries → ¬ HasConstantName tree other name) :
      Ledger tree (entries ++ [(id, name)]) (names ++ [name])
  | shared {entries : List (NodeId × String)} {names : List String} {id earlier : NodeId}
      {name : String} (hLedger : Ledger tree entries names) (hName : HasConstantName tree id name)
      (hOld : (earlier, name) ∈ entries) (hEarlier : HasConstantName tree earlier name) :
      Ledger tree (entries ++ [(id, name)]) names

namespace Ledger

/- Functions are named as compiled nodes are. -/
theorem mem_names_iff (hLedger : Ledger tree entries names) :
    name ∈ names ↔ ∃ id, (id, name) ∈ entries := by
  induction hLedger with
  | start => simp
  | own _ _ ih | first _ _ _ ih => simp [ih, exists_or]
  | @shared _ _ id earlier last _ _ hOld _ ih =>
    simp only [ih, mem_append, mem_singleton, exists_or]
    constructor
    · exact .inl
    · rintro (hEarlier | ⟨id, hLast⟩)
      · exact hEarlier
      · cases hLast
        exact ⟨earlier, hOld⟩

theorem named (hLedger : Ledger tree entries names) (hEntry : (id, name) ∈ entries) :
    HasOwnName tree id name ∨ HasConstantName tree id name := by
  induction hLedger with
  | start => simp at hEntry
  | own _ hName ih =>
    rcases mem_append.mp hEntry with hOld | hLast
    · exact ih hOld
    · rcases mem_singleton.mp hLast with ⟨⟩
      exact .inl hName
  | first _ hName _ ih | shared _ hName _ _ ih =>
    rcases mem_append.mp hEntry with hOld | hLast
    · exact ih hOld
    · rcases mem_singleton.mp hLast with ⟨⟩
      exact .inr hName

theorem count_append_le (hCount : names.count name ≤ 1) (hNew : last = name → name ∉ names) :
    (names ++ [last]).count name ≤ 1 := by
  by_cases hLast : last = name
  · rw [count_append, count_eq_zero.mpr (hNew hLast)]
    simp [hLast]
  · simpa [hLast] using hCount

/- One function has a name, unless that is of both kinds. -/
theorem count_le_one (hLedger : Ledger tree entries names) (hNodes : (entries.map Prod.fst).Nodup)
    (hApart : ∀ id other, (id, name) ∈ entries → (other, name) ∈ entries → HasOwnName tree id name →
        ¬ HasConstantName tree other name) :
    names.count name ≤ 1 := by
  -- What holds of all entries holds of all but the last.
  have hEarlier : ∀ {earlier last : List (NodeId × String)},
      (∀ id other, (id, name) ∈ earlier ++ last → (other, name) ∈ earlier ++ last →
          HasOwnName tree id name → ¬ HasConstantName tree other name) →
      ∀ id other, (id, name) ∈ earlier → (other, name) ∈ earlier → HasOwnName tree id name →
          ¬ HasConstantName tree other name :=
    fun hAll id other hId hOther => hAll id other (mem_append_left _ hId) (mem_append_left _ hOther)
  induction hLedger with
  | start => simp
  | @own entries names id last hLedger hName ih =>
    rw [map_append, nodup_append] at hNodes
    apply count_append_le (ih hNodes.1 (hEarlier hApart))
    rintro rfl hMem
    rcases hLedger.mem_names_iff.mp hMem with ⟨other, hOther⟩
    rcases hLedger.named hOther with hOwn | hConst
    · exact hNodes.2.2 other (mem_map_of_mem hOther) id (by simp) (own_inj hOwn hName)
    · exact hApart id other (by simp) (mem_append_left _ hOther) hName hConst
  | @first entries names id last hLedger hName hNew ih =>
    rw [map_append, nodup_append] at hNodes
    apply count_append_le (ih hNodes.1 (hEarlier hApart))
    rintro rfl hMem
    rcases hLedger.mem_names_iff.mp hMem with ⟨other, hOther⟩
    rcases hLedger.named hOther with hOwn | hConst
    · exact hApart other id (mem_append_left _ hOther) (by simp) hOwn hName
    · exact hNew other hOther hConst
  | shared hLedger _ _ _ ih =>
    rw [map_append, nodup_append] at hNodes
    exact ih hNodes.1 (hEarlier hApart)

end Ledger

end Generator

------ Names along a Compilation

namespace Run

open Generator

variable {run : Run} {before ctx : Context}

/- What is recorded about names agrees with the code. -/
structure IsRecorded (tree : SyntaxTree) (run : Run) : Prop where
  ledger : Ledger tree run.context.compiled (Fragment.functionNames run.context.output)
  nodes : (run.context.compiled.map Prod.fst).Nodup
  calls : ∀ id name, (id, name) ∈ run.context.compiled → run.Calls id name
  taken : ∀ id name, HasConstantName tree id name → (run.context.hasName name = true ↔
      ∃ other, (other, name) ∈ run.context.compiled ∧ HasConstantName tree other name)

/- No constant is named as the array of a complex number is. -/
theorem ne_pairName (hName : HasConstantName tree id name) (re im : Float) :
    name ≠ Value.pairName re im := by
  rcases hName with ⟨node, mode, val, hUnit, -, hName⟩
  rcases constantName_eq hName with ⟨words, -, rfl⟩
  intro hSame
  have hLetter := congrArg (fun text => text.toList[1]?) hSame
  simp only [toList_spelling, Value.pairName] at hLetter
  rcases hUnit.attr with hAttr | hAttr
  · simp [hAttr, Attribute.shortName] at hLetter
  · simp [hAttr, Attribute.shortName] at hLetter

theorem output_of_defines (hDefines : before.Defines func after) :
    after.output = before.output ++ [.function func] := by
  rcases hDefines with ⟨mid, hQuiet, rfl⟩
  simp only [Context.append, hQuiet.output]

theorem hasName_of_defines (hDefines : before.Defines func after)
    (hName : HasConstantName tree id name) : after.hasName name = before.hasName name := by
  rcases hDefines with ⟨mid, hQuiet, rfl⟩
  exact hQuiet.names name (ne_pairName hName)

/- A quiet change leaves names alone. -/
theorem IsRecorded.quiet (hRec : run.IsRecorded tree) (hQuiet : run.context.Quiet ctx) :
    IsRecorded tree { run with context := ctx } := by
  constructor
  · simpa only [hQuiet.compiled, hQuiet.output] using hRec.ledger
  · simpa only [hQuiet.compiled] using hRec.nodes
  · intro id name hEntry
    rw [hQuiet.compiled] at hEntry
    exact hRec.calls id name hEntry
  · intro id name hName
    rw [hQuiet.compiled, hQuiet.names name (ne_pairName hName)]
    exact hRec.taken id name hName

theorem IsRecorded.not_mem_nodes (hRec : run.IsRecorded tree)
    (hPending : run.marking id = .ok .pending) : id ∉ run.context.compiled.map Prod.fst := by
  intro hMem
  rcases mem_map.mp hMem with ⟨⟨_, name⟩, hEntry, rfl⟩
  have hCalls := hRec.calls _ name hEntry
  rw [Calls, hPending] at hCalls
  cases hCalls

theorem IsRecorded.ledger_of_outcome (hRec : run.IsRecorded tree)
    (hOutcome : Outcome tree id name run.context ctx) :
    Ledger tree (run.context.compiled ++ [(id, name)]) (Fragment.functionNames ctx.output) := by
  cases hOutcome with
  | own hAttr hName hOther _ _ hFun hDefines =>
    rw [output_of_defines hDefines, Fragment.functionNames_append]
    simp only [Fragment.functionNames, filterMap_cons, hFun]
    exact .own hRec.ledger ⟨_, hAttr, hName, hOther⟩
  | first hUnit hVal hName hNew _ hFun hDefines =>
    have hOut : (run.context.takeName name).output = run.context.output := by
      rw [Context.takeName_eq]
    rw [output_of_defines hDefines, hOut, Fragment.functionNames_append]
    simp only [Fragment.functionNames, filterMap_cons, hFun]
    have hConst : HasConstantName tree id name := ⟨_, _, _, hUnit, hVal, hName⟩
    refine .first hRec.ledger hConst ?_
    intro other hEntry hOther
    have hTaken := (hRec.taken id name hConst).mpr ⟨other, hEntry, hOther⟩
    cases hNew.symm.trans hTaken
  | shared hUnit hVal hName hTaken =>
    have hConst : HasConstantName tree id name := ⟨_, _, _, hUnit, hVal, hName⟩
    rcases (hRec.taken id name hConst).mp hTaken with ⟨other, hEntry, hOther⟩
    exact .shared hRec.ledger hConst hEntry hOther

/- A shared name is taken when its first constant is compiled. -/
theorem hasName_of_outcome (hOutcome : Outcome tree id name before after)
    (hShared : HasConstantName tree other shared) :
    after.hasName shared = true ↔ before.hasName shared = true ∨
      shared = name ∧ HasConstantName tree id name := by
  cases hOutcome with
  | own _ _ hOther _ _ _ hDefines =>
    rw [hasName_of_defines hDefines hShared]
    constructor
    · exact .inl
    · rintro (hTaken | ⟨-, node, mode, _, hUnit, -⟩)
      · exact hTaken
      · exact absurd hUnit (hOther node mode)
  | first hUnit hVal hName hNew _ _ hDefines =>
    rw [hasName_of_defines hDefines hShared]
    have hConst : HasConstantName tree id name := ⟨_, _, _, hUnit, hVal, hName⟩
    by_cases hSame : shared = name
    · subst hSame
      have hTaken : (before.takeName shared).hasName shared = true := by
        rw [Context.takeName, hNew]
        simp [Context.hasName]
      exact iff_of_true hTaken (.inr ⟨rfl, hConst⟩)
    · rw [Context.hasName_takeName_of_ne hSame]
      simp [hSame]
  | shared hUnit hVal hName hTaken =>
    constructor
    · exact .inl
    · rintro (hEarlier | ⟨rfl, -⟩)
      · exact hEarlier
      · exact hTaken

theorem IsRecorded.compile (hRec : run.IsRecorded tree)
    (hPending : run.marking id = .ok .pending) (hOutcome : Outcome tree id name run.context ctx) :
    IsRecorded tree (run.compiledAs ctx id name) := by
  have hCompiled : (run.compiledAs ctx id name).context.compiled =
        run.context.compiled ++ [(id, name)] := by
    simp [compiledAs, mark, Context.recordCompiled, hOutcome.compiled_eq]
  constructor
  · rw [hCompiled]
    exact (hRec.ledger_of_outcome hOutcome :)
  · rw [hCompiled, map_append, nodup_append]
    refine ⟨hRec.nodes, by simp, ?_⟩
    rintro other hOther _ hLast rfl
    rcases mem_singleton.mp hLast with rfl
    exact hRec.not_mem_nodes hPending hOther
  · intro other otherName hEntry
    rw [hCompiled] at hEntry
    rcases mem_append.mp hEntry with hOld | hLast
    · have hOther : other ≠ id := by
        rintro rfl
        exact hRec.not_mem_nodes hPending (mem_map_of_mem hOld)
      exact (marking_mark_of_ne hOther _).trans (hRec.calls other otherName hOld)
    · rcases mem_singleton.mp hLast with ⟨⟩
      exact marking_mark hPending
  · intro other shared hShared
    rw [hCompiled]
    change ctx.hasName shared = true ↔ _
    rw [hasName_of_outcome hOutcome hShared, hRec.taken other shared hShared]
    simp only [mem_append, mem_singleton, Prod.mk.injEq, or_and_right, exists_or]
    apply or_congr_right
    constructor
    · rintro ⟨rfl, hName⟩
      exact ⟨id, ⟨rfl, rfl⟩, hName⟩
    · rintro ⟨_, ⟨rfl, rfl⟩, hName⟩
      exact ⟨rfl, hName⟩

/- Whatever is done, records agree with the code. -/
theorem Moves.isRecorded {next : Run} (hMoves : run.Moves tree inside next)
    (hRec : run.IsRecorded tree) : next.IsRecorded tree := by
  induction hMoves with
  | quiet hQuiet => exact hRec.quiet hQuiet
  | decline hInside hPending =>
    refine ⟨hRec.ledger, hRec.nodes, ?_, hRec.taken⟩
    intro other name hEntry
    have hMoves : Moves tree inside _ _ := .decline hInside hPending
    exact hMoves.calls (hRec.calls other name hEntry)
  | compile _ hPending hOutcome => exact hRec.compile hPending hOutcome
  | trans _ _ ihFirst ihSecond => exact ihSecond (ihFirst hRec)

end Run

namespace SyntaxTree

open Generator

/- The records of a compilation agree with its code. -/
theorem Compiles.isRecorded (hCompiles : tree.Compiles run) : run.IsRecorded tree := by
  rcases hCompiles with ⟨root, start, -, hStart, hMoves⟩
  apply hMoves.isRecorded
  constructor
  · rw [hStart.compiled, hStart.output]
    exact .start
  · rw [hStart.compiled]
    exact nodup_nil
  · intro id name hEntry
    rw [hStart.compiled] at hEntry
    cases hEntry
  · intro id name _
    rw [hStart.compiled]
    simp [Context.hasName, hStart.names]

end SyntaxTree

end Algol68
