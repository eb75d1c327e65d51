import Algol68.Proofs.Declaration
import Algol68.Proofs.Texts

/-
  The names of local variables.

  A temporary is told by its stem and the node that owns it. What it is declared as depends on the
  two alone, and so on the identifier that stands in the code.
-/

------ Identifiers

namespace Algol68

open List

/- The stem and the owner can be read off the text. -/
theorem Temp.text_injective : Function.Injective Temp.text := by
  rintro ⟨stem, owner⟩ ⟨other, node⟩ hText
  have hPlain : ∀ id : NodeId, '_' ∉ id.text.toList := by
    intro id hMem
    exact absurd (Handle.isDigit_of_mem_text hMem) (by decide)
  have hLists := congrArg String.toList hText
  simp only [Temp.text, String.toList_append, append_assoc] at hLists
  rcases Text.split_at_last (hPlain owner) (hPlain node) hLists with ⟨hStem, hOwner⟩
  rw [String.toList_inj.mp hStem, Handle.text_injective (String.toList_inj.mp hOwner)]

namespace Declarations

/- A text that is an identifier, or empty. -/
def IsWord (text : String) : Prop := ∀ c ∈ text.toList, isWordChar c = true

theorem isWord_of_all (hAll : text.toList.all isWordChar = true) : IsWord text :=
  all_eq_true.mp hAll

theorem IsWord.append (hFirst : IsWord first) (hSecond : IsWord second) :
    IsWord (first ++ second) := by
  intro c hMem
  rw [String.toList_append, mem_append] at hMem
  exact hMem.elim (hFirst c) (hSecond c)

/- A name of the source becomes an identifier. -/
theorem isWord_identifier (name : String) : IsWord (Text.identifier name) := by
  have hWords : ∀ words : List (List Char), (∀ word ∈ words, ∀ c ∈ word, c.isAlphanum = true) →
        ∀ c ∈ ['_'].intercalate words, isWordChar c = true := by
    intro words hWords
    induction words with
    | nil => simp
    | cons word rest ih =>
      rw [forall_mem_cons] at hWords
      cases rest with
      | nil =>
        intro c hMem
        rw [intercalate_singleton] at hMem
        simp [isWordChar, hWords.1 c hMem]
      | cons second others =>
        intro c hMem
        rw [intercalate_cons_cons, mem_append, mem_append, mem_singleton] at hMem
        rcases hMem with (hWord | rfl) | hRest
        · simp [isWordChar, hWords.1 c hWord]
        · rfl
        · exact ih hWords.2 c hRest
  intro c hMem
  simp only [Text.identifier, Text.joinWords] at hMem
  apply hWords (Text.words [] (name.toList.map Char.toLower))
  · intro word hWord
    exact (Text.words_alphanum _ [] (by simp) word hWord).2
  · simpa using hMem

theorem isWord_text {temp : Temp} (hStem : IsWord temp.stem) : IsWord temp.text := by
  refine (hStem.append ?_).append ?_
  · intro c hMem
    rw [mem_singleton.mp hMem]
    rfl
  · intro c hMem
    have hDigit := Handle.isDigit_of_mem_text hMem
    simp [isWordChar, Char.isAlphanum, hDigit]

end Declarations

------ Declarators of Temporaries

variable {pointer : Pointer}

namespace Inline

open Declarations

variable {tree : SyntaxTree} {id : NodeId} {result : Result}

/- The declarators of a temporary. -/
inductive Spells (temp : Temp) : String → Prop
  | plain : Spells temp temp.text
  | pointer : Spells temp ("*" ++ temp.text)
  | array (size : Nat) : Spells temp (temp.text ++ ("[" ++ toString size ++ "]"))

theorem Spells.identifierOf_eq (hSpells : Spells temp declarator) (hWord : IsWord temp.stem) :
    identifierOf declarator.toList = temp.text := by
  have hText := isWord_text hWord
  have hTake : ∀ rest : List Char, (∀ c ∈ rest.head?, isWordChar c = false) →
        (temp.text.toList ++ rest).takeWhile isWordChar = temp.text.toList := by
    intro rest hRest
    rw [takeWhile_append_of_pos hText]
    cases rest with
    | nil => simp
    | cons c others => simp [hRest c rfl]
  have hDrop : ∀ rest : List Char, (temp.text.toList ++ rest).dropWhile (· == '*') =
        temp.text.toList ++ rest := by
    cases hChars : temp.text.toList with
    | nil => simp [Temp.text] at hChars
    | cons c others =>
      have hChar := hText c (by rw [hChars]; simp)
      have hStar : c ≠ '*' := by
        rintro rfl
        cases hChar
      simp [hStar]
  cases hSpells with
  | plain =>
    have hRest := hTake [] (by simp)
    have hAll := hDrop []
    rw [append_nil] at hRest hAll
    rw [identifierOf, hAll, hRest, String.ofList_toList]
  | pointer =>
    have hRest := hTake [] (by simp)
    have hAll := hDrop []
    rw [append_nil] at hRest hAll
    rw [identifierOf, String.toList_append]
    simp [hAll, hRest]
  | array size =>
    rw [identifierOf, String.toList_append, hDrop, hTake, String.ofList_toList]
    simp [isWordChar]

theorem Spells.not_mem_blank (hSpells : Spells temp declarator) (hWord : IsWord temp.stem) :
    ' ' ∉ declarator.toList := by
  have hText : ' ' ∉ temp.text.toList := fun hMem => absurd (isWord_text hWord ' ' hMem) (by decide)
  have hSize : ∀ size : Nat, ' ' ∉ (toString size).toList := fun _ hMem => absurd
      (Text.isDigit_of_mem_toString hMem) (by decide)
  cases hSpells with
  | plain => exact hText
  | pointer => simpa using hText
  | array size =>
    have hNum := hSize size
    simp only [String.toList_append, mem_append, not_or]
    exact ⟨hText, ⟨by decide, hNum⟩, by decide⟩

/- The result of an operation is of one of two kinds. -/
theorem result_of_operationOf (hOperation : operationOf tree checked id = .ok operation)
    (hResult : operation.result = some result) :
    result = pairResult id ∨ plainResult tree id = .ok result := by
  rcases Walk.bind_eq_ok.mp hOperation with ⟨⟨builtin, ops⟩, -, hFound⟩
  dsimp only at hFound
  split at hFound
  · cases hFound
    cases hResult
    exact .inl rfl
  · split at hFound
    · rcases Walk.bind_eq_ok.mp hFound with ⟨plain, hPlain, hFound⟩
      cases hFound
      cases hResult
      exact .inr hPlain
    · cases hFound
      cases hResult

theorem spells_pairResult (id : NodeId) : Spells (pairResult id).temp (pairResult id).declarator :=
  .array 2

theorem plainResult_eq_ok (hResult : plainResult tree id = .ok result) :
    ∃ mode storage, modeOf tree id = .ok mode ∧ tree.modes.storageClass? mode = .ok storage ∧
        result = ⟨⟨"tmp", id⟩, storage.getD "A68_REAL", Temp.text ⟨"tmp", id⟩⟩ := by
  simp only [plainResult, Walk.bind_eq_ok, Walk.pure_eq_ok, Except.ok.injEq] at hResult
  rcases hResult with ⟨mode, hMode, storage, hStorage, rfl⟩
  exact ⟨mode, storage, hMode, hStorage, rfl⟩

/- Results are declared under the names of their temporaries. -/
theorem HasResult.spells (hResult : HasResult tree checked id result) :
    Spells result.temp result.declarator := by
  have hPlain : plainResult tree id = .ok result → Spells result.temp result.declarator := by
    intro hFound
    rcases plainResult_eq_ok hFound with ⟨_, _, -, -, rfl⟩
    exact .plain
  cases hResult with
  | operation _ hOperation hSome =>
    rcases result_of_operationOf hOperation hSome with
      rfl | hFound
    · exact spells_pairResult id
    · exact hPlain hFound
  | procedure _ hFound => exact hPlain hFound
  | widening | pair => exact spells_pairResult id
  | @bytes display size _ _ _ _ =>
    have hSpells : Spells (display.temp id) _ := .array size
    simpa [bytesResult, String.append_assoc] using hSpells

------ Names of a Tree

/- The temporaries of clauses and calls, as they are declared. -/
inductive IsMark (tree : SyntaxTree) : Temp → String → String → Prop
  | address {id : NodeId} {stem : String} {attr : Attribute} (hAttr : tree.attr id = .ok attr)
      (hClause : attr ∈ [.serialClause, .collateralClause, .call, .loopClause])
      (hStem : stem ∈ ["pop_sp", "pop_fp"]) :
      IsMark tree ⟨stem, id⟩ "ADDR_T" (Temp.text ⟨stem, id⟩)
  | bound {id : NodeId} {stem : String} (hAttr : tree.attr id = .ok .loopClause)
      (hStem : stem ∈ ["from", "by", "to", "count"]) :
      IsMark tree ⟨stem, id⟩ "INT_T" (Temp.text ⟨stem, id⟩)
  | counter {id : NodeId} (name : String) (hAttr : tree.attr id = .ok .loopClause) :
      IsMark tree ⟨Text.identifier name ++ "_counter", id⟩ "A68_INT" ("*" ++ Temp.text
          ⟨Text.identifier name ++ "_counter", id⟩)

/- The temporaries of a tree, as they are declared. -/
inductive Names (tree : SyntaxTree) (checked : Bool) : Temp → String → String → Prop
  | pointer {pointer : Pointer} (hPointer : pointer.IsOf tree) :
      Names tree checked (pointer.temp pointer.node) pointer.storage pointer.declarator
  | result {id : NodeId} {result : Result} (hResult : HasResult tree checked id result) :
      Names tree checked result.temp result.storage result.declarator
  | mark {temp : Temp} {storage declarator : String} (hMark : IsMark tree temp storage declarator) :
      Names tree checked temp storage declarator

theorem isWord_stem (hStem : stem ∈ ["pop_sp", "pop_fp"] ++ ["from", "by", "to", "count"]) :
    IsWord stem := by
  apply isWord_of_all
  revert stem
  decide

theorem isWord_counter (name : String) : IsWord (Text.identifier name ++ "_counter") :=
  (isWord_identifier name).append (isWord_of_all (by decide))

/- No counter has the name of another temporary of a loop. -/
theorem counter_ne (hStem : stem ∈ ["pop_sp", "pop_fp", "from", "by", "to", "count"])
    (name : String) : Text.identifier name ++ "_counter" ≠ stem := by
  intro hSame
  have hLast := congrArg (fun text => text.toList.getLast?) hSame
  revert stem
  simp

namespace IsMark

/- The stem of a mark tells how it is declared. -/
theorem cases_stem (hMark : IsMark tree temp storage declarator) :
    (temp.stem ∈ ["pop_sp", "pop_fp"] ∧ storage = "ADDR_T" ∧ declarator = temp.text) ∨
      (temp.stem ∈ ["from", "by", "to", "count"] ∧ storage = "INT_T" ∧ declarator = temp.text) ∨
      ((∃ name, temp.stem = Text.identifier name ++ "_counter") ∧
        storage = "A68_INT" ∧ declarator = "*" ++ temp.text) := by
  cases hMark with
  | address _ _ hStem => exact .inl ⟨hStem, rfl, rfl⟩
  | bound _ hStem => exact .inr (.inl ⟨hStem, rfl, rfl⟩)
  | counter name _ => exact .inr (.inr ⟨⟨name, rfl⟩, rfl, rfl⟩)

theorem unique (hFirst : IsMark tree temp storage declarator)
    (hSecond : IsMark tree temp other another) : storage = other ∧ declarator = another := by
  have hDisjoint : temp.stem ∈ ["pop_sp", "pop_fp"] →
      temp.stem ∉ ["from", "by", "to", "count"] := by
    generalize temp.stem = stem
    intro hStem hBound
    simp only [mem_cons, not_mem_nil, or_false] at hStem
    rcases hStem with rfl | rfl
    · exact absurd hBound (by decide)
    · exact absurd hBound (by decide)
  have hCounter : (∃ name, temp.stem = Text.identifier name ++ "_counter") →
        temp.stem ∉ ["pop_sp", "pop_fp"] ∧ temp.stem ∉ ["from", "by", "to", "count"] := by
    rintro ⟨name, hName⟩
    constructor
    · intro hStem
      exact counter_ne (mem_append_left ["from", "by", "to", "count"] hStem) name hName.symm
    · intro hStem
      exact counter_ne (mem_append_right ["pop_sp", "pop_fp"] hStem) name hName.symm
  rcases hFirst.cases_stem with ⟨hStem, rfl, rfl⟩ | ⟨hStem, rfl, rfl⟩ | ⟨hStem, rfl, rfl⟩
  · rcases hSecond.cases_stem with ⟨-, rfl, rfl⟩ | ⟨hOther, -, -⟩ | ⟨hOther, -, -⟩
    · exact ⟨rfl, rfl⟩
    · exact absurd hOther (hDisjoint hStem)
    · exact absurd hStem (hCounter hOther).1
  · rcases hSecond.cases_stem with ⟨hOther, -, -⟩ | ⟨-, rfl, rfl⟩ | ⟨hOther, -, -⟩
    · exact absurd hStem (hDisjoint hOther)
    · exact ⟨rfl, rfl⟩
    · exact absurd hStem (hCounter hOther).2
  · rcases hSecond.cases_stem with ⟨hOther, -, -⟩ | ⟨hOther, -, -⟩ | ⟨-, rfl, rfl⟩
    · exact absurd hOther (hCounter hStem).1
    · exact absurd hOther (hCounter hStem).2
    · exact ⟨rfl, rfl⟩

variable (hMark : IsMark tree temp storage declarator)

include hMark

theorem exists_attr : ∃ attr ∈ [Attribute.serialClause, .collateralClause, .call,
      .loopClause], tree.attr temp.owner = .ok attr := by
  cases hMark with
  | @address _ _ attr hAttr hClause _ => exact ⟨attr, hClause, hAttr⟩
  | bound hAttr | counter _ hAttr => exact ⟨_, by decide, hAttr⟩

theorem spells : Spells temp declarator := by
  rcases hMark.cases_stem with ⟨-, -, rfl⟩ | ⟨-, -, rfl⟩ | ⟨-, -, rfl⟩
  · exact .plain
  · exact .plain
  · exact .pointer

theorem isWord : IsWord temp.stem := by
  rcases hMark.cases_stem with ⟨hStem, -, -⟩ | ⟨hStem, -, -⟩ | ⟨⟨name, hName⟩, -, -⟩
  · exact isWord_stem (mem_append_left _ hStem)
  · exact isWord_stem (mem_append_right _ hStem)
  · rw [hName]
    exact isWord_counter name

end IsMark

namespace Pointer.IsOf

/- The pointer that is found at a node. -/
def pointerAt (tree : SyntaxTree) (id : NodeId) : Action → Walk Pointer
  | .fetch => (·.pointer) <$> fetchOf tree id
  | .deref => (·.pointer) <$> derefOf tree id
  | .slice => (·.pointer) <$> elementOf tree id
  | .selection => (·.pointer) <$> componentOf tree id

theorem pointerAt_eq (hPtr : pointer.IsOf tree) :
    pointerAt tree pointer.node pointer.address.action = .ok pointer := by
  cases hPtr with
  | fetch _ hNamed =>
    have hFor := isFor_of_fetchOf hNamed
    simp [hFor.node, hFor.action, pointerAt, hNamed]
  | deref _ hNamed =>
    have hFor := isFor_of_derefOf hNamed
    simp [hFor.node, hFor.action, pointerAt, hNamed]
  | element _ hElem =>
    have hFor := isFor_of_elementOf hElem
    simp [hFor.node, hFor.action, pointerAt, hElem]
  | component _ hComp =>
    have hFor := isFor_of_componentOf hComp
    simp [hFor.node, hFor.action, pointerAt, hComp]

theorem stem_ne (hSlot : pointerAt tree id .fetch = .ok pointer)
    (hObj : pointerAt tree id .deref = .ok second) : pointer.stem ≠ second.stem := by
  rcases Walk.map_eq_ok.mp hSlot with ⟨named, hNamed, rfl⟩
  rcases Walk.map_eq_ok.mp hObj with ⟨behind, hBehind, rfl⟩
  rcases fetchOf_eq_ok hNamed with ⟨tag, entry, _, hTag, -, rfl⟩
  rcases derefOf_eq_ok hBehind with ⟨_, _, _, _, hAgain, -, -, rfl⟩
  rw [hTag, Except.ok.injEq, Prod.mk.injEq] at hAgain
  rcases hAgain with ⟨rfl, rfl⟩
  intro hSame
  have hLen := congrArg String.length hSame
  simp at hLen

theorem eq_of_temp (hPtr : pointer.IsOf tree) (hSecond : second.IsOf tree)
    (hTemp : pointer.temp pointer.node = second.temp second.node) : pointer = second := by
  rw [Pointer.temp, Pointer.temp, Temp.mk.injEq] at hTemp
  rcases hTemp with ⟨hStem, hNode⟩
  have hFirst := hPtr.pointerAt_eq
  have hOther := hSecond.pointerAt_eq
  have hAgain := hSecond.isFor.2
  rw [← hNode] at hOther hAgain
  rw [hPtr.isFor.2, Except.ok.injEq] at hAgain
  -- Only slots and objects are found at the same nodes.
  have hAction : pointer.address.action = second.address.action := by
    cases hLeft : pointer.address.action <;>
      cases hRight : second.address.action <;>
        rw [hLeft, hRight] at hAgain <;>
          rw [hLeft] at hFirst <;> rw [hRight] at hOther
    case fetch.deref => exact absurd hStem (stem_ne hFirst hOther)
    case deref.fetch => exact absurd hStem.symm (stem_ne hOther hFirst)
    all_goals first
      | rfl
      | exact absurd hAgain (by decide)
  rw [← hAction, hFirst, Except.ok.injEq] at hOther
  exact hOther

theorem isWord (hPtr : pointer.IsOf tree) : IsWord pointer.stem := by
  have hSuffix : ∀ suffix ∈ ["_obj", "_elem", "_"], IsWord suffix := by
    intro suffix hSuffix
    apply isWord_of_all
    revert suffix
    decide
  rcases hPtr.isFor.1.stem with ⟨name, symbol, hStem⟩
  rw [hStem]
  cases pointer.address.action with
  | fetch => exact isWord_identifier _
  | deref | slice => exact (isWord_identifier _).append (hSuffix _ (by simp))
  | selection =>
    exact ((isWord_identifier _).append (hSuffix _ (by simp))).append (isWord_identifier _)

end Pointer.IsOf

namespace HasResult

variable (hResult : HasResult tree checked id result)

include hResult

/- Results are kept at nodes that no address and no clause is at. -/
theorem exists_attr : ∃ attr ∈ [Attribute.formula, .monadicFormula, .call,
      .deproceduring, .widening, .collateralClause], tree.attr id = .ok attr := by
  cases hResult with
  | operation hAttr _ _ =>
    rcases hAttr with hAttr | hAttr | hAttr
    · exact ⟨_, by decide, hAttr⟩
    · exact ⟨_, by decide, hAttr⟩
    · exact ⟨_, by decide, hAttr⟩
  | procedure hAttr | widening hAttr | pair hAttr | bytes hAttr => exact ⟨_, by decide, hAttr⟩

theorem temp_eq : ∃ stem ∈ ["tmp", "cplx", "display"], result.temp = ⟨stem, id⟩ := by
  have hPlain : plainResult tree id = .ok result → result.temp = ⟨"tmp", id⟩ := by
    intro hFound
    rcases plainResult_eq_ok hFound with ⟨_, _, -, -, rfl⟩
    rfl
  have hPair : (pairResult id).temp = ⟨"cplx", id⟩ := rfl
  cases hResult with
  | operation _ hOperation hSome =>
    rcases result_of_operationOf hOperation hSome with
      rfl | hFound
    · exact ⟨_, by decide, hPair⟩
    · exact ⟨_, by decide, hPlain hFound⟩
  | procedure _ hFound => exact ⟨_, by decide, hPlain hFound⟩
  | widening | pair => exact ⟨_, by decide, hPair⟩
  | bytes _ _ hComplex _ =>
    simp [bytesResult, Display.temp]

theorem isWord : IsWord result.temp.stem := by
  rcases hResult.temp_eq with ⟨stem, hStem, hTemp⟩
  rw [hTemp]
  clear hTemp
  change IsWord stem
  apply isWord_of_all
  revert stem
  decide

theorem eq (hSecond : HasResult tree checked id second) : result = second := by
  cases hResult with
  | operation hAttr hOperation hSome =>
    have hOther : ∀ {attr}, tree.attr id = .ok attr → (attr = .formula ∨ attr = .monadicFormula ∨
          attr = .call) → result = second := by
      intro attr hAttr hShape
      have hAgain := hSecond.of_operation hAttr hShape hOperation
      rw [hSome, Option.some.injEq] at hAgain
      exact hAgain
    rcases hAttr with hAttr | hAttr | hAttr
    · exact hOther hAttr (.inl rfl)
    · exact hOther hAttr (.inr (.inl rfl))
    · exact hOther hAttr (.inr (.inr rfl))
  | procedure hAttr hFound =>
    have hAgain := hSecond.of_procedure hAttr
    rw [hFound, Except.ok.injEq] at hAgain
    exact hAgain
  | widening hAttr hWidening => exact (hSecond.of_widening hAttr hWidening).2.symm
  | pair hAttr hDisplay hComplex =>
    rcases hSecond.of_display hAttr hDisplay with ⟨-, hSame⟩ | ⟨hNot, -⟩
    · exact hSame.symm
    · cases hComplex.symm.trans hNot
  | bytes hAttr hDisplay hComplex hSize =>
    rcases hSecond.of_display hAttr hDisplay with ⟨hNot, -⟩ | ⟨-, size, hAgain, hSame⟩
    · cases hComplex.symm.trans hNot
    · rw [hSize, Except.ok.injEq] at hAgain
      rw [hSame, hAgain]

end HasResult

namespace Names

variable (hName : Names tree checked temp storage declarator)

include hName

theorem spells : Spells temp declarator := by
  cases hName with
  | pointer _ => exact .pointer
  | result hResult | mark hResult => exact hResult.spells

theorem isWord : IsWord temp.stem := by
  cases hName with
  | pointer hPtr | result hPtr | mark hPtr => exact hPtr.isWord

theorem identifierOf_eq : identifierOf declarator.toList = temp.text :=
  hName.spells.identifierOf_eq hName.isWord

omit hName

theorem pointer_ne (hPtr : pointer.IsOf tree) (hAttr : tree.attr pointer.node = .ok attr) :
    attr ∈ [Attribute.identifier, .slice, .selection] := by
  rw [hPtr.isFor.2, Except.ok.injEq] at hAttr
  rw [← hAttr]
  cases pointer.address.action <;> decide

theorem result_ne_mark (hResult : HasResult tree checked id result)
    (hMark : IsMark tree result.temp storage declarator) : False := by
  rcases hResult.temp_eq with ⟨stem, hStem, hTemp⟩
  rcases hResult.exists_attr with ⟨attr, hKeeps, hAttr⟩
  rw [hTemp] at hMark
  cases hMark with
  | address _ _ hOther | bound =>
    clear hTemp
    revert stem
    decide
  | counter name hLoop =>
    rw [hAttr, Except.ok.injEq] at hLoop
    rw [hLoop] at hKeeps
    exact absurd hKeeps (by decide)

theorem unique (hFirst : Names tree checked temp storage declarator)
    (hSecond : Names tree checked temp other another) : storage = other ∧ declarator = another := by
  have hPtrs : ∀ {pointer : Pointer} {owner : NodeId}
      {attrs : List Attribute}, pointer.IsOf tree → pointer.node = owner →
          (∃ attr ∈ attrs, tree.attr owner = .ok attr) → (∀ attr ∈ attrs, attr ∉
              [Attribute.identifier, .slice, .selection]) → False := by
    rintro pointer _ attrs hPtr rfl ⟨attr, hAttr, hFound⟩ hNone
    exact hNone attr hAttr (pointer_ne hPtr hFound)
  cases hFirst with
  | pointer hPtr =>
    generalize hTemp : Pointer.temp _ _ = temp at hSecond
    cases hSecond with
    | pointer hOther =>
      rw [hPtr.eq_of_temp hOther hTemp]
      exact ⟨rfl, rfl⟩
    | result hResult =>
      rcases hResult.temp_eq with ⟨stem, -, hResultTemp⟩
      rw [hResultTemp] at hTemp
      exact (hPtrs hPtr (congrArg Temp.owner hTemp) hResult.exists_attr (by decide)).elim
    | mark hMark =>
      exact (hPtrs hPtr (congrArg Temp.owner hTemp) hMark.exists_attr (by decide)).elim
  | @result id result hResult =>
    generalize hTemp : result.temp = temp at hSecond
    rcases hResult.temp_eq with ⟨stem, -, hResultTemp⟩
    rw [hResultTemp] at hTemp
    cases hSecond with
    | pointer hOther =>
      exact (hPtrs hOther (congrArg Temp.owner hTemp).symm hResult.exists_attr (by decide)).elim
    | result hOther =>
      rcases hOther.temp_eq with ⟨_, -, hOtherTemp⟩
      rw [hOtherTemp, Temp.mk.injEq] at hTemp
      rw [← hTemp.2] at hOther
      rw [hResult.eq hOther]
      exact ⟨rfl, rfl⟩
    | mark hMark =>
      rw [← hTemp, ← hResultTemp] at hMark
      exact (result_ne_mark hResult hMark).elim
  | mark hMark =>
    generalize hTemp : temp = found at hSecond
    cases hSecond with
    | pointer hOther =>
      exact (hPtrs hOther (congrArg Temp.owner hTemp).symm hMark.exists_attr (by decide)).elim
    | result hResult =>
      rw [hTemp] at hMark
      exact (result_ne_mark hResult hMark).elim
    | mark hOther =>
      rw [hTemp] at hMark
      exact hMark.unique hOther

end Names

end Inline

end Algol68
