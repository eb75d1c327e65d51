import Algol68.Context.Declarations
import Mathlib.Data.List.Nodup
import Mathlib.Data.String.Basic

/-
  The declarators of a generated function.

  Classes and the declarators of a class are kept in order, so that each of them occurs once.
-/

------ Members

namespace Algol68

open List

namespace Declarations

variable {declarations : Declarations} {classes : List (String × List String)}

/- A declarator of a class is declared. -/
def Has (declarations : Declarations) (storage name : String) : Prop :=
  ∃ names, (storage, names) ∈ declarations.classes ∧ name ∈ names

theorem mem_insertName : other ∈ insertName name names ↔ other = name ∨ other ∈ names := by
  induction names with
  | nil => simp [insertName]
  | cons first rest ih =>
    unfold insertName
    split
    · simp
    · split
      · rename_i hSame
        simp [hSame]
      · simp only [mem_cons]
        tauto

theorem exists_mem_insertInto :
    (∃ names, (found, names) ∈ insertInto storage name classes ∧ other ∈ names) ↔
      (found = storage ∧ other = name) ∨ ∃ names, (found, names) ∈ classes ∧ other ∈ names := by
  induction classes with
  | nil =>
    simp only [insertInto, mem_singleton, Prod.mk.injEq,
      not_mem_nil, false_and, exists_false, or_false]
    constructor
    · rintro ⟨names, ⟨rfl, rfl⟩, hOther⟩
      exact ⟨rfl, mem_singleton.mp hOther⟩
    · rintro ⟨rfl, rfl⟩
      exact ⟨_, ⟨rfl, rfl⟩, mem_singleton_self _⟩
  | cons entry rest ih =>
    rcases entry with ⟨first, names⟩
    unfold insertInto
    split
    · simp only [mem_cons, Prod.mk.injEq, or_and_right, exists_or]
      constructor
      · rintro (⟨_, ⟨rfl, rfl⟩, hOther⟩ | hOld)
        · exact .inl ⟨rfl, mem_singleton.mp hOther⟩
        · exact .inr hOld
      · rintro (⟨rfl, rfl⟩ | hOld)
        · exact .inl ⟨_, ⟨rfl, rfl⟩, mem_singleton_self _⟩
        · exact .inr hOld
    · split
      · rename_i hSame
        simp only [mem_cons, Prod.mk.injEq, or_and_right,
          exists_or, and_assoc, exists_eq_left, exists_and_left, mem_insertName, hSame]
        tauto
      · simp only [mem_cons, or_and_right, exists_or, ih]
        exact or_left_comm

theorem has_add :
    (declarations.add storage name).Has found other ↔ (found = storage ∧ other = name) ∨
        declarations.Has found other :=
  exists_mem_insertInto

------ Order

/- Classes and the declarators of each class are in order, and no class is empty. -/
structure IsOrdered (declarations : Declarations) : Prop where
  classes : (declarations.classes.map Prod.fst).Pairwise (· < ·)
  names : ∀ entry ∈ declarations.classes, entry.2.Pairwise (· < ·)
  filled : ∀ entry ∈ declarations.classes, entry.2 ≠ []

theorem isOrdered_empty : IsOrdered {} := ⟨.nil, by simp, by simp⟩

theorem pairwise_insertName (hNames : names.Pairwise (· < ·)) :
    (insertName name names).Pairwise (· < ·) := by
  induction names with
  | nil => simp [insertName]
  | cons first rest ih =>
    rw [pairwise_cons] at hNames
    unfold insertName
    split
    · rename_i hLess
      refine .cons ?_ (.cons hNames.1 hNames.2)
      intro other hOther
      rcases mem_cons.mp hOther with rfl | hRest
      · exact hLess
      · exact hLess.trans (hNames.1 other hRest)
    · split
      · exact .cons hNames.1 hNames.2
      · rename_i hNotLess hNotSame
        refine .cons ?_ (ih hNames.2)
        intro other hOther
        rcases mem_insertName.mp hOther with rfl | hRest
        · exact lt_of_le_of_ne (not_lt.mp hNotLess) (Ne.symm hNotSame)
        · exact hNames.1 other hRest

/- A class that is there after an insertion is new or was there. -/
theorem fst_mem_insertInto (hEntry : entry ∈ insertInto storage name classes) :
    entry.1 = storage ∨ entry.1 ∈ classes.map Prod.fst := by
  induction classes with
  | nil =>
    rw [insertInto, mem_singleton] at hEntry
    exact .inl (by rw [hEntry])
  | cons first rest ih =>
    unfold insertInto at hEntry
    split at hEntry
    · rcases mem_cons.mp hEntry with rfl | hOld
      · exact .inl rfl
      · exact .inr (mem_map_of_mem hOld)
    · split at hEntry
      · rename_i hSame
        rcases mem_cons.mp hEntry with rfl | hOld
        · exact .inl hSame.symm
        · exact .inr (mem_cons_of_mem _ (mem_map_of_mem hOld))
      · rcases mem_cons.mp hEntry with rfl | hOld
        · exact .inr mem_cons_self
        · rcases ih hOld with hNew | hRest
          · exact .inl hNew
          · exact .inr (mem_cons_of_mem _ hRest)

theorem pairwise_insertInto (hClasses : (classes.map Prod.fst).Pairwise (· < ·)) :
    ((insertInto storage name classes).map Prod.fst).Pairwise (· < ·) := by
  induction classes with
  | nil => simp [insertInto]
  | cons entry rest ih =>
    rw [map_cons, pairwise_cons] at hClasses
    unfold insertInto
    split
    · rename_i hLess
      refine .cons ?_ (.cons hClasses.1 hClasses.2)
      intro other hOther
      rcases mem_cons.mp hOther with rfl | hRest
      · exact hLess
      · exact hLess.trans (hClasses.1 other hRest)
    · split
      · exact .cons hClasses.1 hClasses.2
      · rename_i hNotLess hNotSame
        refine .cons ?_ (ih hClasses.2)
        intro other hOther
        rcases mem_map.mp hOther with ⟨found, hFound, rfl⟩
        rcases fst_mem_insertInto hFound with hNew | hRest
        · rw [hNew]
          exact lt_of_le_of_ne (not_lt.mp hNotLess) (Ne.symm hNotSame)
        · exact hClasses.1 found.1 hRest

theorem names_pairwise_insertInto (hNames : ∀ entry ∈ classes, entry.2.Pairwise (· < ·)) :
    ∀ entry ∈ insertInto storage name classes, entry.2.Pairwise (· < ·) := by
  induction classes with
  | nil => simp [insertInto]
  | cons entry rest ih =>
    rw [forall_mem_cons] at hNames
    unfold insertInto
    split
    · rw [forall_mem_cons, forall_mem_cons]
      exact ⟨pairwise_singleton _ _, hNames⟩
    · split
      · rw [forall_mem_cons]
        exact ⟨pairwise_insertName hNames.1, hNames.2⟩
      · rw [forall_mem_cons]
        exact ⟨hNames.1, ih hNames.2⟩

theorem filled_insertInto (hFilled : ∀ entry ∈ classes, entry.2 ≠ []) :
    ∀ entry ∈ insertInto storage name classes, entry.2 ≠ [] := by
  induction classes with
  | nil => simp [insertInto]
  | cons entry rest ih =>
    rw [forall_mem_cons] at hFilled
    unfold insertInto
    split
    · rw [forall_mem_cons, forall_mem_cons]
      exact ⟨cons_ne_nil _ _, hFilled⟩
    · split
      · rw [forall_mem_cons]
        exact ⟨ne_nil_of_mem (mem_insertName.mpr (.inl rfl)), hFilled.2⟩
      · rw [forall_mem_cons]
        exact ⟨hFilled.1, ih hFilled.2⟩

theorem IsOrdered.add (hOrdered : declarations.IsOrdered) (storage name : String) :
    (declarations.add storage name).IsOrdered :=
  ⟨pairwise_insertInto hOrdered.classes, names_pairwise_insertInto hOrdered.names,
    filled_insertInto hOrdered.filled⟩

/- All declarators, each with its class. -/
def entries (declarations : Declarations) : List (String × String) :=
  declarations.classes.flatMap fun entry => entry.2.map fun name => (entry.1, name)

theorem mem_entries : (storage, name) ∈ declarations.entries ↔ declarations.Has storage name := by
  simp [entries, Has]

/- No declarator of a class occurs twice. -/
theorem IsOrdered.nodup_entries (hOrdered : declarations.IsOrdered) :
    declarations.entries.Nodup := by
  rw [entries, nodup_flatMap]
  constructor
  · intro entry hEntry
    refine List.Nodup.map (fun _ _ hSame => (Prod.mk.inj hSame).2) ?_
    exact (hOrdered.names entry hEntry).imp ne_of_lt
  · refine (pairwise_map.mp hOrdered.classes).imp ?_
    rintro first second hLess ⟨found, other⟩ hFirst hSecond
    rcases mem_map.mp hFirst with ⟨_, -, hFound⟩
    rcases mem_map.mp hSecond with ⟨_, -, hAgain⟩
    rw [← hFound] at hAgain
    exact absurd (Prod.mk.inj hAgain).1 (ne_of_gt hLess)

------ Identifiers

/- Whether a character may stand in an identifier. -/
def isWordChar (c : Char) : Bool := c.isAlphanum || c == '_'

/- The identifier in a declarator, without a star before it and a size behind it. -/
def identifierOf (declarator : List Char) : String :=
  String.ofList ((declarator.dropWhile (· == '*')).takeWhile isWordChar)

/- The identifiers that a line declares, behind their class. -/
def identifiersIn (line : String) : List String := (line.toList.splitOn ' ').tail.map identifierOf

/- Declarators with the separators behind them. -/
def separated : List String → List (List Char)
  | [] => []
  | [name] => [name.toList ++ [';']]
  | name :: second :: rest => (name.toList ++ [',']) :: separated (second :: rest)

theorem toList_intercalate_append (hNames : names ≠ []) :
    (String.intercalate ", " names).toList ++ [';'] = [' '].intercalate (separated names) := by
  induction names with
  | nil => exact absurd rfl hNames
  | cons name rest ih =>
    cases rest with
    | nil => simp [separated]
    | cons second others =>
      have hRest := ih (cons_ne_nil second others)
      have hSome : separated (second :: others) ≠ [] := by cases others <;> simp [separated]
      rcases exists_cons_of_ne_nil hSome with ⟨head, tail, hSeparated⟩
      rw [String.intercalate_cons_cons]
      simp only [String.toList_append, append_assoc, hRest]
      simp [separated, hSeparated]

/- A line has its class and its declarators as words. -/
theorem splitOn_line (hNames : names ≠ []) (hStorage : ' ' ∉ storage.toList)
    (hWords : ∀ name ∈ names, ' ' ∉ name.toList) :
    (storage ++ " " ++ String.intercalate ", " names ++ ";").toList.splitOn ' ' =
      storage.toList :: separated names := by
  have hSeparated : ∀ word ∈ separated names, ' ' ∉ word := by
    clear hNames
    induction names with
    | nil => simp [separated]
    | cons name rest ih =>
      have hRest := ih fun other hOther => hWords other (mem_cons_of_mem _ hOther)
      have hName := hWords name mem_cons_self
      cases rest with
      | nil => simpa [separated] using hName
      | cons second others =>
        rw [separated, forall_mem_cons]
        exact ⟨by simpa using hName, hRest⟩
  have hLine : (storage ++ " " ++ String.intercalate ", " names ++ ";").toList =
      [' '].intercalate (storage.toList :: separated names) := by
    have hSome : separated names ≠ [] := by
      cases names with
      | nil => exact absurd rfl hNames
      | cons name rest => cases rest <;> simp [separated]
    rcases exists_cons_of_ne_nil hSome with ⟨head, tail, hCons⟩
    rw [hCons, intercalate_cons_cons, ← hCons, ← toList_intercalate_append hNames]
    simp
  rw [hLine]
  apply splitOn_intercalate
  · rw [forall_mem_cons]
    exact ⟨hStorage, hSeparated⟩
  · exact cons_ne_nil _ _

/- What separates declarators is no part of them. -/
theorem identifierOf_concat (name : List Char) (hWord : isWordChar c = false) (hStar : c ≠ '*') :
    identifierOf (name ++ [c]) = identifierOf name := by
  have hDrop : (name ++ [c]).dropWhile (· == '*') = name.dropWhile (· == '*') ++ [c] := by
    induction name with
    | nil => simp [hStar]
    | cons d rest ih =>
      rw [cons_append, dropWhile_cons, dropWhile_cons]
      split
      · exact ih
      · simp
  have hTake : ∀ chars : List Char, (chars ++ [c]).takeWhile isWordChar =
        chars.takeWhile isWordChar := by
    intro chars
    induction chars with
    | nil => simp [hWord]
    | cons d rest ih => rw [cons_append, takeWhile_cons, takeWhile_cons, ih]
  rw [identifierOf, identifierOf, hDrop, hTake]

theorem map_identifierOf_separated (names : List String) :
    (separated names).map identifierOf = names.map fun name => identifierOf name.toList := by
  induction names with
  | nil => rfl
  | cons name rest ih =>
    cases rest with
    | nil =>
      simp [separated, identifierOf_concat name.toList
          (by decide : isWordChar ';' = false) (by decide)]
    | cons second others =>
      rw [separated, map_cons, ih, identifierOf_concat name.toList
          (by decide : isWordChar ',' = false) (by decide)]
      rfl

theorem identifiersIn_lines (hOrdered : declarations.IsOrdered)
    (hWords : ∀ storage name, declarations.Has storage name →
      ' ' ∉ storage.toList ∧ ' ' ∉ name.toList) :
    declarations.lines.flatMap identifiersIn = declarations.entries.map fun entry =>
        identifierOf entry.2.toList := by
  rw [lines, entries, map_flatMap, flatMap_map]
  apply flatMap_congr
  intro entry hEntry
  have hSome := hOrdered.filled entry hEntry
  have hHas : ∀ name ∈ entry.2, declarations.Has entry.1 name :=
    fun name hName => ⟨entry.2, hEntry, hName⟩
  rcases exists_mem_of_ne_nil entry.2 hSome with ⟨name, hName⟩
  rw [identifiersIn, splitOn_line hSome (hWords entry.1 name (hHas name hName)).1
    fun other hOther => (hWords entry.1 other (hHas other hOther)).2]
  simp [map_identifierOf_separated]

end Declarations

end Algol68
