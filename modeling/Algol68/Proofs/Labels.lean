import Algol68.Proofs.Modes
import Algol68.Proofs.Texts

/-
  The parts of generated names.

  A name is made of a word for the shape of a node, the words of its mode and a key. The key of a
  value tells it apart from all others of its category, and the words of a mode over the standard
  table tell primitive modes apart.
-/

------ Hexadecimal Digits

namespace Algol68

namespace Text

theorem isAlphanum_digitChar (hDigit : digit < 16) : digit.digitChar.isAlphanum = true := by
  decide +revert

theorem isAlphanum_of_mem_toDigits (hMem : c ∈ Nat.toDigits 16 n) : c.isAlphanum = true := by
  induction n using Nat.strongRecOn with
  | ind n ih =>
    by_cases hSmall : n < 16
    · rw [Nat.toDigits_of_lt_base hSmall, List.mem_singleton] at hMem
      rw [hMem]
      exact isAlphanum_digitChar hSmall
    · have hLess : n / 16 < n := by omega
      have hLast : n % 16 < 16 := by omega
      rw [Nat.toDigits_of_base_le (by decide) (Nat.le_of_not_lt hSmall), List.mem_append,
        List.mem_singleton] at hMem
      rcases hMem with hEarlier | rfl
      · exact ih (n / 16) hLess hEarlier
      · exact isAlphanum_digitChar hLast

theorem hex_inj (hSame : hex left = hex right) : left = right := by
  have hDigits := congrArg (Decimal.natFrom? 16 0 ∘ String.toList) hSame
  simpa [hex, Decimal.natFrom?_toDigits] using hDigits

theorem paddedHex_inj (hSame : paddedHex width left = paddedHex width right) : left = right := by
  have hDigits := congrArg (Decimal.natFrom? 16 0 ∘ String.toList) hSame
  simpa [paddedHex, Decimal.natFrom?_zeros, Decimal.natFrom?_toDigits] using hDigits

theorem isAlphanum_of_mem_paddedHex (hMem : c ∈ (paddedHex width n).toList) :
    c.isAlphanum = true := by
  simp only [paddedHex, String.toList_ofList, List.mem_append, List.mem_replicate] at hMem
  rcases hMem with ⟨-, rfl⟩ | hDigit
  · decide
  · exact isAlphanum_of_mem_toDigits hDigit

end Text

------ Keys

namespace Value

/- Values of one category with the same bits. -/
def SameBits : Value → Value → Prop
  | .int left, .int right => left = right
  | .real left, .real right => left.toBits = right.toBits
  | .bool left, .bool right => left = right
  | .char left, .char right => left = right
  | .bits left, .bits right => left = right
  | .complex re im, .complex other rest => re.toBits = other.toBits ∧ im.toBits = rest.toBits
  | _, _ => False

variable {left : Value}

theorem toString_natAbs {n : Int} (hPos : ¬ n < 0) : toString n = toString n.natAbs := by
  cases n with
  | ofNat n => rfl
  | negSucc n => exact absurd (Int.negSucc_lt_zero n) hPos

/- The key of a negative number is no number. -/
theorem intKey_inj {left : Int} (hKey : (if left < 0 then "m" ++ toString left.natAbs
        else toString left) =
      if right < 0 then "m" ++ toString right.natAbs
        else toString right) :
    left = right := by
  have hLetter : ∀ m n : Nat, "m" ++ toString m ≠ toString n := by
    intro m n hSame
    have hMem : 'm' ∈ (toString n).toList := by
      rw [← hSame]
      simp
    exact absurd (Text.isDigit_of_mem_toString hMem) (by decide)
  by_cases hLeft : left < 0 <;> by_cases hRight : right < 0
  · rw [if_pos hLeft, if_pos hRight] at hKey
    have hAbs := Text.toString_inj ((String.append_right_inj _).mp hKey)
    omega
  · rw [if_pos hLeft, if_neg hRight, toString_natAbs hRight] at hKey
    exact absurd hKey (hLetter _ _)
  · rw [if_neg hLeft, if_pos hRight, toString_natAbs hLeft] at hKey
    exact absurd hKey.symm (hLetter _ _)
  · rw [if_neg hLeft, if_neg hRight, toString_natAbs hLeft, toString_natAbs hRight] at hKey
    have hAbs := Text.toString_inj hKey
    omega

theorem toBits_eq_of_realHex_eq (hHex : Text.realHex x = Text.realHex y) : x.toBits = y.toBits :=
  UInt64.toNat_inj.mp (Text.paddedHex_inj hHex)

theorem not_mem_realHex (x : Float) : '_' ∉ (Text.realHex x).toList := by
  intro hMem
  exact absurd (Text.isAlphanum_of_mem_paddedHex hMem) (by decide)

/- A key tells a value from the others of its category. -/
theorem sameBits_of_key_eq (hPrim : left.prim = right.prim) (hKey : left.key = right.key) :
    left.SameBits right := by
  cases left <;> cases right <;> cases hPrim
  case int.int m n => exact Int64.toInt_inj.mp (intKey_inj hKey)
  case real.real x y => exact toBits_eq_of_realHex_eq hKey
  case bool.bool a b =>
    change a = b
    cases a <;> cases b <;> simp_all [key]
  case char.char c d => exact UInt8.toNat_inj.mp (Text.paddedHex_inj hKey)
  case bits.bits v w => exact UInt64.toNat_inj.mp (Text.hex_inj hKey)
  case complex.complex re im other rest =>
    have hLists := congrArg String.toList hKey
    simp only [key, String.toList_append, List.append_assoc] at hLists
    rcases Text.split_at_last (not_mem_realHex im)
      (not_mem_realHex rest) hLists with ⟨hFirst, hSecond⟩
    exact ⟨toBits_eq_of_realHex_eq (String.toList_inj.mp hFirst),
      toBits_eq_of_realHex_eq (String.toList_inj.mp hSecond)⟩

end Value

------ Words of Modes

theorem Text.word_prefix_joinWords (hWords : words [] chars = word :: rest) :
    word <+: (joinWords chars).toList := by
  rw [joinWords, hWords, String.toList_intercalate]
  cases rest with
  | nil | cons => simp

theorem Text.ref_prefix (target : String) :
    "ref".toList <+: (modeIdentifier ("REF " ++ target)).toList := by
  have hWords : words [] (("REF " ++ target).toList.flatMap lowerCase) = "ref".toList ::
          words [] (target.toList.flatMap lowerCase) := by
    simp [words, lowerCase, finished]
  exact word_prefix_joinWords hWords

theorem Text.struct_prefix (fields : String) :
    "struct".toList <+: (modeIdentifier ("STRUCT (" ++ fields)).toList := by
  have hWords : words [] (("STRUCT (" ++ fields).toList.flatMap lowerCase) = "struct".toList ::
          words [] (fields.toList.flatMap lowerCase) := by
    simp [words, lowerCase, finished]
  exact word_prefix_joinWords hWords

/- An entry of a larger store is an old one or the last. -/
theorem Store.get?_push_eq_some {store : Store entity α} {last entry : α}
    {handle : Handle entity} (hEntry : (store.push last).get? handle = some entry) :
    store.get? handle = some entry ∨ handle = store.nextHandle ∧ entry = last := by
  by_cases hBound : handle.number < store.size
  · rw [get?_push_of_lt _ _ hBound] at hEntry
    exact .inl hEntry
  · have hLast : handle = store.nextHandle := by
      have hSize := (Array.getElem?_eq_some_iff.mp hEntry).1
      simp only [push, Array.size_push] at hSize
      apply Handle.ext
      simp only [nextHandle, size] at hBound ⊢
      omega
    rw [hLast, get?_push_nextHandle, Option.some.injEq] at hEntry
    exact .inr ⟨hLast, hEntry.symm⟩

/- A table that has grown from that of the standard modes. -/
inductive ModeTable.IsExtension : ModeTable → Prop
  | standard : IsExtension standardTable
  | intern {table : ModeTable} (hTable : IsExtension table) (kind : ModeKind) :
      IsExtension (table.intern kind).2

namespace ModeTable

variable {table : ModeTable}

theorem find?_eq_none {kind : ModeKind} (hNone : table.find? kind = none)
    (hEntry : table.modes.get? mode = some entry) : entry.kind ≠ kind := by
  intro hKind
  have hMem : (mode, entry) ∈ table.modes.toList := by
    rcases Array.getElem?_eq_some_iff.mp hEntry with ⟨hBound, hFound⟩
    rw [Store.toList, List.mem_iff_getElem]
    refine ⟨mode.number, ?_, ?_⟩
    · simpa [Store.handles, Store.size] using hBound
    · simp [Store.handles, hFound]
  unfold find? at hNone
  rw [Option.map_eq_none_iff, List.find?_eq_none] at hNone
  have hOther := hNone (mode, entry) (by simpa using hMem)
  simp [hKind] at hOther

namespace IsExtension

variable (hTable : table.IsExtension)

include hTable

theorem standard_eq : table.standard = standardTable.standard := by
  induction hTable with
  | standard => rfl
  | @intern table _ kind ih =>
    unfold ModeTable.intern
    split <;> exact ih

theorem size_le : standardTable.size ≤ table.size := by
  induction hTable with
  | standard => exact Nat.le_refl _
  | @intern table _ kind ih =>
    unfold ModeTable.intern
    split
    · exact ih
    · simp only [size, Store.size_push] at ih ⊢
      omega

/- The standard modes stay where they are. -/
theorem get?_eq (hMode : mode.number < standardTable.size) :
    table.modes.get? mode = standardTable.modes.get? mode := by
  induction hTable with
  | standard => rfl
  | @intern table hTable kind ih =>
    unfold ModeTable.intern
    split
    · exact ih
    · have hBound : mode.number < table.modes.size := Nat.lt_of_lt_of_le hMode hTable.size_le
      exact (Store.get?_push_of_lt _ _ hBound).trans ih

/- Only a standard mode has a name that was declared. -/
theorem name_eq_none (hMode : standardTable.size ≤ mode.number)
    (hEntry : table.modes.get? mode = some entry) : entry.name = none := by
  induction hTable with
  | standard =>
    have hBound := (Array.getElem?_eq_some_iff.mp hEntry).1
    exact absurd hBound (Nat.not_lt.mpr hMode)
  | @intern table hTable kind ih =>
    unfold ModeTable.intern at hEntry
    split at hEntry
    · exact ih hEntry
    · rcases Store.get?_push_eq_some hEntry with hOld | ⟨-, rfl⟩
      · exact ih hOld
      · rfl

/- Equal modes share one entry. -/
theorem kind_inj (hFirst : table.modes.get? left = some first)
    (hSecond : table.modes.get? right = some second) (hKind : first.kind = second.kind) :
    left = right := by
  induction hTable with
  | standard =>
    have hLeft := (Array.getElem?_eq_some_iff.mp hFirst).1
    have hRight := (Array.getElem?_eq_some_iff.mp hSecond).1
    have hTable : ∀ i j : Fin 14, (standardTable.modes.entries[i]).kind =
          (standardTable.modes.entries[j]).kind → i = j := by
      decide
    have hSame := hTable ⟨left.number, hLeft⟩ ⟨right.number, hRight⟩ (by
        rcases Array.getElem?_eq_some_iff.mp hFirst with ⟨_, rfl⟩
        rcases Array.getElem?_eq_some_iff.mp hSecond with ⟨_, rfl⟩
        exact hKind)
    exact Handle.ext (congrArg Fin.val hSame)
  | @intern table hTable kind ih =>
    unfold ModeTable.intern at hFirst hSecond
    split at hFirst
    · rename_i hFound
      rw [hFound] at hSecond
      exact ih hFirst hSecond
    · rename_i hNone
      rw [hNone] at hSecond
      rcases Store.get?_push_eq_some hFirst with
        hLeft | ⟨rfl, rfl⟩ <;>
      rcases Store.get?_push_eq_some hSecond with hRight | ⟨rfl, rfl⟩
      · exact ih hLeft hRight
      · exact absurd hKind (find?_eq_none hNone hLeft)
      · exact absurd hKind.symm (find?_eq_none hNone hRight)
      · rfl

omit hTable

/- The modes whose values have literals, and their words. -/
def foldableWords : List (ModeId × String) :=
  [(⟨1⟩, "int"), (⟨2⟩, "real"), (⟨3⟩, "bool"), (⟨4⟩, "char"), (⟨5⟩, "bits"), (⟨7⟩, "compl")]

include hTable

/- A standard mode has the words that it had at first. -/
theorem codeName_of_standard (hEntry : standardTable.modes.get? mode = some entry)
    (hText : entry.name = some text ∨ entry.name = none ∧
      ∀ name, kindText name entry.kind = .ok text) :
    table.codeName mode = .ok (Text.modeIdentifier text) := by
  have hBound := (Array.getElem?_eq_some_iff.mp hEntry).1
  have hFetch : table.modes.fetch mode = .ok entry :=
    Store.fetch_eq_ok.mpr ((hTable.get?_eq hBound).trans hEntry)
  rcases hText with hName | ⟨hName, hKind⟩
  · simp [codeName, name, nameWithin, hFetch, hName]
  · simp [codeName, name, nameWithin, hFetch, hName, hKind]

theorem codeName_of_primitive (hMode : table.isPrimitive mode = .ok true)
    (hWords : table.codeName mode = .ok words) : (mode, words) ∈ foldableWords := by
  rcases Walk.bind_eq_ok.mp hMode with ⟨_, hKind, hPrim⟩
  rcases kind_eq_ok.mp hKind with ⟨entry, hEntry, rfl⟩
  rw [Store.fetch_eq_ok] at hEntry
  have hIs : ∀ {standard : ModeId} {first : Mode} {text : String},
      standardTable.modes.get? standard = some first →
      first.kind = entry.kind → first.name = none →
      (∀ name, kindText name first.kind = .ok text) →
        mode = standard ∧ words = Text.modeIdentifier text := by
    intro standard first text hFirst hSame hName hText
    have hBound := (Array.getElem?_eq_some_iff.mp hFirst).1
    have hMode : mode = standard := hTable.kind_inj hEntry
        ((hTable.get?_eq hBound).trans hFirst) hSame.symm
    rw [hMode, hTable.codeName_of_standard hFirst (.inr ⟨hName, hText⟩), Except.ok.injEq] at hWords
    exact ⟨hMode, hWords.symm⟩
  cases hCase : entry.kind with
  | int =>
    rcases @hIs ⟨1⟩ ⟨.int, none⟩ _ rfl hCase.symm rfl fun _ => rfl with ⟨rfl, rfl⟩
    decide
  | real =>
    rcases @hIs ⟨2⟩ ⟨.real, none⟩ _ rfl hCase.symm rfl fun _ => rfl with ⟨rfl, rfl⟩
    decide
  | bool =>
    rcases @hIs ⟨3⟩ ⟨.bool, none⟩ _ rfl hCase.symm rfl fun _ => rfl with ⟨rfl, rfl⟩
    decide
  | char =>
    rcases @hIs ⟨4⟩ ⟨.char, none⟩ _ rfl hCase.symm rfl fun _ => rfl with ⟨rfl, rfl⟩
    decide
  | bits =>
    rcases @hIs ⟨5⟩ ⟨.bits, none⟩ _ rfl hCase.symm rfl fun _ => rfl with ⟨rfl, rfl⟩
    decide
  | _ =>
    rw [hCase] at hPrim
    cases hPrim

theorem codeName_of_complex (hMode : mode = table.standard.complex)
    (hWords : table.codeName mode = .ok words) : (mode, words) ∈ foldableWords := by
  rw [hTable.standard_eq] at hMode
  subst hMode
  have hEntry : standardTable.modes.get? standardTable.standard.complex =
        some ⟨.struct [⟨"re", ⟨2⟩⟩, ⟨"im", ⟨2⟩⟩], some "COMPL"⟩ :=
    rfl
  cases (hTable.codeName_of_standard hEntry (.inl rfl)).symm.trans hWords
  decide

theorem codeName_of_foldable (hMode : table.isFoldable mode = .ok true)
    (hWords : table.codeName mode = .ok words) : (mode, words) ∈ foldableWords := by
  simp only [isFoldable, Walk.or_eq_true] at hMode
  rcases hMode with hPrim | ⟨-, hComplex⟩
  · exact hTable.codeName_of_primitive hPrim hWords
  · exact hTable.codeName_of_complex (eq_of_beq (Except.ok.inj hComplex)) hWords

omit hTable

theorem name_of_unnamed (hEntry : table.modes.get? mode = some entry) (hName : entry.name = none)
    (hText : table.name mode = .ok text) : ∃ name, kindText name entry.kind = .ok text := by
  rw [ModeTable.name, nameWithin, Store.fetch_eq_ok.mpr hEntry] at hText
  simp only [Walk.ok_bind, hName] at hText
  exact ⟨_, hText⟩

theorem eq_complex_of_name (hTable : table.IsExtension)
    (hEntry : table.modes.get? mode = some entry) (hName : entry.name ≠ none) :
    mode = table.standard.complex := by
  by_cases hBound : mode.number < standardTable.size
  · rw [hTable.get?_eq hBound] at hEntry
    rcases Array.getElem?_eq_some_iff.mp hEntry with ⟨_, rfl⟩
    have hNames : ∀ i : Fin 14, (standardTable.modes.entries[i]).name ≠ none → i = 7 := by decide
    have hSame := hNames ⟨mode.number, hBound⟩ hName
    rw [hTable.standard_eq]
    exact Handle.ext (congrArg Fin.val hSame)
  · exact absurd (hTable.name_eq_none (Nat.le_of_not_lt hBound) hEntry) hName

theorem codeName_of_basic (hTable : table.IsExtension) (hMode : table.isBasic mode = .ok true)
    (hWords : table.codeName mode = .ok words) :
    (mode, words) ∈ foldableWords ∨ "ref".toList <+: words.toList ∨
        "struct".toList <+: words.toList := by
  rcases Walk.bind_eq_ok.mp hMode with ⟨_, hKind, hBasic⟩
  rcases kind_eq_ok.mp hKind with ⟨entry, hEntry, rfl⟩
  rw [Store.fetch_eq_ok] at hEntry
  by_cases hName : entry.name = none
  · rcases Walk.bind_eq_ok.mp hWords with ⟨text, hText, hSame⟩
    cases hSame
    rcases name_of_unnamed hEntry hName hText with ⟨name, hKindText⟩
    cases hCase : entry.kind with
    | ref target =>
      rw [hCase] at hKindText
      rcases Walk.bind_eq_ok.mp hKindText with ⟨referred, -, hReferred⟩
      cases hReferred
      exact .inr (.inl (Text.ref_prefix referred))
    | struct fields =>
      rw [hCase] at hKindText
      rcases Walk.bind_eq_ok.mp hKindText with ⟨texts, -, hTexts⟩
      cases hTexts
      rw [String.append_assoc]
      exact .inr (.inr (Text.struct_prefix _))
    | _ =>
      left
      rw [hCase] at hBasic hKind
      simp only [isPlain, Walk.or_eq_true] at hBasic
      rcases hBasic with hPrim | ⟨-, hStruct⟩
      · exact hTable.codeName_of_primitive hPrim hWords
      · simp [isBasicStruct, hKind] at hStruct
  · exact .inl (hTable.codeName_of_complex (hTable.eq_complex_of_name hEntry hName) hWords)

theorem foldableWords_inj (hLeft : (left, words) ∈ foldableWords)
    (hRight : (right, words) ∈ foldableWords) : left = right := by
  have hInj : ∀ entry ∈ foldableWords, ∀ other ∈ foldableWords, entry.2 = other.2 →
        entry.1 = other.1 := by
    decide
  exact hInj _ hLeft _ hRight rfl

theorem not_mem_foldableWords (hWords : (mode, words) ∈ foldableWords) : '_' ∉ words.toList := by
  have hPlain : ∀ entry ∈ foldableWords, '_' ∉ entry.2.toList := by decide
  exact hPlain _ hWords

/- The words of a basic mode that start with those of one whose values have literals. -/
theorem mem_foldableWords_of_append (hTable : table.IsExtension)
    (hWords : (mode, words) ∈ foldableWords) (hRight : table.isBasic right = .ok true)
    (hSecond : table.codeName right = .ok longer) (hLonger : longer.toList = words.toList ++ rest) :
    (right, longer) ∈ foldableWords := by
  have hBegins : ¬ "ref".toList <+: longer.toList ∧ ¬ "struct".toList <+: longer.toList := by
    rw [hLonger]
    simp only [foldableWords, List.mem_cons, List.not_mem_nil, or_false] at hWords
    rcases hWords with ⟨-, rfl⟩ | ⟨-, rfl⟩ | ⟨-, rfl⟩ | ⟨-, rfl⟩ | ⟨-, rfl⟩ | ⟨-, rfl⟩ <;> simp
  rcases hTable.codeName_of_basic hRight hSecond with hOther | hPrefix | hPrefix
  · exact hOther
  · exact absurd hPrefix hBegins.1
  · exact absurd hPrefix hBegins.2

/- The words of a mode whose values have literals are those of no other basic mode. -/
theorem codeName_inj (hTable : table.IsExtension) (hLeft : table.isFoldable left = .ok true)
    (hRight : table.isBasic right = .ok true) (hFirst : table.codeName left = .ok words)
    (hSecond : table.codeName right = .ok words) : left = right := by
  have hWords := hTable.codeName_of_foldable hLeft hFirst
  exact foldableWords_inj hWords
    (mem_foldableWords_of_append hTable hWords hRight hSecond (List.append_nil _).symm)

/- The words of no basic mode continue those of another one. -/
theorem not_codeName_append (hTable : table.IsExtension) (hLeft : table.isFoldable left = .ok true)
    (hRight : table.isBasic right = .ok true) (hFirst : table.codeName left = .ok words)
    (hSecond : table.codeName right = .ok longer) :
    longer.toList ≠ words.toList ++ '_' :: rest := by
  intro hLonger
  have hWords := hTable.codeName_of_foldable hLeft hFirst
  exact not_mem_foldableWords (mem_foldableWords_of_append hTable hWords hRight hSecond hLonger)
    (by simp [hLonger])

end IsExtension

end ModeTable

end Algol68
