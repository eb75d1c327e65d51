/-
  Names of the source language as words of C identifiers.

  A C identifier is made of the maximal runs of ASCII letters
  and digits in a name, in lower case, joined by underscores.
-/

------ Words

namespace Algol68

namespace Text

def finished (word : List Char) : List (List Char) := if word.isEmpty then [] else [word]

/- The maximal runs of ASCII letters and digits, with `word` as the run already begun. -/
def words (word : List Char) : List Char → List (List Char)
  | [] => finished word
  | c :: rest => if c.isAlphanum then words (word ++ [c]) rest else finished word ++ words [] rest

def joinWords (chars : List Char) : String :=
  String.intercalate "_" ((words [] chars).map String.ofList)

/- The C identifier of a source name such as `max int`. -/
def identifier (name : String) : String := joinWords (name.toList.map Char.toLower)

/-
  The ASCII letters in the lower case of a character. Only two characters beyond ASCII have one:
  the dotted capital I, which becomes an i and a combining dot, and the Kelvin sign.
-/
def lowerCase (c : Char) : List Char :=
  if c.toNat = 0x130 then ['i', Char.ofNat 0x307]
  else if c.toNat = 0x212a then ['k']
  else [c.toLower]

def modeIdentifier (name : String) : String := joinWords (name.toList.flatMap lowerCase)

/- Equality that takes ASCII capitals for small letters. -/
def equalIgnoringCase (left right : String) : Bool :=
  left.toList.map Char.toLower == right.toList.map Char.toLower

/- Every word is a nonempty run of letters and digits. -/
theorem words_alphanum (chars : List Char) :
    ∀ (word : List Char), (∀ c ∈ word, c.isAlphanum = true) → ∀ run ∈ words word chars,
          run ≠ [] ∧ ∀ c ∈ run, c.isAlphanum = true := by
  induction chars with
  | nil =>
    intro word hWord run hRun
    simp only [words, finished] at hRun
    split at hRun
    · simp at hRun
    · rename_i hEmpty
      simp only [List.mem_singleton] at hRun
      subst hRun
      exact ⟨by simpa using hEmpty, hWord⟩
  | cons c rest ih =>
    intro word hWord run hRun
    simp only [words] at hRun
    split at hRun
    · rename_i hChar
      refine ih (word ++ [c]) ?_ run hRun
      intro d hMember
      rcases List.mem_append.mp hMember with hOld | hNew
      · exact hWord d hOld
      · simp only [List.mem_singleton] at hNew
        exact hNew ▸ hChar
    · rcases List.mem_append.mp hRun with hNow | hLater
      · simp only [finished] at hNow
        split at hNow
        · simp at hNow
        · rename_i hEmpty
          simp only [List.mem_singleton] at hNow
          subst hNow
          exact ⟨by simpa using hEmpty, hWord⟩
      · exact ih [] (by simp) run hLater

end Text

end Algol68
