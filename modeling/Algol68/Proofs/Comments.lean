import Mathlib.Data.List.Chain
import Algol68.Emission
import Algol68.Proofs.Texts
import Algol68.Proofs.Walk

/-
  Comments in generated code.

  A comment shows the source of a fragment, which may hold any text. The text is changed so that
  it cannot end the comment, whatever its pieces are put together from.

  Main declarations:
    * `Context.comments_close_once`
-/

------ Text without an End

namespace Algol68

namespace Text

/- Nowhere in a text does a comment end. -/
def IsOpen (chars : List Char) : Prop :=
  chars.IsChain fun first second => first = '*' → second ≠ '/'

/- The end of a comment stands at the end of a text, and nowhere else in it. -/
def ClosesOnce (text : String) : Prop :=
  ∃ opened, text.toList = opened ++ ['*', '/'] ∧
    ∀ early late, text.toList = early ++ '*' :: '/' :: late → early = opened ∧ late = []

theorem IsOpen.of_not_mem (hPlain : '*' ∉ chars) : IsOpen chars := by
  refine List.isChain_iff_forall_rel_of_append_cons_cons.mpr ?_
  rintro first second early late rfl rfl
  simp at hPlain

/- A text is open if its parts are and no end comes about where they meet. -/
theorem IsOpen.append (hFirst : IsOpen first) (hSecond : IsOpen second)
    (hMeet : '*' ∉ first.getLast? ∨ '/' ∉ second.head?) : IsOpen (first ++ second) := by
  refine List.isChain_append.mpr ⟨hFirst, hSecond, ?_⟩
  rintro left hLeft right hRight rfl rfl
  exact hMeet.elim (absurd hLeft) (absurd hRight)

/- If a text is open up to its last character, its end is the only one. -/
theorem ClosesOnce.of_isOpen (hText : text.toList = opened ++ ['*', '/'])
    (hOpen : IsOpen (opened ++ ['*'])) : ClosesOnce text := by
  refine ⟨opened, hText, ?_⟩
  intro early late hEarly
  rw [hText] at hEarly
  rcases List.eq_nil_or_concat late with rfl | ⟨rest, last, rfl⟩
  · have hSame : opened ++ ['*', '/'] = early ++ ['*', '/'] := hEarly
    exact ⟨(List.append_left_inj _).mp hSame.symm, rfl⟩
  · have hLonger : opened ++ ['*'] ++ ['/'] = early ++ '*' :: '/' :: rest ++ [last] := by
      simpa using hEarly
    rw [(List.append_inj' hLonger rfl).1] at hOpen
    exact absurd rfl ((List.isChain_append_cons_cons.mp hOpen).2.1 rfl)

end Text

namespace Function

open Text

theorem head?_withoutCommentEnds (chars : List Char) :
    (withoutCommentEnds chars).head? = chars.head? := by
  fun_cases withoutCommentEnds chars <;> rfl

/- What is replaced leaves no end, and none comes about next to it. -/
theorem withoutCommentEnds_isOpen (chars : List Char) : IsOpen (withoutCommentEnds chars) := by
  fun_induction withoutCommentEnds chars with
  | case1 rest ih =>
    have hSlash : IsOpen (['/'] ++ withoutCommentEnds rest) :=
      .append (.singleton _) ih (.inl (by decide))
    exact .cons_cons (by decide) (.cons_cons (by decide) hSlash)
  | case2 c rest hOther ih =>
    have hMeet : '*' ∉ [c].getLast? ∨ '/' ∉ (withoutCommentEnds rest).head? := by
      rw [head?_withoutCommentEnds, ← not_and_or]
      rintro ⟨hStar, hSlash⟩
      exact hOther _ (Option.some.inj hStar) (List.head?_eq_some_iff.mp hSlash).choose_spec
    exact .append (.singleton c) ih hMeet
  | case3 => exact .nil

theorem comment_closesOnce (func : Function) : ClosesOnce func.comment := by
  have hDigits : '*' ∉ (toString func.line).toList := fun hStar =>
    absurd (isDigit_of_mem_toString hStar) (by decide)
  have hLine : IsOpen (" (line ".toList ++ (toString func.line).toList ++ ") ".toList) :=
    .of_not_mem (by simpa using hDigits)
  have hShown : IsOpen ("/* ".toList ++ withoutCommentEnds func.source.toList) :=
    .append (by simp [Text.IsOpen]) (withoutCommentEnds_isOpen _) (.inl (by decide))
  have hWhole := (hShown.append hLine (.inr (by simp))).append (.singleton '*') (.inr (by decide))
  refine .of_isOpen ?_ hWhole
  simp [comment]

------ Functions

theorem text_eq (func : Function) : ∃ rest, func.text = func.comment ++ "\n" ++ rest := by
  simp only [text, lines, Line.renderAll, Line.rendered, List.map_append, List.map_cons,
    String.join_append, String.join_cons, List.replicate_zero, String.join_nil,
    String.empty_append, String.append_assoc]
  exact ⟨_, rfl⟩

end Function

namespace Context

open Text Emission

/-
  A function that is written starts with a comment that shows the source of its node, and the
  comment ends behind the source and its line, and not before.
-/
theorem comments_close_once (tree : SyntaxTree) (id : NodeId) (name : String) (writer : Writer)
    (hEmits : (emitFunction tree id name writer).run before = .ok (some given, after)) :
    ∃ early function node rest, after.output = early ++ [.function function] ∧
      function.text = function.comment ++ "\n" ++ rest ∧
      tree.sourceText id = .ok function.source ∧ tree.node id = .ok node ∧
      function.comment =
        "/* " ++ String.ofList (Function.withoutCommentEnds function.source.toList) ++
          " (line " ++ toString node.line ++ ") */" ∧
      ClosesOnce function.comment := by
  have hAny : ∀ {α : Type} (step : Task α) ctx, Step.Meets False step ctx fun _ _ => True :=
    fun step ctx => Walk.Meets.mono (.of_ends False.elim) fun _ _ => trivial
  have hWrites : ∀ ctx, Step.Meets False (writeFunction tree id name writer) ctx fun _ next =>
      ∃ early function node, next.output = early ++ [.function function] ∧
        tree.sourceText id = .ok function.source ∧ tree.node id = .ok node ∧
        function.line = node.line := by
    intro ctx
    apply Step.Meets.walk_bind False.elim
    intro source hSource
    apply Step.Meets.walk_bind False.elim
    intro node hNode
    apply (hAny writer.execute _).bind
    rintro body written -
    exact ⟨_, _, node, rfl, hSource, hNode, rfl⟩
  have hMeets : Step.Meets False (emitFunction tree id name writer) before fun result next =>
      result = some given → ∃ early function node, next.output = early ++ [.function function] ∧
        tree.sourceText id = .ok function.source ∧ tree.node id = .ok node ∧
        function.line = node.line := by
    apply Step.Meets.get_bind
    apply Step.Meets.modify_bind
    apply (hAny writer.declare _).bind
    rintro _ declared -
    apply Step.Meets.get_bind
    split
    · exact .of_pure nofun
    · apply (hWrites declared).bind
      intro _ next hNext
      apply Step.Meets.get_bind
      split
      · exact .walk_bind False.elim fun cut _ => .set_bind (.of_pure nofun)
      · exact .of_pure fun _ => hNext
  rcases hMeets.of_run hEmits rfl with ⟨early, function, node, hOutput, hSource, hNode, hLine⟩
  rcases function.text_eq with ⟨rest, hText⟩
  refine ⟨early, function, node, rest, hOutput, hText, hSource, hNode, ?_,
    function.comment_closesOnce⟩
  rw [Function.comment, hLine]

/- A source whose pieces make up an end. -/
def pieced : SyntaxTree where
  nodes := ⟨#[{ attr := .slice, mode := some ⟨1⟩, sub := some ⟨1⟩, line := 7 },
      { attr := .identifier, symbol := "x", next := some ⟨2⟩ },
      { attr := .denoter, symbol := "**", next := some ⟨3⟩ },
      { attr := .denoter, symbol := "//" }]⟩

theorem comments_close_once_pieced :
    ∃ after function, (emitFunction pieced ⟨0⟩ "f" (.ofStatements [])).run (.ofOptions {}) =
        .ok (some "f", after) ∧ .function function ∈ after.output ∧
      function.source = "x[**//]" ∧ ClosesOnce function.comment := by
  have hEmits : ∃ after, (emitFunction pieced ⟨0⟩ "f" (.ofStatements [])).run (.ofOptions {}) =
      .ok (some "f", after) := ⟨_, rfl⟩
  have hSource : pieced.sourceText ⟨0⟩ = .ok "x[**//]" := by decide +kernel
  rcases hEmits with ⟨after, hEmits⟩
  rcases comments_close_once pieced ⟨0⟩ "f" _ hEmits with
    ⟨early, function, _, _, hOutput, -, hFound, -, -, hCloses⟩
  refine ⟨after, function, hEmits, ?_, Except.ok.inj (hFound.symm.trans hSource), hCloses⟩
  rw [hOutput]
  exact List.mem_concat_self

end Context

end Algol68
