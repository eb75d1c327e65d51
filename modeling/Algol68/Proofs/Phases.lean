import Algol68.Proofs.Coverage

/-
  What each pass over a unit may change.

  The first pass writes nothing, the second one only adds to
  the code, and reading a value changes nothing, whatever the
  tree is like. So a function that is given up leaves no trace
  in the code: nothing is written when the first pass meets a
  problem, and if the second one does, the text is cut again.

  Main declarations:
    * `Context.phases_keep_apart`
-/

------ Silence

namespace Algol68

namespace Context

/- Nothing was written, and the indentation is the same. -/
def Silent (before after : Context) : Prop :=
  after.outputText = before.outputText ∧ after.depth = before.depth

instance : Std.Refl Silent := ⟨fun _ => ⟨rfl, rfl⟩⟩

instance : IsTrans Context Silent :=
  ⟨fun _ _ _ hFirst hSecond => ⟨hSecond.1.trans hFirst.1, hSecond.2.trans hFirst.2⟩⟩

theorem tracks_silent (tree : SyntaxTree) : Tracks tree Silent fun _ => True where
  declare := fun _ _ _ => ⟨rfl, rfl⟩
  book := fun _ _ => ⟨rfl, rfl⟩
  constant := fun _ _ => declareConstant_steps fun _ hFolds => by cases hFolds <;> exact ⟨rfl, rfl⟩
  child := fun _ _ _ _ _ => trivial
  children := fun _ _ _ _ _ _ => trivial

end Context

------ Phases

/- What a pass over a unit leaves alone. -/
def Phase.Keeps : Phase → Context → Context → Prop
  | .declare, before, after => before.Silent after
  | .execute, before, after =>
    (∃ added, after.outputText = before.outputText ++ added) ∧
      after = { before with bookings := after.bookings, output := after.output }
  | .yield, before, after => after = before

namespace Context

open Inline Emission

/- What a pass leaves alone that reads and changes nothing but bookings and scope. -/
theorem meets_of_gives (hStep : Gives ctx.scope still step post) :
    Step.Meets False step ctx fun val next =>
      post val ∧ next = ctx.booked next.bookings ∧ (still → next = ctx) :=
  Walk.Meets.mono (.of_ends False.elim) fun _ hRun => hStep.of_run hRun

theorem outputText_append (ctx : Context) (fragment : Fragment) :
    (ctx.append fragment).outputText = ctx.outputText ++ fragment.render := by
  simp [outputText, append]

theorem inlineUnit_keeps (tree : SyntaxTree) (id : NodeId) (phase : Phase) (ctx : Context) :
    Step.Meets False (inlineUnit tree id phase) ctx fun _ next => phase.Keeps ctx next := by
  cases phase with
  | declare =>
    have hUnit : Steps Silent (declareUnit tree id) :=
      declareUnit_keeps (guides_steps (tracks_silent tree)) trivial
    apply (hUnit ctx).bind
    intro _ next hSilent
    exact .of_pure hSilent
  | execute =>
    apply (meets_of_gives (executeUnit_local id)).bind
    rintro body mid ⟨-, hMid, -⟩
    rw [hMid]
    apply Step.Meets.modify_bind
    refine .of_pure ⟨⟨Fragment.render (.statements ctx.depth body), ?_⟩, rfl⟩
    exact outputText_append _ _
  | yield =>
    have hYield : Gives ctx.scope True (yieldUnit tree id) (Refers ctx.scope) := yieldWithin_gives
    apply (meets_of_gives hYield).bind
    rintro val mid ⟨-, -, hStill⟩
    exact .of_pure (hStill trivial)

------ Functions Given Up

/- The first pass writes nothing, and the second one only adds to the text. -/
structure KeepsText (writer : Writer) : Prop where
  declare : ∀ ctx, Step.Meets False writer.declare ctx fun _ next =>
    next.outputText = ctx.outputText
  execute : ∀ ctx, Step.Meets False writer.execute ctx fun _ next =>
    ∃ added, next.outputText = ctx.outputText ++ added

theorem KeepsText.of_draft (hDraft : Draft tree (fun _ => True) writer) : KeepsText writer where
  declare := by
    have hSteps : Steps Silent writer.declare :=
      hDraft.keeps (guides_steps (tracks_silent tree)) fun _ _ => trivial
    exact fun ctx => (hSteps ctx).mono fun _ _ hSilent => hSilent.1
  execute := by
    intro ctx
    apply (meets_of_gives (hDraft.execute_local ctx.scope)).mono
    rintro body next ⟨-, hNext, -⟩
    rw [hNext]
    exact ⟨"", String.append_empty.symm⟩

theorem firstBytes_append (first rest : String) :
    firstBytes (first ++ rest) first.utf8ByteSize = .ok first := by
  unfold firstBytes
  split
  · rename_i hSize
    rw [String.utf8ByteSize_append] at hSize
    have hNone : rest.utf8ByteSize = 0 := by omega
    rw [String.utf8ByteSize_eq_zero_iff.mp hNone, String.append_empty]
    rfl
  · have hStart : (first ++ rest).toUTF8.extract 0 first.utf8ByteSize = first.toUTF8 := by
      rw [String.toUTF8_eq_toByteArray, String.toByteArray_append]
      exact ByteArray.extract_append_eq_left rfl
    have hText : String.fromUTF8? first.toUTF8 = some first := dif_pos first.isValidUTF8
    rw [hStart, hText]
    rfl

/- What was written since the start is cut off. -/
theorem keepWritten_outputText (hText : next.outputText = start.outputText ++ added) :
    Step.Meets False (keepWritten start name) next fun res last =>
      res = none → start.errorCount < last.errorCount ∧ last.outputText = start.outputText := by
  apply Step.Meets.get_bind
  split
  · rename_i hErrs
    have hCut : next.truncateOutput start.outputText.utf8ByteSize =
          .ok { next with output := [.text start.outputText] } := by
      rw [truncateOutput, hText, firstBytes_append]
      rfl
    rw [hCut]
    exact fun _ => ⟨hErrs, by simp [outputText, Fragment.render]⟩
  · exact .of_pure fun hNone => nomatch hNone

theorem writeFunction_outputText (hWriter : KeepsText writer) (id : NodeId) (name : String)
    (ctx : Context) :
    Step.Meets False (writeFunction tree id name writer) ctx fun _ next =>
      ∃ added, next.outputText = ctx.outputText ++ added := by
  apply Step.Meets.walk_bind False.elim
  intro source _
  apply Step.Meets.walk_bind False.elim
  intro node _
  apply (hWriter.execute ctx).bind
  rintro body next ⟨added, hText⟩
  apply Step.Meets.get_bind
  have hMore : ∀ fragment, ∃ more, (next.append fragment).outputText = ctx.outputText ++ more := by
    intro fragment
    rw [outputText_append, hText, String.append_assoc]
    exact ⟨_, rfl⟩
  exact hMore _

theorem emitFunction_outputText (hWriter : KeepsText writer) (id : NodeId) (name : String)
    (ctx : Context) :
    Step.Meets False (emitFunction tree id name writer) ctx fun res next =>
      res = none → ctx.errorCount < next.errorCount ∧ next.outputText = ctx.outputText := by
  apply Step.Meets.get_bind
  apply Step.Meets.modify_bind
  apply (hWriter.declare ctx.beginFunction).bind
  intro _ declared hStart
  apply Step.Meets.get_bind
  split
  · rename_i hErrs
    exact .of_pure fun _ => ⟨hErrs, hStart⟩
  · apply (writeFunction_outputText hWriter id name declared).bind
    rintro _ written ⟨added, hText⟩
    rw [hStart] at hText
    exact keepWritten_outputText hText

/-
  Each pass keeps to its phase, so do both passes of a piece of code, and a function that is
  given up for a problem of either pass leaves the text as it was.
-/
theorem phases_keep_apart (tree : SyntaxTree) (id : NodeId) (context next : Context) :
    (∀ phase text, (inlineUnit tree id phase).run context = .ok (text, next) →
        phase.Keeps context next) ∧
      (∀ writer, Draft tree (fun _ => True) writer → KeepsText writer) ∧
      ∀ writer name, KeepsText writer →
        (emitFunction tree id name writer).run context = .ok (none, next) →
          context.errorCount < next.errorCount ∧ next.outputText = context.outputText := by
  refine ⟨?_, fun _ => .of_draft, ?_⟩
  · intro phase text hRun
    exact (inlineUnit_keeps tree id phase context).of_run hRun
  · intro writer name hWriter hRun
    exact (emitFunction_outputText hWriter id name context).of_run hRun rfl

/- A context in the midst of a function. -/
def midway : Context :=
  { ofOptions { level := 3 } with
    folded := [(⟨3⟩, some (.int 1))]
    depth := 1
    output := [.text "A68_INT count;\n"] }

/- Code that meets a problem only when it is written. -/
def lateProblem : Writer where
  declare := pure ()
  execute := do
    modify fun context => context.report ⟨⟨2⟩, 1, .notFinite ⟨2⟩⟩
    pure []

/- All passes over a one, and two functions that are given up. -/
theorem phases_keep_apart_faultySource :
    (∀ phase, ∃ text next,
        (inlineUnit SyntaxTree.faultySource ⟨3⟩ phase).run midway = .ok (text, next) ∧
          phase.Keeps midway next) ∧
      ∀ writer ∈ [value SyntaxTree.faultySource ⟨2⟩, lateProblem], ∃ next,
        (emitFunction SyntaxTree.faultySource ⟨2⟩ "quotient" writer).run midway =
            .ok (none, next) ∧
          midway.errorCount < next.errorCount ∧ next.outputText = midway.outputText := by
  have hGivenUp : ∀ writer ∈ [value SyntaxTree.faultySource ⟨2⟩, lateProblem],
      ((emitFunction SyntaxTree.faultySource ⟨2⟩ "quotient" writer).run midway >>= fun result =>
          pure result.1) = .ok none ∧ KeepsText writer := by
    rintro writer (_ | ⟨_, _ | ⟨_, ⟨⟩⟩⟩)
    · exact ⟨by decide +kernel, .of_draft (.value trivial)⟩
    · exact ⟨by decide +kernel, fun _ => rfl, fun ctx => ⟨"", String.append_empty.symm⟩⟩
  constructor
  · intro phase
    have hEnds : ∃ text next,
        (inlineUnit SyntaxTree.faultySource ⟨3⟩ phase).run midway = .ok (text, next) := by
      cases phase <;> exact ⟨_, _, rfl⟩
    rcases hEnds with ⟨text, next, hRun⟩
    exact ⟨text, next, hRun, (phases_keep_apart _ _ _ next).1 phase text hRun⟩
  · intro writer hWriter
    rcases hGivenUp writer hWriter with ⟨hNone, hKeeps⟩
    rcases Walk.bind_eq_ok.mp hNone with ⟨⟨result, next⟩, hRun, hResult⟩
    cases hResult
    exact ⟨next, hRun, (phases_keep_apart _ _ _ next).2.2 _ _ hKeeps hRun⟩

end Context

end Algol68
