import Algol68.Proofs.Functions

/-
  Where problems are reported.

  A constant that fails is reported at its own node, and the table of constants sees to it that
  this happens once in a function. So the problems of a function are at different nodes, each in a
  unit that is written in place, and there is at least one if no function is written.
-/

------ Reports of a Function

namespace Algol68

namespace Context

/- New problems with constants at certain nodes, each of which was not yet in the table. -/
structure Reports (known : NodeId → Prop) (before after : Context) : Prop where
  folded : ∀ id, (before.folded.lookup id).isSome → (after.folded.lookup id).isSome
  extended : ∃ extra, after.diagnostics = before.diagnostics ++ extra ∧
      (extra.map Diagnostic.node).Nodup ∧ ∀ diagnostic ∈ extra, diagnostic.IsFolding ∧
          known diagnostic.node ∧ before.folded.lookup diagnostic.node = none ∧
              (after.folded.lookup diagnostic.node).isSome

theorem Reports.of_eq (hFolded : after.folded = before.folded)
    (hDiagnostics : after.diagnostics = before.diagnostics) : Reports known before after where
  folded := fun id hSome => by
    rw [hFolded]
    exact hSome
  extended := ⟨[], by simp [hDiagnostics], by simp, by simp⟩

/- What is in the table already is not reported again. -/
theorem Reports.trans (hFirst : Reports known before mid) (hSecond : Reports known mid after) :
    Reports known before after := by
  rcases hFirst.extended with ⟨first, hMid, hNodup, hEach⟩
  rcases hSecond.extended with ⟨second, hAfter, hOthers, hOther⟩
  have hNew : ∀ diag ∈ second, before.folded.lookup diag.node = none := by
    intro diag hMem
    rcases hOther diag hMem with ⟨-, -, hNone, -⟩
    by_contra hSome
    have hKept := hFirst.folded diag.node (Option.isSome_iff_ne_none.mpr hSome)
    rw [hNone] at hKept
    cases hKept
  refine ⟨fun id hSome => hSecond.folded id (hFirst.folded id hSome), first ++ second, ?_, ?_, ?_⟩
  · rw [hAfter, hMid, List.append_assoc]
  · rw [List.map_append, List.nodup_append]
    refine ⟨hNodup, hOthers, ?_⟩
    intro node hNode other hAgain hSame
    subst hSame
    rcases List.mem_map.mp hNode with ⟨left, hLeft, rfl⟩
    rcases List.mem_map.mp hAgain with ⟨right, hRight, hSame⟩
    have hSome := (hEach left hLeft).2.2.2
    have hNone := (hOther right hRight).2.2.1
    rw [← hSame, hNone] at hSome
    cases hSome
  · intro diag hMem
    rcases List.mem_append.mp hMem with hLeft | hRight
    · rcases hEach diag hLeft with ⟨hFolding, hKnown, hNone, hSome⟩
      exact ⟨hFolding, hKnown, hNone, hSecond.folded diag.node hSome⟩
    · rcases hOther diag hRight with ⟨hFolding, hKnown, -, hSome⟩
      exact ⟨hFolding, hKnown, hNew diag hRight, hSome⟩

instance : Std.Refl (Reports known) := ⟨fun _ => .of_eq rfl rfl⟩

instance : IsTrans Context (Reports known) := ⟨fun _ _ _ => Reports.trans⟩

------ Constants

variable {tree : SyntaxTree} {id : NodeId}

/- A constant is in the table after it was evaluated. -/
theorem declareConstant_reports (hKnown : known id) :
    Steps (Reports known) (Inline.declareConstant tree id) := by
  apply declareConstant_steps
  intro ctx next _ _ hLookup hFolds
  have hFolded : next.folded = ctx.folded := by cases hFolds <;> rfl
  constructor
  · intro other hSome
    rw [hFolded, List.lookup_cons]
    split
    · rfl
    · exact hSome
  · cases hFolds with
    | @failed diag hNode hFolding =>
      refine ⟨[diag], rfl, by simp, ?_⟩
      rw [List.forall_mem_singleton, hNode]
      exact ⟨hFolding, hKnown, hLookup, by simp⟩
    | found | defined => exact ⟨[], by simp, by simp, by simp⟩

theorem tracks_reports (hTree : tree.IsRegular)
    (hClosed : ∀ id inner, known id → tree.Holds id inner → known inner) :
    Tracks tree (Reports known) known where
  declare := fun _ _ _ => .of_eq rfl rfl
  book := fun _ _ => .of_eq rfl rfl
  constant := fun _ hKnown => declareConstant_reports hKnown
  child := fun id _ kid hKnown hChild => hClosed id kid hKnown (.of_childOf hTree hChild)
  children := fun id _ kid hKnown hKids hKid => hClosed id kid hKnown (.of_child hKids hKid)

------ Functions

open Emission

/- Problems come up with constants at certain nodes, no two of them at one node. -/
def Complains (known : NodeId → Prop) (before after : Context) : Prop :=
  ∃ extra, extra ≠ [] ∧ after.diagnostics = before.diagnostics ++ extra ∧
      (extra.map Diagnostic.node).Nodup ∧ ∀ diagnostic ∈ extra, diagnostic.IsFolding ∧
          known diagnostic.node

/- Either problems come up or none does. -/
theorem Reports.complains_or_eq (hReports : Reports known before after) :
    Complains known before after ∧ before.errorCount < after.errorCount ∨
      after.diagnostics = before.diagnostics := by
  rcases hReports.extended with ⟨extra, hAfter, hNodup, hEach⟩
  cases extra with
  | nil =>
    right
    rw [hAfter, List.append_nil]
  | cons first rest =>
    left
    refine ⟨⟨first :: rest, List.cons_ne_nil _ _, hAfter, hNodup, fun diag hMem => ?_⟩, ?_⟩
    · rcases hEach diag hMem with ⟨hFolding, hKnown, -, -⟩
      exact ⟨hFolding, hKnown⟩
    · rw [before.counted, after.counted]
      simp [hAfter]

theorem emitFunction_reports (hTree : tree.IsRegular) (hDraft : Draft tree unit writer)
    (id : NodeId) (name : String) (ctx : Context) :
    Step.Meets False (emitFunction tree id name writer) ctx
      fun res next => next.tier = ctx.tier ∧ (res = none ∧
            Complains (fun inner => ∃ outer, unit outer ∧ tree.Holds outer inner) ctx next ∨
          res = some name ∧ next.diagnostics = ctx.diagnostics) := by
  have hTracks : Tracks tree (Reports fun inner => ∃ outer, unit outer ∧ tree.Holds outer inner)
      fun inner => ∃ outer, unit outer ∧ tree.Holds outer inner := by
    apply tracks_reports hTree
    rintro id inner ⟨outer, hUnit, hHolds⟩ hInner
    exact ⟨outer, hUnit, hHolds.trans hInner⟩
  have hUnits : ∀ id, unit id → ∃ outer, unit outer ∧ tree.Holds outer id :=
    fun id hUnit => ⟨id, hUnit, .refl tree id⟩
  have hDeclares := (hDraft.keeps (Inline.guides_steps hTracks) hUnits ctx.beginFunction).and
      (hDraft.keeps (Inline.guides_steps (tracks_quiet tree)) (fun _ _ => trivial)
        ctx.beginFunction)
  apply emitFunction_rule hDraft.execute_local hDeclares
  · rintro declared ⟨hReports, hQuiet⟩ hErrs
    refine ⟨hQuiet.tier, .inl ⟨rfl, ?_⟩⟩
    rcases hReports.complains_or_eq with ⟨hComplains, -⟩ | hSame
    · exact hComplains
    · exact absurd hErrs (Nat.not_lt.mpr (errorCount_congr hSame).le)
  · exact fun _ _ _ => False.elim
  · rintro declared func bookings ⟨hReports, hQuiet⟩ hErrs - - -
    refine ⟨hQuiet.tier, .inr ⟨rfl, ?_⟩⟩
    rcases hReports.complains_or_eq with ⟨-, hCount⟩ | hSame
    · exact absurd hCount (Nat.not_lt.mpr hErrs)
    · exact hSame

end Context

end Algol68
