import Algol68.Proofs.Paths

/-
  Nesting of braces and frames.

  Every line of a function is a bracket or stands between them.
  The brackets match, a brace is closed at the depth at which it
  was opened, and a frame is closed with the mark that was saved
  right before it was opened.

  Main declarations:
    * `SyntaxTree.Conforms.brackets_match`
-/

------ Words of Brackets

namespace Algol68

open List

/- What a line opens or closes, if anything. -/
inductive Bracket
  | plain
  | opening (depth : Nat)
  | otherwise (depth : Nat)
  | closing (depth : Nat)
  | save (mark : Temp)
  | openFrame
  | closeFrame (mark : Temp)

/- A line looks as its bracket says. -/
def Line.Shows (line : Line) : Bracket → Prop
  | .plain => line.text.toList.getLast? ∉ [some '\x7b', some '\x7d']
  | .opening depth => line.depth = depth ∧ line.text.toList.getLast? = some '\x7b' ∧
      line.text.toList.head? ≠ some '\x7d'
  | .otherwise depth => line = ⟨depth, "\x7d else \x7b"⟩
  | .closing depth => line = ⟨depth, "\x7d"⟩
  | .save mark => line.text = mark.text ++ " = A68_FP;"
  | .openFrame => ∃ stmt : Stmt, stmt.isOpening = true ∧ line.text = stmt.simpleText
  | .closeFrame mark => line.text = "A68_CLOSE_FRAME (" ++ mark.text ++ ");"

/- Words in which the brackets match. A mark is not saved again before its frame is closed. -/
inductive Bracketed : List Bracket → Prop
  | nil : Bracketed []
  | plain : Bracketed [.plain]
  | append (hFirst : Bracketed first) (hSecond : Bracketed second) : Bracketed (first ++ second)
  | block (hInside : Bracketed inside) : Bracketed (.opening depth :: (inside ++ [.closing depth]))
  | branches (hYes : Bracketed yes) (hNo : Bracketed no) :
      Bracketed (.opening depth :: (yes ++ .otherwise depth :: (no ++ [.closing depth])))
  | frame (hInside : Bracketed inside) (hMark : .save mark ∉ inside) :
      Bracketed (.save mark :: .openFrame :: (inside ++ [.closeFrame mark]))

------ Brackets of Statements

namespace Stmt

mutual

/- The brackets of the lines of a statement. -/
def brackets (depth : Nat) : Stmt → List Bracket
  | .branch _ _ yes no => .opening depth :: (bracketsOf (depth + 1) yes ++
      .otherwise depth :: (bracketsOf (depth + 1) no ++ [.closing depth]))
  | .branchOnly _ body | .loop _ body | .block body =>
    .opening depth :: (bracketsOf (depth + 1) body ++ [.closing depth])
  | .switch _ arms otherwise => .opening depth :: (armBrackets depth arms ++
      .opening depth :: (bracketsOf (depth + 1) otherwise ++
        [.plain, .closing depth, .closing depth]))
  | .saveFrame mark => [.save mark]
  | .openFrame _ | .openProcedure _ _ => [.openFrame]
  | .closeFrame mark => [.closeFrame mark]
  | _ => [.plain]

/- The brackets of statements. -/
def bracketsOf (depth : Nat) : List Stmt → List Bracket
  | [] => []
  | stmt :: rest => brackets depth stmt ++ bracketsOf depth rest

/- The brackets of arms. -/
def armBrackets (depth : Nat) : List (List Stmt) → List Bracket
  | [] => []
  | arm :: rest => .opening depth :: (bracketsOf (depth + 1) arm ++
      .plain :: .closing depth :: armBrackets depth rest)

end

@[simp] theorem bracketsOf_append (depth : Nat) (first second : List Stmt) :
    bracketsOf depth (first ++ second) = bracketsOf depth first ++ bracketsOf depth second := by
  induction first with
  | nil => rfl
  | cons stmt rest ih => rw [cons_append, bracketsOf, ih, bracketsOf, append_assoc]

------ Lines and their Brackets

theorem getLast?_text {first : String} (hLast : last.toList.getLast? = some c) :
    (first ++ last).toList.getLast? = some c := by
  rw [String.toList_append, getLast?_append, hLast]
  rfl

theorem head?_text {first : String} (hFirst : first.toList.head? = some c) :
    (first ++ last).toList.head? = some c := by
  rw [String.toList_append, head?_append, hFirst]
  rfl

theorem shows_plain (hText : text.toList.getLast? = some c)
    (hOther : c ≠ '\x7b' ∧ c ≠ '\x7d') : Line.Shows ⟨depth, text⟩ .plain := by
  simpa [Line.Shows, hText] using hOther

theorem getLast?_simpleText {stmt : Stmt} (hPlain : stmt.isPlain = true) :
    stmt.simpleText.toList.getLast? = some ';' := by
  cases stmt with
  | branch _ _ _ _ | branchOnly _ _ | switch _ _ _ | loop _ _ | block _
  | saveFrame _ | openFrame _ | openProcedure _ _ | closeFrame _ => cases hPlain
  | store place form val | push _ form => cases form <;> exact getLast?_text rfl
  | _ => exact getLast?_text rfl

theorem shows_opening (hFirst : text.toList.head? = some c) (hOther : c ≠ '\x7d')
    (hLast : text.toList.getLast? = some '\x7b') : Line.Shows ⟨depth, text⟩ (.opening depth) := by
  refine ⟨rfl, hLast, ?_⟩
  rw [hFirst]
  exact fun hSame => hOther (Option.some.inj hSame)

theorem shows_header (hFirst : first.toList.head? = some c)
    (hOther : c ≠ '\x7d') (hLast : last.toList.getLast? = some '\x7b') :
    Line.Shows ⟨depth, first ++ mid ++ last⟩ (.opening depth) :=
  shows_opening (head?_text (head?_text hFirst)) hOther (getLast?_text hLast)

theorem shows_loop (depth : Nat) (header : LoopHeader) :
    Line.Shows ⟨depth, header.text⟩ (.opening depth) := by
  have hFirst : header.text.toList.head? = some 'f' := by
    iterate 10 refine head?_text ?_
    rfl
  exact shows_opening hFirst (by decide) (getLast?_text rfl)

theorem shows_block (hOpening : Line.Shows ⟨depth, text⟩ (.opening depth))
    (hInside : List.Forall₂ Line.Shows lower inside) :
    List.Forall₂ Line.Shows (⟨depth, text⟩ :: (lower ++ [⟨depth, "\x7d"⟩]))
      (.opening depth :: (inside ++ [.closing depth])) :=
  .cons hOpening (rel_append hInside (.cons rfl .nil))

mutual

theorem lines_show (depth : Nat) (stmt : Stmt) :
    List.Forall₂ Line.Shows (lines depth stmt) (brackets depth stmt) := by
  cases stmt with
  | branch node guard yes no =>
    rw [lines, brackets]
    exact .cons (shows_header rfl (by decide) rfl) (rel_append (linesOf_show _ yes)
      (.cons rfl (rel_append (linesOf_show _ no) (.cons rfl .nil))))
  | branchOnly guard yes =>
    rw [lines, brackets]
    exact shows_block (shows_header rfl (by decide) rfl) (linesOf_show _ yes)
  | switch sel arms otherwise =>
    rw [lines, brackets]
    exact .cons (shows_header rfl (by decide) rfl) (rel_append
      (armLines_show _ _ arms) (.cons (shows_opening rfl (by decide) rfl) (rel_append
        (linesOf_show _ otherwise) (.cons (shows_plain rfl (by decide))
          (.cons rfl (.cons rfl .nil))))))
  | loop header body =>
    rw [lines, brackets]
    exact shows_block (shows_loop depth header) (linesOf_show _ body)
  | block body =>
    rw [lines, brackets]
    exact shows_block (shows_opening rfl (by decide) rfl) (linesOf_show _ body)
  | saveFrame mark | closeFrame mark => exact .cons rfl .nil
  | openFrame site => exact .cons ⟨.openFrame site, rfl, rfl⟩ .nil
  | openProcedure routine level => exact .cons ⟨.openProcedure routine level, rfl, rfl⟩ .nil
  | _ => exact .cons (shows_plain (getLast?_simpleText rfl) (by decide)) .nil

theorem linesOf_show (depth : Nat) (body : List Stmt) :
    List.Forall₂ Line.Shows (linesOf depth body) (bracketsOf depth body) := by
  cases body with
  | nil => exact .nil
  | cons stmt rest => exact rel_append (lines_show depth stmt) (linesOf_show depth rest)

theorem armLines_show (depth number : Nat) (arms : List (List Stmt)) :
    List.Forall₂ Line.Shows (armLines depth number arms) (armBrackets depth arms) := by
  cases arms with
  | nil => exact .nil
  | cons arm rest =>
    rw [armLines, armBrackets]
    exact .cons (shows_header rfl (by decide) rfl) (rel_append (linesOf_show _ arm)
      (.cons (shows_plain rfl (by decide)) (.cons rfl (armLines_show depth (number + 1) rest))))

end

end Stmt

------ Composed Code

/- Brackets that match, where only some nodes have frames. -/
structure Nests (framed : NodeId → Prop) (word : List Bracket) : Prop where
  bracketed : Bracketed word
  saved : ∀ mark, .save mark ∈ word → framed mark.owner

namespace Nests

variable {framed : NodeId → Prop}

theorem nil : Nests framed [] := ⟨.nil, by simp⟩

theorem plain : Nests framed [.plain] := ⟨.plain, by simp⟩

theorem append (hFirst : Nests framed first) (hSecond : Nests framed second) :
    Nests framed (first ++ second) := by
  refine ⟨hFirst.1.append hSecond.1, fun mark hMark => ?_⟩
  rcases mem_append.mp hMark with hLeft | hRight
  · exact hFirst.2 mark hLeft
  · exact hSecond.2 mark hRight

theorem block (depth : Nat) (hInside : Nests framed inside) :
    Nests framed (.opening depth :: (inside ++ [.closing depth])) :=
  ⟨hInside.1.block, fun mark hMark => hInside.2 mark (by simpa using hMark)⟩

theorem branches (hYes : Nests framed yes) (hNo : Nests framed no) :
    Nests framed (.opening depth :: (yes ++ .otherwise depth :: (no ++ [.closing depth]))) :=
  ⟨hYes.1.branches hNo.1, fun mark hMark => (hYes.append hNo).2 mark (by simpa using hMark)⟩

end Nests

namespace Stmt

theorem nests_single (hPlain : stmt.isPlain = true) (depth : Nat) :
    Nests framed (brackets depth stmt) := by
  cases stmt with
  | branch _ _ _ _ | branchOnly _ _ | switch _ _ _ | loop _ _ | block _
  | saveFrame _ | openFrame _ | openProcedure _ _ | closeFrame _ => cases hPlain
  | _ => exact .plain

mutual

/- The statements of units open braces only, for branches. -/
theorem nests_of_inner (hInner : AreInner [stmt]) (depth : Nat) :
    Nests framed (brackets depth stmt) := by
  cases stmt
  case branch node guard yes no =>
    rw [brackets]
    exact (nests_of_areInner (fun stmt hStmt => hInner stmt (by simp [within, hStmt])) _).branches
      (nests_of_areInner (fun stmt hStmt => hInner stmt (by simp [within, hStmt])) _)
  all_goals first
    | exact nests_single rfl depth
    | exact absurd (hInner _ mem_cons_self) Bool.false_ne_true

theorem nests_of_areInner (hInner : AreInner body) (depth : Nat) :
    Nests framed (bracketsOf depth body) := by
  cases body with
  | nil => exact .nil
  | cons stmt rest =>
    refine (nests_of_inner (fun lower hInside => ?_) depth).append
      (nests_of_areInner (fun lower hInside => ?_) depth)
    · exact hInner lower (mem_append_left _ (by simpa using hInside))
    · exact hInner lower (mem_append_right _ hInside)

end

theorem nests_arms (hArms : ∀ arm ∈ arms, ∀ depth, Nests framed (bracketsOf depth arm))
    (depth : Nat) : Nests framed (armBrackets depth arms) := by
  induction arms with
  | nil => exact .nil
  | cons arm rest ih =>
    rw [forall_mem_cons] at hArms
    have hArm := ((hArms.1 (depth + 1)).append .plain).block depth
    simpa [armBrackets] using hArm.append (ih hArms.2)

/- The brackets of composed code match. -/
theorem Composed.nests (hBody : Composed tree calls start fits framed body) (depth : Nat) :
    Nests framed (bracketsOf depth body) := by
  induction hBody generalizing depth with
  | inner hBody => exact nests_of_areInner hBody.areInner depth
  | single hPlain _ _ => exact (nests_single hPlain depth).append .nil
  | append _ _ ihFirst ihSecond =>
    rw [bracketsOf_append]
    exact (ihFirst depth).append (ihSecond depth)
  | block _ ih | branchOnly _ _ ih | loop _ ih => exact ((ih (depth + 1)).block depth).append .nil
  | branch _ _ _ ihYes ihNo => exact ((ihYes (depth + 1)).branches (ihNo (depth + 1))).append .nil
  | switch _ _ _ ihArms ihOtherwise =>
    have hOtherwise := ((ihOtherwise (depth + 1)).append .plain).block depth
    simpa [bracketsOf, brackets] using ((nests_arms ihArms depth).append hOtherwise).block depth
  | @frame inside body framed mark opening hOpening _ _ hInside hOwner ih =>
    have hWord : bracketsOf depth (.saveFrame mark :: opening :: (body ++ [.closeFrame mark])) =
        .save mark :: .openFrame :: (bracketsOf depth body ++ [.closeFrame mark]) := by
      cases opening with
      | openFrame _ | openProcedure _ _ => simp [bracketsOf, brackets]
      | _ => cases hOpening
    rw [hWord]
    refine ⟨(ih depth).1.frame fun hMark => (hInside _ ((ih depth).2 mark hMark)).2 rfl, ?_⟩
    intro other hOther
    have hSaved : other = mark ∨ .save other ∈ bracketsOf depth body := by simpa using hOther
    rcases hSaved with rfl | hSaved
    · exact hOwner
    · exact (hInside _ ((ih depth).2 other hSaved)).1
  | wider _ hInside ih =>
    exact ⟨(ih depth).1, fun mark hMark => hInside _ ((ih depth).2 mark hMark)⟩

end Stmt

------ Functions

variable {function : Function}

namespace Function

/- The brackets of the lines of a function. -/
def brackets (function : Function) : List Bracket :=
  [.plain, .plain, .opening 0, .plain] ++ function.declarations.map (fun _ => .plain) ++
    [.plain, .plain] ++ Stmt.bracketsOf 1 function.body ++ [.plain, .closing 0]

open Stmt

theorem lines_show (hLines : ∀ line ∈ function.declarations, line.toList.getLast? = some ';') :
    List.Forall₂ Line.Shows function.lines function.brackets := by
  have hDecls : List.Forall₂ Line.Shows (function.declarations.map (Line.mk 1))
      (function.declarations.map fun _ => .plain) := by
    rw [forall₂_map_left_iff, forall₂_map_right_iff, forall₂_same]
    exact fun line hLine => shows_plain (hLines line hLine) (by decide)
  refine rel_append (rel_append (rel_append (rel_append ?_ hDecls) ?_)
    (linesOf_show 1 _)) (.cons (shows_plain rfl (by decide)) (.cons rfl .nil))
  · exact .cons (shows_plain (getLast?_text rfl) (by decide))
      (.cons (shows_plain (getLast?_text rfl) (by decide)) (.cons
        (shows_opening rfl (by decide) rfl) (.cons (shows_plain rfl (by decide)) .nil)))
  · exact .cons (shows_plain (getLast?_text rfl) (by decide))
      (.cons (shows_plain rfl (by decide)) .nil)

theorem bracketed (hBody : Bracketed (bracketsOf 1 function.body)) :
    Bracketed function.brackets := by
  have hDecls : Bracketed (function.declarations.map fun _ => .plain) := by
    induction function.declarations with
    | nil => exact .nil
    | cons _ _ ih => exact Bracketed.plain.append ih
  have hInside := (Bracketed.plain.append hDecls).append
    ((Bracketed.plain.append .plain).append (hBody.append .plain))
  have hBlock : Bracketed (.opening 0 :: _) := hInside.block
  simpa [brackets] using Bracketed.plain.append (Bracketed.plain.append hBlock)

end Function

theorem Declarations.getLast?_of_mem_lines {decls : Declarations}
    (hLine : line ∈ decls.lines) : line.toList.getLast? = some ';' := by
  rcases mem_map.mp hLine with ⟨entry, -, rfl⟩
  exact Stmt.getLast?_text rfl

namespace SyntaxTree

variable {tree : SyntaxTree}

/-
  Whatever the options, the brackets in the lines of an emitted
  function match, and its last line is not indented.
-/
theorem Conforms.brackets_match
    (hTree : tree.Conforms)
    (options : Options) :
    ∃ run, tree.CompilesTo options run ∧
      ∀ function, .function function ∈ run.context.output →
        List.Forall₂ Line.Shows function.lines function.brackets ∧
          Bracketed function.brackets ∧ function.lines.getLast? = some ⟨0, "\x7d"⟩ := by
  rcases hTree.exists_compilesTo options with ⟨run, hRun⟩
  refine ⟨run, hRun, ?_⟩
  intro function hFunction
  rcases (hRun.compiles hTree.forest).2.functions function hFunction with
    ⟨id, -, writer, hDrawn, before, declared, next, -, -, hBody, hLines⟩
  have hComposed := (hDrawn.composed (Inline.yields_any tree _) trivial
    fun _ _ _ _ => trivial).of_run hBody
  refine ⟨Function.lines_show ?_, Function.bracketed (hComposed.1.nests 1).1,
    by rw [Function.lines, List.getLast?_append]; rfl⟩
  rw [hLines]
  exact fun line => Declarations.getLast?_of_mem_lines

theorem brackets_match_nestedLoop :
    nestedLoop.Conforms ∧
      ∃ run, nestedLoop.CompilesTo { level := 3 } run ∧
        ∀ function, .function function ∈ run.context.output →
          List.Forall₂ Line.Shows function.lines function.brackets ∧
            Bracketed function.brackets ∧ function.lines.getLast? = some ⟨0, "\x7d"⟩ := by
  have hTree : nestedLoop.Conforms := conforms_of_isOrderly (by decide +kernel)
  exact ⟨hTree, hTree.brackets_match _⟩

end SyntaxTree

end Algol68
