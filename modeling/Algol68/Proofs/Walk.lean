import Mathlib.Data.List.Forall2
import Algol68.Fault

/-
  What walks and the steps built on them give.

  A walk over a tree may end in a fault. `Walk.Meets` says of a walk that its answer, if there is
  one, is as described, and that there is an answer whenever `total` holds. So one lemma about a
  function serves twice: for arbitrary trees, where a fault is possible, and for trees on which
  every walk ends.
-/

------ Equations of Walks

namespace Algol68

open List

variable {rest : α → Walk β}

namespace Walk

variable {α β : Type} {first : Walk Bool}

@[simp] theorem ok_bind (value : α) (rest : α → Walk β) :
    ((Except.ok value : Walk α) >>= rest) = rest value :=
  rfl

@[simp] theorem error_bind (fault : Fault) (rest : α → Walk β) :
    ((Except.error fault : Walk α) >>= rest) = .error fault :=
  rfl

@[simp] theorem pure_eq_ok (value : α) : (pure value : Walk α) = .ok value := rfl

@[simp] theorem throw_eq_error (fault : Fault) : (throw fault : Walk α) = .error fault := rfl

@[simp] theorem map_ok (change : α → β) (val : α) :
    (change <$> (Except.ok val : Walk α)) = .ok (change val) :=
  rfl

theorem bind_eq_ok :
    walk >>= rest = .ok answer ↔ ∃ value, walk = .ok value ∧ rest value = .ok answer := by
  cases walk with
  | ok value | error => simp

/- A walk whose answer is changed ends where the walk does. -/
theorem map_eq_ok {walk : Walk α} :
    change <$> walk = .ok answer ↔ ∃ val, walk = .ok val ∧ change val = answer := by
  cases walk with
  | ok val => simp
  | error fault =>
    constructor
    · intro hMapped
      cases hMapped
    · rintro ⟨val, hVal, -⟩
      cases hVal

@[simp] theorem and_eq_true :
    first.and second = .ok true ↔ first = .ok true ∧ second = .ok true := by
  rcases first with fault | _ | _ <;> simp [Walk.and]

theorem or_eq_true :
    first.or second = .ok true ↔ first = .ok true ∨ first = .ok false ∧ second = .ok true := by
  rcases first with fault | _ | _ <;> simp [Walk.or]

@[simp] theorem not_eq_true {answer : Walk Bool} : answer.not = .ok true ↔ answer = .ok false := by
  rcases answer with fault | _ | _ <;>
    simp [Walk.not, Except.map]

@[simp] theorem holdsOf_eq_true :
    holdsOf val answer = .ok true ↔ ∃ found, val = some found ∧ answer found = .ok true := by
  cases val <;> simp [holdsOf]

variable {members : List α}

theorem allM_eq_true {test : α → Walk Bool} :
    members.allM test = .ok true ↔ ∀ member ∈ members, test member = .ok true := by
  induction members with
  | nil => simp
  | cons first rest ih =>
    rw [forall_mem_cons, ← ih]
    rcases hFirst : test first with fault | _ | _ <;>
      simp [hFirst]

variable {change : α → Walk β}

theorem mapM_eq_ok :
    members.mapM change = .ok values ↔ List.Forall₂ (fun member value => change member = .ok value)
        members values := by
  induction members generalizing values with
  | nil =>
    simp only [mapM_nil, pure_eq_ok, forall₂_nil_left_iff, Except.ok.injEq]
    exact eq_comm
  | cons first rest ih =>
    simp only [mapM_cons, bind_eq_ok, pure_eq_ok, Except.ok.injEq, forall₂_cons_left_iff, ih]
    constructor
    · rintro ⟨value, hVal, others, hOthers, rfl⟩
      exact ⟨value, others, hVal, hOthers, rfl⟩
    · rintro ⟨value, others, hVal, hOthers, rfl⟩
      exact ⟨value, hVal, others, hOthers, rfl⟩

/- What a member of the second list was found for. -/
theorem exists_of_forall₂ (hVals : List.Forall₂ related members values)
    (hVal : value ∈ values) : ∃ member ∈ members, related member value := by
  induction hVals with
  | nil => cases hVal
  | cons hFirst _ ih =>
    rcases mem_cons.mp hVal with rfl | hLater
    · exact ⟨_, mem_cons_self, hFirst⟩
    · rcases ih hLater with ⟨member, hMem, hRelated⟩
      exact ⟨member, mem_cons_of_mem _ hMem, hRelated⟩

theorem map_eq_of_mapM
    (hVals : members.mapM change = .ok values) : members.map change = values.map .ok := by
  have hEach := mapM_eq_ok.mp hVals
  induction hEach with
  | nil => rfl
  | cons hFirst hRest ih => rw [map_cons, map_cons, hFirst, ih (mapM_eq_ok.mpr hRest)]

/- What follows from the same findings is found alike. -/
theorem mapM_congr {others : List α} {next : α → Walk γ}
    (hMembers : members.mapM change = .ok values) (hOthers : others.mapM change = .ok values)
    (hSame : ∀ member other value,
      change member = .ok value → change other = .ok value → next member = next other) :
    members.mapM next = others.mapM next := by
  rw [mapM_eq_ok] at hMembers hOthers
  induction hMembers generalizing others with
  | nil =>
    cases hOthers
    rfl
  | cons hFirst _ ih =>
    cases hOthers with
    | cons hSecond hRest =>
      rw [mapM_cons, mapM_cons, hSame _ _ _ hFirst hSecond, ih hRest]

------ Walks That End

/- A walk meets no fault. -/
def Ends (walk : Walk α) : Prop := ∃ value, walk = .ok value

namespace Ends

theorem of_pure : Ends (pure val) := ⟨val, rfl⟩

theorem bind (hWalk : Ends walk)
    (hRest : ∀ val, walk = .ok val → Ends (rest val)) : Ends (walk >>= rest) := by
  obtain ⟨val, rfl⟩ := hWalk
  exact hRest val rfl

theorem and (hFirst : Ends first) (hSecond : first = .ok true → Ends second) :
    Ends (first.and second) := by
  obtain ⟨_ | _, rfl⟩ := hFirst
  · exact ⟨false, rfl⟩
  · exact hSecond rfl

theorem or (hFirst : Ends first) (hSecond : first = .ok false → Ends second) :
    Ends (first.or second) := by
  obtain ⟨_ | _, rfl⟩ := hFirst
  · exact hSecond rfl
  · exact ⟨true, rfl⟩

theorem not (hAnswer : Ends answer) : Ends answer.not := by
  obtain ⟨val, rfl⟩ := hAnswer
  exact ⟨!val, rfl⟩

theorem holdsOf (hAnswer : ∀ found, val = some found → Ends (answer found)) :
    Ends (Walk.holdsOf val answer) := by
  cases val with
  | none => exact ⟨false, rfl⟩
  | some found => exact hAnswer found rfl

theorem ite [Decidable condition] (hYes : condition → Ends yes) (hNo : ¬ condition → Ends no) :
    Ends (if condition then yes else no) := by
  split
  · exact hYes ‹_›
  · exact hNo ‹_›

theorem allM (hTest : ∀ member ∈ members, Ends (test member)) : Ends (members.allM test) := by
  induction members with
  | nil => exact ⟨true, rfl⟩
  | cons first rest ih =>
    refine bind (hTest first mem_cons_self) ?_
    rintro (_ | _) -
    · exact ⟨false, rfl⟩
    · refine ih ?_
      intro member hMem
      exact hTest member (mem_cons_of_mem _ hMem)

theorem anyM (hTest : ∀ member ∈ members, Ends (test member)) : Ends (members.anyM test) := by
  induction members with
  | nil => exact ⟨false, rfl⟩
  | cons first rest ih =>
    refine bind (hTest first mem_cons_self) ?_
    rintro (_ | _) -
    · refine ih ?_
      intro member hMem
      exact hTest member (mem_cons_of_mem _ hMem)
    · exact ⟨true, rfl⟩

theorem mapM (hChange : ∀ member ∈ members, Ends (change member)) : Ends (members.mapM change) := by
  induction members with
  | nil => exact ⟨[], rfl⟩
  | cons first rest ih =>
    rw [mapM_cons]
    refine bind (hChange first mem_cons_self) ?_
    intro val _
    refine bind (ih ?_) ?_
    · intro member hMem
      exact hChange member (mem_cons_of_mem _ hMem)
    · intro vals _
      exact of_pure

end Ends

------ Answers of Walks

/- The answer of a walk is as described, and there is one if `total` holds. -/
def Meets (total : Prop) (walk : Walk α) (post : α → Prop) : Prop :=
  match walk with
  | .ok value => post value
  | .error _ => ¬ total

namespace Meets

@[simp] theorem ok_iff : Meets total (.ok value) post ↔ post value := Iff.rfl

theorem of_ends (hWalk : total → walk.Ends) : Meets total walk fun value => walk = .ok value := by
  cases walk with
  | ok value => simp
  | error fault =>
    intro hTotal
    obtain ⟨value, hVal⟩ := hWalk hTotal
    simp at hVal

theorem mono (hWalk : Meets total walk strong) (hWeak : ∀ val, strong val → weak val) :
    Meets total walk weak := by
  cases walk with
  | ok val => exact hWeak val hWalk
  | error fault => exact hWalk

theorem bind (hWalk : Meets total walk mid) (hRest : ∀ val, mid val → Meets total (rest val) post) :
    Meets total (walk >>= rest) post := by
  cases walk with
  | ok val => exact hRest val hWalk
  | error fault => exact hWalk

theorem of_ok (hWalk : Meets total walk post) (hVal : walk = .ok value) : post value := by
  subst hVal
  exact hWalk

theorem answer (hWalk : Meets True walk post) : ∃ value, walk = .ok value ∧ post value := by
  cases walk with
  | ok value => exact ⟨value, rfl, hWalk⟩
  | error fault => exact absurd trivial hWalk

end Meets

end Walk

------ Results of Steps

/- A step that reads a tree and changes a state. -/
abbrev Step (σ α : Type) := StateT σ Walk α

namespace Step

variable {σ α β : Type}

/-
  The result of a step and the state it leaves are as
  described, and there is a result if `total` holds.
-/
def Meets (total : Prop) (step : Step σ α) (state : σ) (post : α → σ → Prop) : Prop :=
  Walk.Meets total (step.run state) fun result => post result.1 result.2

variable {rest : α → Step σ β} {walk : Walk α} {next : σ}

namespace Meets

theorem of_pure (hPost : post val state) : Meets total (pure val) state post := hPost

theorem of_lift (hWalk : walk.Meets total fun val => post val state) :
    Meets total (liftM walk : Step σ α) state post := by
  cases walk with
  | ok val | error => exact hWalk

theorem of_modify (hPost : post ⟨⟩ (change state)) :
    Meets total (modify change : Step σ PUnit) state post :=
  hPost

theorem mono (hStep : Meets total step state strong)
    (hWeak : ∀ val next, strong val next → weak val next) : Meets total step state weak :=
  Walk.Meets.mono hStep fun res hRes => hWeak res.1 res.2 hRes

theorem of_run (hStep : Meets total step state post) (hRun : step.run state = .ok (val, next)) :
    post val next := by
  unfold Meets at hStep
  rw [hRun] at hStep
  exact hStep

theorem with_run (hStep : Meets total step state post) :
    Meets total step state fun val next => step.run state = .ok (val, next) ∧ post val next := by
  unfold Meets at hStep ⊢
  cases hRun : step.run state with
  | ok res =>
    rw [hRun] at hStep
    exact ⟨rfl, hStep⟩
  | error fault =>
    rw [hRun] at hStep
    exact hStep

/- Two descriptions of one result. -/
theorem and (hFirst : Meets total step state first) (hSecond : Meets total step state second) :
    Meets total step state fun val next => first val next ∧ second val next := by
  unfold Meets at hFirst hSecond ⊢
  cases hRun : step.run state with
  | ok res =>
    rw [hRun] at hFirst hSecond
    exact ⟨hFirst, hSecond⟩
  | error fault =>
    rw [hRun] at hFirst
    exact hFirst

/- A step that has a result where it must. -/
theorem of_ends (hStep : Meets False step state post) (hEnds : total → (step.run state).Ends) :
    Meets total step state post := by
  unfold Meets at hStep ⊢
  cases hRun : step.run state with
  | ok res =>
    rw [hRun] at hStep
    exact hStep
  | error fault =>
    intro hTotal
    rcases hEnds hTotal with ⟨res, hRes⟩
    cases hRun.symm.trans hRes

theorem bind (hStep : Meets total step state mid)
    (hRest : ∀ val next, mid val next → Meets total (rest val) next post) :
    Meets total (step >>= rest) state post :=
  Walk.Meets.bind hStep fun res hRes => hRest res.1 res.2 hRes

theorem get_bind {rest : σ → Step σ β}
    (hRest : Meets total (rest state) state post) : Meets total (get >>= rest) state post :=
  hRest

theorem set_bind {rest : PUnit → Step σ β}
    (hRest : Meets total (rest ⟨⟩) next post) : Meets total (set next >>= rest) state post :=
  hRest

theorem modify_bind {rest : PUnit → Step σ β} (hRest : Meets total (rest ⟨⟩) (change state) post) :
    Meets total (modify change >>= rest) state post :=
  hRest

theorem lift_bind (hWalk : walk = .ok val) (hRest : Meets total (rest val) state post) :
    Meets total (liftM walk >>= rest) state post := by
  subst hWalk
  exact hRest

theorem read_bind (hWalk : walk.Meets total mid)
    (hRest : ∀ val, mid val → Meets total (rest val) state post) :
    Meets total (liftM walk >>= rest) state post := by
  cases walk with
  | ok val => exact hRest val hWalk
  | error fault => exact hWalk

theorem walk_bind (hWalk : total → walk.Ends)
    (hRest : ∀ value, walk = .ok value → Meets total (rest value) state post) :
    Meets total (liftM walk >>= rest) state post :=
  read_bind (.of_ends hWalk) hRest

end Meets

end Step

end Algol68
