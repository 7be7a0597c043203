import Mathlib.Data.List.Basic
/-!
# Functions that run one after another

Work is a list of functions and the data they are given. A function may return
further work, which is finished first; the functions that were waiting then run
with the data that this work ends with. `Completes` says so by recursion on the
work, `Steps` runs one function at a time and keeps the waiting ones in a list.
A run records what each function was given and what it returned, so nothing is
assumed of the functions.
-/

namespace Continuations

variable {F D : Type}

structure Work (F D : Type) where
  data : D
  todo : List F

structure Invocation (F D : Type) where
  fn : F
  data : D
  ret : Option (Work F D)

/-- The calls of work that is finished, and the data it ends with. -/
inductive Completes : Work F D → List (Invocation F D) → D → Prop
  | nil {d} : Completes ⟨d, []⟩ [] d
  | plain {f fs d d' tr} : Completes ⟨d, fs⟩ tr d' → Completes ⟨d, f :: fs⟩ (⟨f, d, none⟩ :: tr) d'
  | nested {f fs d w tr d' tr' d''} : Completes w tr d' → Completes ⟨d', fs⟩ tr' d'' →
      Completes ⟨d, f :: fs⟩ (⟨f, d, some w⟩ :: (tr ++ tr')) d''

/-- The work that is left after a call: what it returned goes in front of what was waiting. -/
def Invocation.after (c : Invocation F D) (waiting : List F) : Work F D :=
  match c.ret with
  | none => ⟨c.data, waiting⟩
  | some w => ⟨w.data, w.todo ++ waiting⟩

/-- The calls that lead from some work to what is left of it. -/
inductive Steps : Work F D → List (Invocation F D) → Work F D → Prop
  | refl {w} : Steps w [] w
  | call {c waiting tr w} : Steps (Invocation.after c waiting) tr w → Steps ⟨c.data, c.fn :: waiting⟩ (c :: tr) w

variable {w w' : Work F D} {tr : List (Invocation F D)} {d : D}

theorem Steps.trans {w₁ w₂ w₃ : Work F D} {tr tr' : List (Invocation F D)} (h : Steps w₁ tr w₂) (h' : Steps w₂ tr' w₃) :
    Steps w₁ (tr ++ tr') w₃ := by
  induction h with
  | refl => exact h'
  | call _ ih => exact .call (ih h')

/-- One more call. -/
theorem Steps.snoc {c : Invocation F D} {waiting : List F} (h : Steps w tr ⟨c.data, c.fn :: waiting⟩) :
    Steps w (tr ++ [c]) (c.after waiting) :=
  h.trans (.call .refl)

theorem Steps.head {c : Invocation F D} (h : Steps w (c :: tr) w') :
    ∃ waiting, w = ⟨c.data, c.fn :: waiting⟩ ∧ Steps (c.after waiting) tr w' := by
  cases h with
  | call h => exact ⟨_, rfl, h⟩

/-- The invocations decide what is left. -/
theorem Steps.unique {w₁ w₂ : Work F D} (h : Steps w tr w₁) (h' : Steps w tr w₂) : w₁ = w₂ := by
  induction h with
  | refl => cases h'; rfl
  | call _ ih =>
    obtain ⟨waiting, hw, h'⟩ := h'.head
    cases hw
    exact ih h'

/-- Finished work gives way to what waits behind it. -/
theorem Completes.steps (h : Completes w tr d) (waiting : List F) : Steps ⟨w.data, w.todo ++ waiting⟩ tr ⟨d, waiting⟩ := by
  induction h generalizing waiting with
  | nil => exact .refl
  | plain _ ih => exact .call (c := ⟨_, _, none⟩) (ih waiting)
  | nested _ _ ih ih' =>
    have h := (ih (_ ++ waiting)).trans (ih' waiting)
    refine .call (c := ⟨_, _, some _⟩) ?_
    exact h

/-- What completes `w` and what waits behind it completes `w` first. -/
theorem Completes.split (h : Completes w tr d) {u : Work F D} {waiting : List F} (hw : w = ⟨u.data, u.todo ++ waiting⟩) :
    ∃ tr₁ tr₂ d', tr = tr₁ ++ tr₂ ∧ Completes u tr₁ d' ∧ Completes ⟨d', waiting⟩ tr₂ d := by
  induction h generalizing u with
  | nil =>
    obtain ⟨d, todo⟩ := u
    simp only [Work.mk.injEq, List.nil_eq, List.append_eq_nil_iff] at hw
    obtain ⟨rfl, rfl, rfl⟩ := hw
    exact ⟨[], [], _, rfl, .nil, .nil⟩
  | plain h ih =>
    obtain ⟨d, todo⟩ := u
    cases todo with
    | nil =>
      cases hw
      exact ⟨[], _, _, rfl, .nil, .plain h⟩
    | cons f todo =>
      cases hw
      obtain ⟨tr₁, tr₂, d', rfl, h₁, h₂⟩ := ih (u := ⟨_, todo⟩) rfl
      exact ⟨_ :: tr₁, tr₂, d', rfl, .plain h₁, h₂⟩
  | nested h h' _ ih' =>
    obtain ⟨d, todo⟩ := u
    cases todo with
    | nil =>
      cases hw
      exact ⟨[], _, _, rfl, .nil, .nested h h'⟩
    | cons f todo =>
      cases hw
      obtain ⟨tr₁, tr₂, d', rfl, h₁, h₂⟩ := ih' (u := ⟨_, todo⟩) rfl
      exact ⟨_, tr₂, d', by rw [List.cons_append, List.append_assoc], .nested h h₁, h₂⟩

theorem Steps.completes (h : Steps w tr w') (hd : w'.todo = []) : Completes w tr w'.data := by
  induction h with
  | refl =>
    rename_i w
    obtain ⟨d, todo⟩ := w
    cases hd
    exact .nil
  | @call c waiting tr w _ ih =>
    obtain ⟨f, d, ret⟩ := c
    cases ret with
    | none => exact .plain (ih hd)
    | some u =>
      obtain ⟨tr₁, tr₂, d', rfl, h₁, h₂⟩ := (ih hd).split (u := u) rfl
      exact .nested h₁ h₂

/-- Running one function at a time is running the work by recursion. -/
theorem completes_iff : Completes w tr d ↔ Steps w tr ⟨d, []⟩ := by
  constructor
  · intro h
    simpa using h.steps []
  · intro h
    exact h.completes rfl

end Continuations
