import AntHttp.Lib.Runs
/-!
# Finite maps as sequences of updates

A store is used by putting values under keys and removing keys. `last` says
what a key is bound to after a sequence of such operations, and `refines` what
it takes for an implementation to agree with that: each step answers for its
own key and leaves the others.
-/

namespace FinMap

open Runs

variable {κ α σ : Type} [DecidableEq κ]

inductive Op (κ α : Type) where
  | put (key : κ) (value : α)
  | remove (key : κ)
  deriving DecidableEq

def Op.key : Op κ α → κ
  | .put key _ => key
  | .remove key => key

/-- What the key is bound to after the operation. -/
def Op.value : Op κ α → Option α
  | .put _ value => some value
  | .remove _ => none

/-- What the last operation on the key has left. -/
def last (ops : List (Op κ α)) (k : κ) : Option α := ((ops.filter (·.key = k)).getLast?).bind Op.value

theorem last_nil (k : κ) : last ([] : List (Op κ α)) k = none := rfl

theorem last_concat (ops : List (Op κ α)) (op : Op κ α) (k : κ) :
    last (ops ++ [op]) k = if k = op.key then op.value else last ops k := by
  by_cases h : k = op.key
  · simp [last, h]
  · simp [last, h, Ne.symm h]

variable {step : Op κ α → σ → Option σ} {ok : Op κ α → σ → Prop} {s₀ s : σ} {ops : List (Op κ α)}

/-- A store whose steps each answer for their own key agrees with the last operations. -/
theorem refines (I : σ → Prop) (get : σ → κ → Option α) (h0 : I s₀) (hget : ∀ k, get s₀ k = none)
    (hstep : ∀ op s s', I s → ok op s → step op s = some s' →
      I s' ∧ ∀ k, get s' k = if k = op.key then op.value else get s k)
    (h : Trace step ok s₀ ops s) : I s ∧ ∀ k, get s k = last ops k := by
  induction h with
  | nil => exact ⟨h0, fun k => (hget k).trans (last_nil k).symm⟩
  | snoc _ hok hst ih =>
    obtain ⟨hI, hget⟩ := ih
    obtain ⟨hI', hget'⟩ := hstep _ _ _ hI hok hst
    refine ⟨hI', fun k => ?_⟩
    rw [hget' k, last_concat, hget k]

end FinMap
