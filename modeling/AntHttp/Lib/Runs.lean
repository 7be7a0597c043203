import Mathlib.Data.List.Induction
import Mathlib.Tactic.Common
/-!
# Runs of a system that takes steps

A system steps from state to state under an input; `step` is undefined where
the system stops. `Run step ok init` holds of the states that are reached by
steps that all meet the condition `ok`, and `Reachable` of those reached by any
steps. An invariant needs one step lemma and one run rule.
-/

namespace Runs

variable {ι σ : Type}

/-- States reached from `init` by steps each of which meets `ok` in the state it is taken in. -/
inductive Run (step : ι → σ → Option σ) (ok : ι → σ → Prop) (init : σ → Prop) : σ → Prop
  | init {s} : init s → Run step ok init s
  | step {s s' i} : Run step ok init s → ok i s → step i s = some s' → Run step ok init s'

abbrev Reachable (step : ι → σ → Option σ) (init : σ → Prop) : σ → Prop := Run step (fun _ _ => True) init

variable {step : ι → σ → Option σ} {ok : ι → σ → Prop} {init : σ → Prop}

/-- What holds at first and is kept by every step that meets the condition holds in every state reached. -/
theorem Run.inv (I : σ → Prop) (h0 : ∀ s, init s → I s)
    (hs : ∀ i s s', I s → ok i s → step i s = some s' → I s') {s : σ} (h : Run step ok init s) : I s := by
  induction h with
  | init hi => exact h0 _ hi
  | step _ hok hst ih => exact hs _ _ _ ih hok hst

/-- The state after a list of inputs. -/
def runAll (step : ι → σ → Option σ) : List ι → σ → Option σ
  | [], s => some s
  | i :: is, s => (step i s).bind (runAll step is)

theorem runAll_append (step : ι → σ → Option σ) (is js : List ι) (s : σ) :
    runAll step (is ++ js) s = (runAll step is s).bind (runAll step js) := by
  induction is generalizing s with
  | nil => rfl
  | cons i is ih =>
    rw [List.cons_append, runAll, runAll, Option.bind_assoc]
    exact congrArg ((step i s).bind ·) (funext ih)

/-- What is found of a run by evaluation. -/
theorem ends_in {o : Option σ} {p : σ → Prop} [DecidablePred p] (h : (o.any fun s => decide (p s)) = true) :
    ∃ s, o = some s ∧ p s := by
  obtain ⟨s, hs, hp⟩ := (Option.any_eq_true ..).1 h
  exact ⟨s, hs, of_decide_eq_true hp⟩

/-- The inputs lead from one state to another, and each of them meets the condition. -/
inductive Trace (step : ι → σ → Option σ) (ok : ι → σ → Prop) (s₀ : σ) : List ι → σ → Prop
  | nil : Trace step ok s₀ [] s₀
  | snoc {is s i s'} : Trace step ok s₀ is s → ok i s → step i s = some s' → Trace step ok s₀ (is ++ [i]) s'

/-- A step that is only taken where the condition holds. -/
def checked (ok : ι → σ → Prop) [∀ i s, Decidable (ok i s)] (step : ι → σ → Option σ) (i : ι) (s : σ) : Option σ :=
  if ok i s then step i s else none

/-- A step that is only taken in certain states. -/
def guarded (p : σ → Bool) (step : ι → σ → Option σ) (i : ι) (s : σ) : Option σ := if p s then step i s else none

section

variable {s₀ s s' : σ} {is js : List ι}

/-- From a state that is reached a trace leads to one that is reached. -/
theorem Run.trace (h0 : Run step ok init s₀) (h : Trace step ok s₀ is s) : Run step ok init s := by
  induction h with
  | nil => exact h0
  | snoc _ hok hs ih => exact ih.step hok hs

theorem Trace.run (h : Trace step ok s₀ is s) : Run step ok (· = s₀) s := by
  have h0 : Run step ok (· = s₀) s₀ := .init rfl
  exact h0.trace h

/-- A trace goes on with a list of inputs, as long as what is checked of each of them gives the condition. -/
theorem Trace.checked {p : ι → σ → Prop} [∀ i s, Decidable (p i s)] (h : Trace step ok s₀ is s)
    (hp : ∀ i ∈ js, ∀ s, p i s → ok i s) (hr : runAll (checked p step) js s = some s') : Trace step ok s₀ (is ++ js) s' := by
  induction js generalizing is s with
  | nil =>
    cases hr
    rwa [List.append_nil]
  | cons j js ih =>
    obtain ⟨t, ht, hr⟩ := Option.bind_eq_some_iff.1 hr
    unfold Runs.checked at ht
    split at ht
    · rename_i hpj
      have hnext := ih (h.snoc (hp j List.mem_cons_self s hpj) ht) (fun i hi => hp i (List.mem_cons_of_mem _ hi)) hr
      rwa [List.append_assoc] at hnext
    · cases ht

/-- It goes on with inputs that meet the condition in every state. -/
theorem Trace.runAll (h : Trace step ok s₀ is s) (hok : ∀ j ∈ js, ∀ s, ok j s) (hr : Runs.runAll step js s = some s') :
    Trace step ok s₀ (is ++ js) s' := by
  have htrue : Runs.checked (fun _ _ => True) step = step := funext₂ fun _ _ => if_pos trivial
  exact h.checked (p := fun _ _ => True) (fun j hj s _ => hok j hj s) (htrue ▸ hr)

/-- A list of inputs that meet the condition in every state. -/
theorem run_runAll (hok : ∀ i ∈ is, ∀ s, ok i s) (h : Run step ok init s) (hr : runAll step is s = some s') :
    Run step ok init s' :=
  h.trace (Trace.nil.runAll hok hr)

theorem run_checked [∀ i s, Decidable (ok i s)] (h : Run step ok init s) (hr : runAll (checked ok step) is s = some s') :
    Run step ok init s' :=
  h.trace (Trace.nil.checked (fun _ _ _ hi => hi) hr)

/-- The condition holds of every step that the guard lets pass. -/
theorem run_guarded {p : σ → Bool} (hp : ∀ i ∈ is, ∀ s, p s = true → ok i s) (h : Run step ok init s)
    (hr : runAll (guarded p step) is s = some s') : Run step ok init s' :=
  h.trace (Trace.nil.checked (p := fun _ s => p s = true) hp hr)

theorem reachable_runAll (h : Reachable step init s) (hr : runAll step is s = some s') : Reachable step init s' :=
  run_runAll (fun _ _ _ => trivial) h hr

/-- A system that never stops. -/
theorem trace_foldl {f : σ → ι → σ} (hf : ∀ i s, step i s = some (f s i)) (hok : ∀ i s, ok i s) (s₀ : σ) (is : List ι) :
    Trace step ok s₀ is (is.foldl f s₀) := by
  induction is using List.reverseRecOn with
  | nil => exact .nil
  | append_singleton is i ih =>
    rw [List.foldl_append]
    exact .snoc ih (hok i _) (hf i _)

end

end Runs
