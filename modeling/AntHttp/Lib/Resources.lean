import AntHttp.Lib.Runs
import Mathlib.Data.List.Basic
/-!
# Objects of files that are opened and closed

The code of an object is in a file. It may only be called while the file is
open, from the time the object is allocated until it is freed, and what was
begun is ended before the object goes. A log of calls is accepted where every
call is allowed when it is made.
-/

namespace Resources

open Runs

variable {κ ω : Type}

inductive Event (κ ω : Type) where
  | opens (k : κ)
  | closes (k : κ)
  | alloc (o : ω)
  /-- The file's code begins the object, or ends it. -/
  | create (k : κ) (o : ω)
  | drop (k : κ) (o : ω)
  | free (o : ω)
  deriving DecidableEq

inductive Stage where
  | made | created | dropped
  deriving DecidableEq

/-- How often each file is open, and the objects that are allocated. -/
@[ext] structure Custody (κ ω : Type) where
  opened : κ → Nat
  stage : ω → Option Stage

namespace Custody

def nothing : Custody κ ω := ⟨fun _ => 0, fun _ => none⟩

variable [DecidableEq ω]

def set (h : Custody κ ω) (o : ω) (st : Option Stage) : Custody κ ω :=
  { h with stage := Function.update h.stage o st }

@[simp] theorem set_set (h : Custody κ ω) (o : ω) (st st' : Option Stage) :
    (h.set o st).set o st' = h.set o st' := by
  simp [set]

@[simp, grind =] theorem set_stage (h : Custody κ ω) (o o' : ω) (st : Option Stage) :
    (h.set o st).stage o' = if o' = o then st else h.stage o' :=
  Function.update_apply ..

@[simp] theorem set_opened (h : Custody κ ω) (o : ω) (st : Option Stage) : (h.set o st).opened = h.opened := rfl

theorem set_self {h : Custody κ ω} {o : ω} {st : Option Stage} (hs : h.stage o = st) : h.set o st = h := by
  rw [set, ← hs, Function.update_eq_self]

variable [DecidableEq κ]

/-- What is held after a call; none where the call is not allowed. -/
def step : Event κ ω → Custody κ ω → Option (Custody κ ω)
  | .opens k, h => some { h with opened := Function.update h.opened k (h.opened k + 1) }
  | .closes k, h =>
    if 0 < h.opened k then some { h with opened := Function.update h.opened k (h.opened k - 1) } else none
  | .alloc o, h => if h.stage o = none then some (h.set o (some .made)) else none
  | .create k o, h => if h.stage o = some .made ∧ 0 < h.opened k then some (h.set o (some .created)) else none
  | .drop k o, h =>
    if (h.stage o = some .made ∨ h.stage o = some .created) ∧ 0 < h.opened k then some (h.set o (some .dropped))
    else none
  | .free o, h => if h.stage o = some .made ∨ h.stage o = some .dropped then some (h.set o none) else none

/-- The calls are allowed, one after another, and lead to what is held. -/
def Accepts (es : List (Event κ ω)) (h h' : Custody κ ω) : Prop := runAll step es h = some h'

theorem Accepts.append {es es' : List (Event κ ω)} {h h₁ h₂ : Custody κ ω} (he : Accepts es h h₁)
    (he' : Accepts es' h₁ h₂) : Accepts (es ++ es') h h₂ := by
  rw [Accepts, runAll_append, he]
  exact he'

section

variable {h h' : Custody κ ω} {k : κ} {o : ω}

/-! ## Opening and closing -/

theorem accepts_opens (hk : ∀ j, h'.opened j = if j = k then h.opened k + 1 else h.opened j)
    (hs : h'.stage = h.stage) : Accepts [.opens k] h h' := by
  refine congrArg some (Custody.ext (funext fun j => ?_) hs.symm)
  exact (Function.update_apply ..).trans (hk j).symm

theorem accepts_closes (hk : ∀ j, h.opened j = if j = k then h'.opened k + 1 else h'.opened j)
    (hs : h'.stage = h.stage) : Accepts [.closes k] h h' := by
  have hopen : h.opened k = h'.opened k + 1 := by rw [hk k, if_pos rfl]
  rw [Accepts, runAll, step, if_pos (by omega)]
  refine congrArg some (Custody.ext (funext fun j => ?_) hs.symm)
  refine (Function.update_apply ..).trans ?_
  by_cases hj : j = k
  · rw [if_pos hj, hj, hopen, Nat.add_sub_cancel]
  · rw [if_neg hj, hk j, if_neg hj]

/-! ## The life of an object -/

/-- An object that is not begun is freed as it is. -/
theorem accepts_unbegun (ho : h.stage o = none) : Accepts [.alloc o, .free o] h h := by
  simp [Accepts, runAll, step, ho, set_self ho]

/-- It may be ended before it is begun. -/
theorem accepts_ended (ho : h.stage o = none) (hk : 0 < h.opened k) :
    Accepts [.alloc o, .drop k o, .free o] h h := by
  simp [Accepts, runAll, step, ho, hk, set_self ho]

theorem accepts_finished (ho : h.stage o = none) (hk : 0 < h.opened k) :
    Accepts [.alloc o, .create k o, .drop k o, .free o] h h := by
  simp [Accepts, runAll, step, ho, hk, set_self ho]

theorem accepts_begun (ho : h.stage o = none) (hk : 0 < h.opened k) :
    Accepts [.alloc o, .create k o] h (h.set o (some .created)) := by
  simp [Accepts, runAll, step, ho, hk]

theorem accepts_gone (ho : h.stage o = some .created) (hk : 0 < h.opened k) :
    Accepts [.drop k o, .free o] h (h.set o none) := by
  simp [Accepts, runAll, step, ho, hk]

/-! ## What an accepted log says -/

/-- What every call changes by what it gains and loses, a log changes by all that its calls gain and lose. -/
theorem Accepts.eq (gain loss : Event κ ω → Bool) (φ : Custody κ ω → Int)
    (hs : ∀ e h h', step e h = some h' → φ h' + (if loss e then 1 else 0) = φ h + if gain e then 1 else 0)
    {es : List (Event κ ω)} {h h' : Custody κ ω} (he : Accepts es h h') :
    φ h' + es.countP loss = φ h + es.countP gain := by
  induction es generalizing h with
  | nil =>
    cases he
    simp
  | cons e es ih =>
    obtain ⟨h₁, hstep, hrest⟩ := Option.bind_eq_some_iff.1 he
    have hfirst := hs e h h₁ hstep
    have hlast := ih hrest
    rw [List.countP_cons, List.countP_cons]
    split_ifs at hfirst ⊢ <;> push_cast <;> omega

variable {es : List (Event κ ω)}

/-- Where nothing is held at first and at last, a file is closed as often as it is opened. -/
theorem Accepts.closed (he : Accepts es nothing nothing) (k : κ) : es.count (.closes k) = es.count (.opens k) := by
  have hall := he.eq (· == .opens k) (· == .closes k) (fun h => h.opened k) fun e h h' hstep => by
    cases e with
    | opens j => cases hstep; grind [Function.update_apply]
    | closes j => rw [step] at hstep; split at hstep <;> cases hstep; grind [Function.update_apply]
    | _ => rw [step] at hstep; split at hstep <;> cases hstep; simp
  simp only [nothing] at hall
  rw [List.count, List.count]
  omega

/-- An object is freed as often as it is allocated. -/
theorem Accepts.freed (he : Accepts es nothing nothing) (o : ω) : es.count (.free o) = es.count (.alloc o) := by
  have hall := he.eq (· == .alloc o) (· == .free o) (fun h => if h.stage o = none then 0 else 1)
    fun e h h' hstep => by
      cases e with
      | opens j => cases hstep; simp
      | _ => rw [step] at hstep; split at hstep <;> cases hstep; grind
  simp only [nothing] at hall
  rw [List.count, List.count]
  omega

end

end Custody

end Resources
