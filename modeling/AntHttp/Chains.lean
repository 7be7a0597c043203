import AntHttp.Lib.Continuations
import AntHttp.Lib.Runs
import AntHttp.Threads
/-!
# A chain of tasks (`lib/scheduler.c`)

A handler returns NULL or a task that takes over its callbacks, so a chain of
task objects runs from one that is added to the scheduler until an object has
neither a handle nor a callback left. Each object joins the queue, is chosen at
the start of a round, leaves the queue and has its handler called; the rest of
the program makes, adds and runs tasks of its own all the while. The chain makes
the calls that the handlers' results ask for as sequential continuations, and
frees its objects once each, unless two tasks are queued under one id.
-/

namespace AntHttp

open Bst Continuations Runs

variable {H D : Type}

/-- What the object still has to run: its handle, then its callbacks. -/
def TaskCell.work (t : TaskCell H D) : Work H D := ⟨t.data, t.handle.toList ++ t.callback⟩

namespace TaskChain

/-- Where the object is that carries the chain. -/
inductive Phase where
  | queued (p : Nat)
  /-- Its handler runs. -/
  | running (p : Nat)
  /-- It is about to join the queue; the task that has returned it is destroyed after that. -/
  | adding (p : Nat) (old : Option Nat)
  | ended
  deriving DecidableEq

def Phase.carrier : Phase → Option Nat
  | queued p | running p | adding p _ => some p
  | ended => none

/-- The objects of the chain that are still there. -/
def Phase.objects : Phase → List Nat
  | queued p | running p => [p]
  | adding p old => p :: old.toList
  | ended => []

end TaskChain

structure TaskChain (H D : Type) where
  cells : Cells H D
  sched : Sched Nat
  /-- The tasks of the round that are still to be deployed. -/
  scheduled : List Nat
  phase : TaskChain.Phase
  calls : List (Invocation H D)
  /-- The addresses of the objects made for the chain, and those given to `free`. -/
  made : List Nat
  freed : List Nat

namespace TaskChain

def queue (s : TaskChain H D) : List Nat := (toList s.sched.task_queue).map Prod.snd

/-- The handler makes the task that it returns. -/
def malloc (s : TaskChain H D) : Option (Nat × TaskCell H D) → Option (TaskChain H D)
  | none => some s
  | some (p, cell) =>
    if (s.cells p).isSome then none
    else some { s with cells := Function.update s.cells p (some cell), made := s.made ++ [p] }

/-- Only an object that is there can be freed. -/
def destroy_task (s : TaskChain H D) : Option Nat → Option (TaskChain H D)
  | none => some s
  | some task => (s.cells task).map fun _ => { s with cells := s.cells.destroy_task task, freed := s.freed ++ [task] }

/-- The start of `antd_scheduler_add_task`: a task without an id is given one. -/
def number (s : TaskChain H D) (task : Nat) : Option (TaskChain H D) :=
  (s.cells task).map fun t =>
    if t.id = 0 then
      let r := antd_scheduler_next_id s.sched t.id
      { s with sched := r.2, cells := Function.update s.cells task (some { t with id := r.1 }) }
    else s

/-- The object that goes on is going to be added, or `execute_callback` has destroyed `carrier`; a task that has
returned another one is destroyed last. -/
def goOn (s : TaskChain H D) (carrier : Nat) (next old : Option Nat) : Option (TaskChain H D) :=
  match next with
  | some next => (s.number next).map fun s => { s with phase := .adding next old }
  | none => { s with phase := .ended, freed := s.freed ++ [carrier] }.destroy_task old

/-- `antd_execute_task` once the handler of `task` has returned `ret`. -/
def antd_execute_task (s : TaskChain H D) (task : Nat) (ret : Option Nat) : Option (TaskChain H D) :=
  (s.cells.antd_execute_task task ret).bind fun r => { s with cells := r.1 }.goOn (ret.getD task) r.2.1 r.2.2

/-- The handler of the chain's object returns. -/
def returned (s : TaskChain H D) (ret : Option (Nat × TaskCell H D)) : Option (TaskChain H D) :=
  match s.phase with
  | .running task => do
    let t ← s.cells task
    let handle ← t.handle
    let s ← { s with calls := s.calls ++ [⟨handle, t.data, ret.map (·.2.work)⟩] : TaskChain H D }.malloc ret
    s.antd_execute_task task (ret.map Prod.fst)
  | _ => none

/-- The rest of `antd_scheduler_add_task` for the chain's object. -/
def join (s : TaskChain H D) : Option (TaskChain H D) :=
  match s.phase with
  | .adding p old => (s.cells p).bind fun t =>
    { s with sched := (s.sched.insert t.id p).pend 1, phase := .queued p }.destroy_task old
  | _ => none

/-- The start of a round: tasks of the queue are chosen. -/
def collect (s : TaskChain H D) (due : Nat → Bool) : Option (TaskChain H D) :=
  if s.scheduled = [] then some { s with scheduled := s.queue.filter due } else none

/-- The next chosen task leaves the queue and is found valid; if it carries the chain, its handler is called. -/
def antd_deploy_task (s : TaskChain H D) : Option (TaskChain H D) :=
  match s.scheduled with
  | p :: rest => (s.cells p).map fun t =>
    { s with
      sched := (s.sched.delete t.id).pend (-1), scheduled := rest
      phase := if s.phase = .queued p then .running p else s.phase }
  | [] => none

/-- The rest of the program makes, changes or frees an object of its own. While it is queued it is there, with its id. -/
def write (s : TaskChain H D) (p : Nat) (cell : Option (TaskCell H D)) : Option (TaskChain H D) :=
  if p ∈ s.phase.objects ∨ p ∈ s.queue ∧ cell.map (·.id) ≠ (s.cells p).map (·.id) then none
  else some { s with cells := Function.update s.cells p cell }

/-- The rest of the program adds an object of its own. -/
def insert (s : TaskChain H D) (p : Nat) : Option (TaskChain H D) :=
  if p ∈ s.phase.objects ∨ p ∈ s.queue then none
  else (s.cells p).map fun t => { s with sched := (s.sched.insert t.id p).pend 1 }

inductive Action (H D : Type) where
  | collect (due : Nat → Bool)
  | deploy
  | ret (ret : Option (Nat × TaskCell H D))
  | join
  /-- An id is asked for, by `antd_task_data_id` or for a task without one. -/
  | allocate (input : Int)
  | write (p : Nat) (cell : Option (TaskCell H D))
  | insert (p : Nat)

def step (a : Action H D) (s : TaskChain H D) : Option (TaskChain H D) :=
  match a with
  | .collect due => s.collect due
  | .deploy => s.antd_deploy_task
  | .ret ret => s.returned ret
  | .join => s.join
  | .allocate input => some { s with sched := (antd_scheduler_next_id s.sched input).2 }
  | .write p cell => s.write p cell
  | .insert p => s.insert p

/-- The task at `p` is the first to be added. -/
structure Starts (p : Nat) (t : TaskCell H D) (s : TaskChain H D) : Prop where
  phase : s.phase = .adding p none
  cell : s.cells p = some t
  handle : t.handle ≠ none
  queue : s.sched.task_queue = .nil
  scheduled : s.scheduled = []
  calls : s.calls = []
  made : s.made = [p]
  freed : s.freed = []

/-- A task is inserted under an id that is free. -/
def Free : Action H D → TaskChain H D → Prop
  | .join, s => ∀ p ∈ s.phase.carrier, ∀ t ∈ s.cells p, bst_find s.sched.task_queue t.id = none
  | .insert p, s => ∀ t ∈ s.cells p, bst_find s.sched.task_queue t.id = none
  | _, _ => True

instance : (a : Action H D) → (s : TaskChain H D) → Decidable (Free a s)
  | .join, s => inferInstanceAs (Decidable (∀ p ∈ s.phase.carrier, ∀ t ∈ s.cells p, bst_find s.sched.task_queue t.id = none))
  | .insert p, s => inferInstanceAs (Decidable (∀ t ∈ s.cells p, bst_find s.sched.task_queue t.id = none))
  | .collect _, _ | .deploy, _ | .ret _, _ | .allocate _, _ | .write .., _ => .isTrue trivial

/-- The calls so far are those of sequential continuations, and the chain goes on with the next one until they complete
`w`; each object is freed once, when it carries the chain no more. -/
structure Sequential (w : Work H D) (s : TaskChain H D) : Prop where
  objects : s.made.Perm (s.phase.objects ++ s.freed)
  ended : s.phase = .ended ↔ ∃ d, Completes w s.calls d
  carried : ∀ p ∈ s.phase.carrier, ∃ u handle, s.cells p = some u ∧ u.handle = some handle ∧ Steps w s.calls u.work
  queued : ∀ p, s.phase = .queued p → p ∈ s.queue
  /-- The handler is given the object's own data, and whatever it returns the call is made. -/
  called : ∀ p, s.phase = .running p → ∀ ret : Option (Nat × TaskCell H D), (∀ r ∈ ret, s.cells r.1 = none) →
    ∃ u handle s', s.cells p = some u ∧ u.handle = some handle ∧ s.returned ret = some s' ∧
      s'.calls = s.calls ++ [⟨handle, u.data, ret.map (·.2.work)⟩]
  joins : ∀ p old, s.phase = .adding p old → ∃ s', s.join = some s' ∧ s'.phase = .queued p

/-! ## What an object goes on as -/

theorem next_work {t u : TaskCell H D} (h : t.next = some u) : u.work = t.work ∧ u.handle ≠ none := by
  obtain ⟨_, _, handle, callback, _, _⟩ := t
  cases handle with
  | some f => cases h; exact ⟨rfl, by simp⟩
  | none =>
    cases callback with
    | nil => cases h
    | cons cb rest => cases h; exact ⟨rfl, by simp⟩

theorem next_none {t : TaskCell H D} (h : t.next = none) : t.work.todo = [] := by
  obtain ⟨_, _, handle, callback, _, _⟩ := t
  cases handle with
  | some f => cases h
  | none =>
    cases callback with
    | nil => rfl
    | cons cb rest => cases h


/-! ## The queue -/

section Queue

variable {m m' : Cells H D} {q : Node Nat} {l : List Nat} {p : Nat} {t : TaskCell H D}

/-- The id of the task at an address. -/
def idOf (m : Cells H D) (p : Nat) : Int := (m p).elim 0 (·.id)

/-- Each queued task is there and queued under its id, and those of the round are queued. -/
structure Orderly (m : Cells H D) (q : Node Nat) (l : List Nat) : Prop where
  keyed : Keyed (idOf m) q
  live : ∀ p ∈ (toList q).map Prod.snd, (m p).isSome
  chosen : Chosen (idOf m) q l

theorem idOf_some (ht : m p = some t) : idOf m p = t.id := by rw [idOf, ht]; rfl

theorem idOf_eq (h : (m' p).map (·.id) = (m p).map (·.id)) : idOf m' p = idOf m p := by
  have helim (o : Option (TaskCell H D)) : o.elim 0 (·.id) = (o.map (·.id)).getD 0 := by cases o <;> rfl
  rw [idOf, idOf, helim, helim, h]

theorem mem_of_find (ho : Ordered q) {x : Int} (hf : bst_find q x = some p) : p ∈ (toList q).map Prod.snd :=
  List.mem_map.2 ⟨_, (find_mem ho).1 hf, rfl⟩

/-- The objects that are not queued do not matter, nor what else a queued one holds. -/
theorem Orderly.cells (h : Orderly m q l) (hm : ∀ p ∈ (toList q).map Prod.snd, (m' p).map (·.id) = (m p).map (·.id)) :
    Orderly m' q l where
  keyed := ⟨h.keyed.ordered, fun e he => (idOf_eq (hm e.2 (List.mem_map_of_mem he))).trans (h.keyed.keyed e he)⟩
  live p hp := by
    have hlive := h.live p hp
    rw [← Option.isSome_map (f := (·.id))] at hlive ⊢
    rwa [hm p hp]
  chosen := by
    have hid : ∀ p ∈ l, idOf m' p = idOf m p := fun p hp => idOf_eq (hm p (mem_of_find h.keyed.ordered (h.chosen.found p hp)))
    refine ⟨(List.map_congr_left hid) ▸ h.chosen.nodup, fun p hp => ?_⟩
    rw [hid p hp]
    exact h.chosen.found p hp

theorem Orderly.update (h : Orderly m q l) (hp : p ∉ (toList q).map Prod.snd) (c : Option (TaskCell H D)) :
    Orderly (Function.update m p c) q l :=
  h.cells fun _ hr => by rw [Function.update_of_ne (ne_of_mem_of_not_mem hr hp)]

theorem Orderly.collect (h : Orderly m q []) (due : Nat → Bool) : Orderly m q (((toList q).map Prod.snd).filter due) where
  keyed := h.keyed
  live := h.live
  chosen := ⟨h.keyed.nodup.sublist (List.filter_sublist.map _), fun _ hp => h.keyed.find (List.mem_of_mem_filter hp)⟩

theorem Orderly.insert (h : Orderly m q l) (ht : m p = some t) (hf : bst_find q t.id = none) :
    Orderly m (bst_insert q t.id p) l ∧ ((toList (bst_insert q t.id p)).map Prod.snd).Perm (p :: (toList q).map Prod.snd) := by
  have hperm := (insert_perm h.keyed.ordered p hf).map Prod.snd
  refine ⟨⟨?_, fun r hr => ?_, h.chosen.insert h.keyed.ordered hf p⟩, hperm⟩
  · rw [← idOf_some ht]
    exact h.keyed.insert p
  · rcases List.mem_cons.1 (hperm.mem_iff.1 hr) with rfl | hr
    · rw [ht]
      rfl
    · exact h.live r hr

/-- A deployment takes out the task it deploys and no other. -/
theorem Orderly.deploy (h : Orderly m q (p :: l)) (ht : m p = some t) :
    Orderly m (bst_delete q t.id) l ∧ ((toList q).map Prod.snd).Perm (p :: (toList (bst_delete q t.id)).map Prod.snd) ∧
      p ∉ (toList (bst_delete q t.id)).map Prod.snd := by
  rw [← idOf_some ht]
  have hperm := (delete_perm h.keyed.ordered (h.chosen.found p List.mem_cons_self)).map Prod.snd
  refine ⟨⟨h.keyed.delete _, fun r hr => h.live r (hperm.mem_iff.2 (List.mem_cons_of_mem _ hr)),
    h.chosen.delete h.keyed.ordered⟩, hperm, ?_⟩
  exact (List.nodup_cons.1 (hperm.nodup_iff.1 (List.Nodup.of_map _ h.keyed.nodup))).1

end Queue

/-! ## The invariant -/

variable {s s' : TaskChain H D} {w : Work H D} {p : Nat} {t : TaskCell H D} {m m' : Cells H D} {queue queue' : List Nat}
  {calls : List (Invocation H D)}

/-- The object carries what the calls so far leave of `w`. -/
def Carries (w : Work H D) (m : Cells H D) (calls : List (Invocation H D)) (p : Nat) : Prop :=
  ∃ t, m p = some t ∧ t.handle ≠ none ∧ Steps w calls t.work

/-- The chain's object is where the phase says, and only a queued one is in the queue. -/
def Placed (w : Work H D) (m : Cells H D) (queue : List Nat) (calls : List (Invocation H D)) : Phase → Prop
  | .queued p => Carries w m calls p ∧ p ∈ queue
  | .running p => Carries w m calls p ∧ p ∉ queue
  | .adding p old => Carries w m calls p ∧ p ∉ queue ∧ ∀ o ∈ old, o ≠ p ∧ o ∉ queue ∧ (m o).isSome
  | .ended => ∃ d, Steps w calls ⟨d, []⟩

structure Inv (w : Work H D) (s : TaskChain H D) : Prop where
  orderly : Orderly s.cells s.sched.task_queue s.scheduled
  placed : Placed w s.cells s.queue s.calls s.phase
  objects : s.made.Perm (s.phase.objects ++ s.freed)

theorem Carries.keep (h : Carries w m calls p) (hm : m' p = m p) : Carries w m' calls p := by
  obtain ⟨t, ht, h⟩ := h
  exact ⟨t, hm.trans ht, h⟩

/-- What keeps off the chain's objects leaves them in their place. -/
theorem Placed.keep {phase : Phase} (h : Placed w m queue calls phase) (hm : ∀ p ∈ phase.objects, m' p = m p)
    (hq : ∀ p ∈ phase.objects, p ∈ queue' ↔ p ∈ queue) : Placed w m' queue' calls phase := by
  cases phase with
  | queued p =>
    have hp : p ∈ Phase.objects (.queued p) := List.mem_cons_self
    exact ⟨h.1.keep (hm p hp), (hq p hp).2 h.2⟩
  | running p =>
    have hp : p ∈ Phase.objects (.running p) := List.mem_cons_self
    exact ⟨h.1.keep (hm p hp), fun hin => h.2 ((hq p hp).1 hin)⟩
  | adding p old =>
    have hp : p ∈ Phase.objects (.adding p old) := List.mem_cons_self
    refine ⟨h.1.keep (hm p hp), fun hin => h.2.1 ((hq p hp).1 hin), fun o ho => ?_⟩
    have hobj : o ∈ Phase.objects (.adding p old) := List.mem_cons_of_mem _ (Option.mem_toList.2 ho)
    obtain ⟨hne, hout, hlive⟩ := h.2.2 o ho
    exact ⟨hne, fun hin => hout ((hq o hobj).1 hin), by rw [hm o hobj]; exact hlive⟩
  | ended => exact h

/-- Of the chain's objects only a queued one is in the queue. -/
theorem Placed.eq_queued {phase : Phase} (h : Placed w m queue calls phase) (ho : p ∈ phase.objects) (hin : p ∈ queue) :
    phase = .queued p := by
  cases phase with
  | queued q =>
    cases List.mem_singleton.1 ho
    rfl
  | running q =>
    cases List.mem_singleton.1 ho
    exact absurd hin h.2
  | adding q old =>
    rcases List.mem_cons.1 ho with rfl | ho
    · exact absurd hin h.2.1
    · exact absurd hin (h.2.2 p (Option.mem_toList.1 ho)).2.1
  | ended => cases ho

theorem Starts.inv (h : Starts p t s) : Inv t.work s where
  orderly := by
    rw [h.queue, h.scheduled]
    exact ⟨.nil _, nofun, List.nodup_nil, nofun⟩
  placed := by
    have hnil : s.queue = [] := by
      unfold TaskChain.queue
      rw [h.queue]
      rfl
    rw [h.phase, h.calls, hnil]
    exact ⟨⟨t, h.cell, h.handle, .refl⟩, List.not_mem_nil, nofun⟩
  objects := by rw [h.made, h.phase, h.freed]; exact .refl _

/-! ## The chain's own steps -/

theorem number_eq (ht : s.cells p = some t) : ∃ id id_allocator, s.number p =
    some { s with sched.id_allocator := id_allocator, cells := Function.update s.cells p (some { t with id }) } := by
  rw [number, ht, Option.map_some]
  split
  · exact ⟨_, _, rfl⟩
  · refine ⟨t.id, s.sched.id_allocator, ?_⟩
    rw [← ht, Function.update_eq_self]

theorem destroy_task_eq {old : Option Nat} (h : ∀ o ∈ old, (s.cells o).isSome) : s.destroy_task old =
    some { s with cells := old.elim s.cells s.cells.destroy_task, freed := s.freed ++ old.toList } := by
  cases old with
  | none => rw [destroy_task, Option.toList_none, List.append_nil]; rfl
  | some o =>
    obtain ⟨t, ht⟩ := Option.isSome_iff_exists.1 (h o rfl)
    rw [destroy_task, ht]
    rfl

theorem destroyed_ne {old : Option Nat} (h : ∀ o ∈ old, o ≠ p) : old.elim m m.destroy_task p = m p := by
  cases old with
  | none => rfl
  | some o => exact Function.update_of_ne (h o rfl).symm ..

theorem Orderly.destroy {q : Node Nat} {l : List Nat} (h : Orderly m q l) {old : Option Nat}
    (hold : ∀ o ∈ old, o ∉ (toList q).map Prod.snd) : Orderly (old.elim m m.destroy_task) q l :=
  h.cells fun p hp => by rw [destroyed_ne fun o ho => (ne_of_mem_of_not_mem hp (hold o ho)).symm]

/-- The object at `q` goes on as what it has left to run, or it is destroyed; `old` is destroyed after that. -/
theorem goOn_inv {u : TaskCell H D} {q : Nat} (old : Option Nat) (ho : Orderly s.cells s.sched.task_queue s.scheduled)
    (hw : Steps w s.calls u.work) (hq : s.cells q = u.next) (hout : q ∉ s.queue)
    (hold : ∀ o ∈ old, o ≠ q ∧ o ∉ s.queue ∧ (s.cells o).isSome) (hobj : s.made.Perm (q :: (old.toList ++ s.freed))) :
    ∃ s', s.goOn q (u.next.map fun _ => q) old = some s' ∧ s'.calls = s.calls ∧ Inv w s' := by
  cases hu : u.next with
  | some v =>
    obtain ⟨hv, hh⟩ := next_work hu
    rw [hu] at hq
    obtain ⟨id, id_allocator, hnumber⟩ := number_eq hq
    refine ⟨{ s with
      sched.id_allocator := id_allocator, cells := Function.update s.cells q (some { v with id }), phase := .adding q old },
      by rw [Option.map_some, goOn, hnumber]; rfl, rfl, ho.update hout _, ?_, hobj⟩
    refine ⟨⟨_, Function.update_self .., hh, ?_⟩, hout, fun o h => ?_⟩
    · exact hv ▸ hw
    · obtain ⟨hne, hin, hlive⟩ := hold o h
      exact ⟨hne, hin, (congrArg Option.isSome (Function.update_of_ne hne ..)).trans hlive⟩
  | none =>
    have hd := destroy_task_eq (s := { s with phase := .ended, freed := s.freed ++ [q] }) fun o h => (hold o h).2.2
    refine ⟨_, hd, rfl, ho.destroy fun o h => (hold o h).2.1, ⟨u.work.data, ?_⟩, ?_⟩
    · have htodo := next_none hu
      have hwork : u.work = ⟨u.work.data, []⟩ := by rw [← htodo]
      rwa [hwork] at hw
    · refine hobj.trans ?_
      change (q :: (old.toList ++ s.freed)).Perm (s.freed ++ [q] ++ old.toList)
      rw [List.append_assoc]
      exact (List.perm_append_comm.cons q).trans List.perm_middle.symm

/-- Whatever the handler returns, the call that comes next is made. -/
theorem returned_inv (h : Inv w s) (hp : s.phase = .running p) {ret : Option (Nat × TaskCell H D)}
    (hfresh : ∀ r ∈ ret, s.cells r.1 = none) :
    ∃ t handle s', s.cells p = some t ∧ t.handle = some handle ∧ s.returned ret = some s' ∧
      s'.calls = s.calls ++ [⟨handle, t.data, ret.map (·.2.work)⟩] ∧ Inv w s' := by
  have hplaced := h.placed
  have hobj := h.objects
  rw [hp] at hplaced hobj
  obtain ⟨⟨t, ht, hh, hw⟩, hout⟩ := hplaced
  obtain ⟨handle, hh⟩ := Option.ne_none_iff_exists'.1 hh
  have hcall : t.work = ⟨t.data, handle :: t.callback⟩ := by rw [TaskCell.work, hh]; rfl
  rw [hcall] at hw
  cases ret with
  | none =>
    -- nothing is returned: the task itself goes on with its callbacks
    have hwork : ({ t with handle := none } : TaskCell H D).work =
        Invocation.after ⟨handle, t.data, none⟩ t.callback := rfl
    obtain ⟨s', hs, hcalls, hi⟩ := goOn_inv (w := w) (q := p) (u := { t with handle := none })
      (s := { s with
        cells := Function.update s.cells p { t with handle := none }.next, phase := .running p
        calls := s.calls ++ [⟨handle, t.data, none⟩] })
      none (h.orderly.update hout _) (by rw [hwork]; exact hw.snoc) (Function.update_self ..) hout (by simp) hobj
    refine ⟨t, handle, s', ht, hh, ?_, hcalls, hi⟩
    simp only [returned, hp, ht, hh, Option.bind_eq_bind, Option.bind_some, malloc, antd_execute_task]
    rw [Option.map_none, Cells.antd_execute_task_none ht]
    exact hs
  | some r =>
    -- the returned task inherits the callbacks, and the old one is destroyed
    obtain ⟨q, cell⟩ := r
    have hnone : s.cells q = none := hfresh _ rfl
    have hne : q ≠ p := by
      rintro rfl
      rw [hnone] at ht
      cases ht
    have hnew : q ∉ s.queue := fun hin => by simpa [hnone] using h.orderly.live q hin
    have hwork : ({ cell with callback := cell.callback ++ t.callback } : TaskCell H D).work =
        Invocation.after ⟨handle, t.data, some cell.work⟩ t.callback := by
      simp [TaskCell.work, Invocation.after]
    obtain ⟨s', hs, hcalls, hi⟩ := goOn_inv (w := w) (q := q)
      (u := { cell with callback := cell.callback ++ t.callback })
      (s := { s with
        cells := Function.update (Function.update (Function.update s.cells q (some cell)) p
          (some { t with callback := [] })) q { cell with callback := cell.callback ++ t.callback }.next
        phase := .running p, calls := s.calls ++ [⟨handle, t.data, some cell.work⟩], made := s.made ++ [q] })
      (some p) (((h.orderly.update hnew _).update hout _).update hnew _) (by rw [hwork]; exact hw.snoc)
      (Function.update_self ..) hnew (by rintro _ ⟨⟩; exact ⟨hne.symm, hout, by simp [hne.symm]⟩)
      ((List.perm_append_singleton q s.made).trans (hobj.cons q))
    refine ⟨t, handle, s', ht, hh, ?_, hcalls, hi⟩
    have htask : (Function.update s.cells q (some cell)) p = some t := by rwa [Function.update_of_ne hne.symm]
    simp only [returned, hp, ht, hh, Option.bind_eq_bind, Option.bind_some, malloc, antd_execute_task, hnone,
      Option.isSome_none, Bool.false_eq_true, if_false, Option.map_some, Option.getD_some]
    rw [Cells.antd_execute_task_some hne htask (Function.update_self ..)]
    exact hs

/-- A handler that returns was running, and the task that is returned is at a new address. -/
theorem returned_defined {ret : Option (Nat × TaskCell H D)} (hs : s.returned ret = some s') :
    (∃ p, s.phase = .running p) ∧ ∀ r ∈ ret, s.cells r.1 = none := by
  unfold returned at hs
  split at hs
  · rename_i task hp
    obtain ⟨t, -, hs⟩ := Option.bind_eq_some_iff.1 hs
    obtain ⟨handle, -, hs⟩ := Option.bind_eq_some_iff.1 hs
    obtain ⟨s1, hm, -⟩ := Option.bind_eq_some_iff.1 hs
    refine ⟨⟨task, hp⟩, fun r hr => ?_⟩
    rw [Option.mem_def.1 hr] at hm
    simp only [malloc] at hm
    split at hm
    · cases hm
    · rename_i hnone
      simpa using hnone
  · cases hs

/-- The object joins the queue under a free id. -/
theorem join_inv (h : Inv w s) (hf : Free .join s) {old : Option Nat} (hp : s.phase = .adding p old) :
    ∃ s', s.join = some s' ∧ s'.phase = .queued p ∧ Inv w s' := by
  have hplaced := h.placed
  have hobj := h.objects
  rw [hp] at hplaced hobj
  obtain ⟨⟨t, ht, hh, hw⟩, hout, hold⟩ := hplaced
  obtain ⟨ho, hperm⟩ := h.orderly.insert ht (hf p (by rw [hp]; rfl) t ht)
  have hqueue : ∀ o ∈ old, o ∉ (toList (bst_insert s.sched.task_queue t.id p)).map Prod.snd := fun o hmem hin => by
    obtain ⟨hne, hnot, -⟩ := hold o hmem
    rcases List.mem_cons.1 (hperm.mem_iff.1 hin) with he | hin
    · exact hne he
    · exact hnot hin
  have hd := destroy_task_eq (s := { s with sched := (s.sched.insert t.id p).pend 1, phase := .queued p })
    fun o hmem => (hold o hmem).2.2
  refine ⟨_, by rw [join, hp]; simp only [ht, Option.bind_some]; exact hd, rfl, ho.destroy hqueue, ?_, ?_⟩
  · refine ⟨⟨t, (destroyed_ne fun o hmem => (hold o hmem).1).trans ht, hh, hw⟩, ?_⟩
    exact hperm.mem_iff.2 List.mem_cons_self
  · exact hobj.trans (List.perm_append_comm.cons p)

/-! ## The steps of the others -/

theorem inv_deploy (h : Inv w s) (hs : s.antd_deploy_task = some s') : Inv w s' := by
  unfold antd_deploy_task at hs
  split at hs
  · rename_i r rest hr
    obtain ⟨t, ht, rfl⟩ := Option.map_eq_some_iff.1 hs
    have horderly := h.orderly
    rw [hr] at horderly
    obtain ⟨ho, hperm, hgone⟩ := horderly.deploy ht
    by_cases hp : s.phase = .queued r
    · have hplaced := h.placed
      have hobj := h.objects
      rw [hp] at hplaced hobj
      refine ⟨ho, ?_, ?_⟩
      · simp only [if_pos hp]
        exact ⟨hplaced.1, hgone⟩
      · simp only [if_pos hp]
        exact hobj
    · refine ⟨ho, ?_, ?_⟩
      · simp only [if_neg hp]
        refine h.placed.keep (fun _ _ => rfl) fun o hobj => ⟨fun hin => hperm.mem_iff.2 (List.mem_cons_of_mem _ hin), fun hin => ?_⟩
        rcases List.mem_cons.1 (hperm.mem_iff.1 hin) with rfl | hleft
        · exact absurd (h.placed.eq_queued hobj hin) hp
        · exact hleft
      · simp only [if_neg hp]
        exact h.objects
  · cases hs

theorem inv_collect {due : Nat → Bool} (h : Inv w s) (hs : s.collect due = some s') : Inv w s' := by
  unfold collect at hs
  split at hs
  · rename_i hnone
    cases hs
    have horderly := h.orderly
    rw [hnone] at horderly
    exact ⟨horderly.collect due, h.placed, h.objects⟩
  · cases hs

theorem inv_write {cell : Option (TaskCell H D)} (h : Inv w s) (hs : s.write p cell = some s') : Inv w s' := by
  unfold write at hs
  split at hs
  · cases hs
  · rename_i hown
    obtain ⟨hobj, hid⟩ := not_or.1 hown
    cases hs
    refine ⟨h.orderly.cells fun r hr => ?_, h.placed.keep (fun o ho => ?_) fun _ _ => Iff.rfl, h.objects⟩
    · by_cases hp : r = p
      · subst hp
        have hsame : cell.map (·.id) = (s.cells r).map (·.id) := not_not.1 fun hne => hid ⟨hr, hne⟩
        simpa only [Function.update_self] using hsame
      · simp only [Function.update_of_ne hp]
    · exact Function.update_of_ne (ne_of_mem_of_not_mem ho hobj) ..

theorem inv_insert (h : Inv w s) (hf : Free (.insert p) s) (hs : s.insert p = some s') : Inv w s' := by
  unfold insert at hs
  split at hs
  · cases hs
  · rename_i hown
    obtain ⟨hobj, -⟩ := not_or.1 hown
    obtain ⟨t, ht, rfl⟩ := Option.map_eq_some_iff.1 hs
    obtain ⟨ho, hperm⟩ := h.orderly.insert ht (hf t ht)
    refine ⟨ho, h.placed.keep (fun _ _ => rfl) fun o hchain => ?_, h.objects⟩
    exact hperm.mem_iff.trans ⟨fun hin => (List.mem_cons.1 hin).resolve_left (ne_of_mem_of_not_mem hchain hobj),
      List.mem_cons_of_mem _⟩

/-! ## Runs -/

theorem step_inv {a : Action H D} (h : Inv w s) (ha : Free a s) (hs : step a s = some s') : Inv w s' := by
  cases a with
  | collect due => exact inv_collect h hs
  | deploy => exact inv_deploy h hs
  | ret ret =>
    obtain ⟨⟨p, hp⟩, hfresh⟩ := returned_defined hs
    obtain ⟨t, handle, s1, -, -, hs1, -, hi⟩ := returned_inv h hp hfresh
    cases hs1.symm.trans hs
    exact hi
  | join =>
    cases hp : s.phase with
    | adding p old =>
      obtain ⟨s1, hs1, -, hi⟩ := join_inv h ha hp
      cases hs1.symm.trans hs
      exact hi
    | queued p | running p | ended =>
      have hs : s.join = some s' := hs
      rw [join, hp] at hs
      cases hs
  | allocate input =>
    cases hs
    exact ⟨h.orderly, h.placed, h.objects⟩
  | write p cell => exact inv_write h hs
  | insert p => exact inv_insert h ha hs

theorem Placed.carries {phase : Phase} (h : Placed w m queue calls phase) (hp : p ∈ phase.carrier) : Carries w m calls p := by
  cases phase with
  | queued q | running q | adding q old =>
    cases hp
    exact h.1
  | ended => cases hp

theorem Inv.sequential (h : Inv w s) : Sequential w s where
  objects := h.objects
  ended := by
    have hplaced := h.placed
    constructor
    · intro he
      rw [he] at hplaced
      obtain ⟨d, hd⟩ := hplaced
      exact ⟨d, completes_iff.2 hd⟩
    · rintro ⟨d, hd⟩
      -- an object that carries the chain still has its handle to run
      have hnone : s.phase.carrier = none := by
        rw [Option.eq_none_iff_forall_ne_some]
        intro q hq
        obtain ⟨u, -, hh, hw⟩ := hplaced.carries hq
        obtain ⟨handle, hh⟩ := Option.ne_none_iff_exists'.1 hh
        have hend := (completes_iff.1 hd).unique hw
        rw [TaskCell.work, hh] at hend
        cases hend
      cases hp : s.phase with
      | ended => rfl
      | queued q | running q | adding q old =>
        rw [hp] at hnone
        cases hnone
  carried p hp := by
    obtain ⟨u, hu, hh, hw⟩ := h.placed.carries hp
    obtain ⟨handle, hh⟩ := Option.ne_none_iff_exists'.1 hh
    exact ⟨u, handle, hu, hh, hw⟩
  queued p hp := by
    have hplaced := h.placed
    rw [hp] at hplaced
    exact hplaced.2
  called p hp ret hfresh := by
    obtain ⟨t, handle, s', ht, hh, hs, hcalls, -⟩ := returned_inv h hp hfresh
    exact ⟨t, handle, s', ht, hh, hs, hcalls⟩
  joins p old hp := by
    have hplaced := h.placed
    rw [hp] at hplaced
    obtain ⟨⟨t, ht, -⟩, -, hold⟩ := hplaced
    have hd := destroy_task_eq (s := { s with sched := (s.sched.insert t.id p).pend 1, phase := .queued p })
      fun o hmem => (hold o hmem).2.2
    exact ⟨_, by rw [join, hp]; simp only [ht, Option.bind_some]; exact hd, rfl⟩

/-- However the handlers return and whatever else is added and run, the calls are those of sequential continuations, as
long as every insertion finds its id free. -/
theorem runs_sequentially (p : Nat) (t : TaskCell H D) (s : TaskChain H D) (h : Run step Free (Starts p t) s) :
    Sequential t.work s :=
  (h.inv (Inv t.work) (fun _ hs => hs.inv) fun _ _ _ hi ha hs => step_inv hi ha hs).sequential

/-- A task with a callback is about to be added. -/
def firstTask : TaskCell Nat Nat := ⟨5, 0, some 1, [2], [], 10⟩

def firstChain : TaskChain Nat Nat where
  cells := Function.update (fun _ => none) 0 (some firstTask)
  sched := ⟨.nil, 0, 0⟩
  scheduled := []
  phase := .adding 0 none
  calls := []
  made := [0]
  freed := []

theorem firstChain_starts : Starts 0 firstTask firstChain := ⟨rfl, rfl, by decide, rfl, rfl, rfl, rfl, rfl⟩

/-- The chain's object is chosen, deployed and returns. -/
def turn (ret : Option (Nat × TaskCell Nat Nat)) : List (Action Nat Nat) := [.collect fun _ => true, .deploy, .ret ret]

/-- Another task runs beside the chain. The chain's handler returns a task with a callback and no handle; the callbacks
return nothing. -/
def threeTurns : List (Action Nat Nat) :=
  [.join] ++ turn (some (1, ⟨5, 0, none, [3], [], 20⟩)) ++ [.join, .write 7 (some ⟨9, 0, some 4, [], [], 0⟩), .insert 7] ++
    turn none ++ [.join, .deploy, .write 7 none] ++ turn none

/-- The inherited callback comes last and is given the data of the object that carries it then. -/
theorem runs_sequentially_three : ∃ s : TaskChain Nat Nat, s.calls.map (fun c => (c.fn, c.data)) = [(1, 10), (3, 20), (2, 20)] ∧
    s.freed = [0, 1] ∧ ∃ d, Completes firstTask.work s.calls d := by
  have hrun : ((runAll (checked Free step) threeTurns firstChain).any fun s =>
      decide (s.calls.map (fun c => (c.fn, c.data)) = [(1, 10), (3, 20), (2, 20)] ∧ s.freed = [0, 1] ∧
        s.phase = .ended)) = true := by decide +kernel
  obtain ⟨s, hs, hcalls, hfreed, hend⟩ := Runs.ends_in hrun
  have hr : Run step Free (Starts 0 firstTask) s := run_checked (.init firstChain_starts) hs
  exact ⟨s, hcalls, hfreed, (runs_sequentially 0 firstTask s hr).ended.1 hend⟩

/-- Another task is added under the id of the chain's, which is queued: the chain is in the queue no more. -/
theorem overwritten_lost : ¬ ∀ (p : Nat) (t : TaskCell Nat Nat) (s : TaskChain Nat Nat),
    Reachable step (Starts p t) s → Sequential t.work s := by
  intro hall
  have hrun : ((runAll step [.join, .write 7 (some ⟨5, 0, some 4, [], [], 10⟩), .insert 7] firstChain).any fun s =>
      decide (s.phase = .queued 0 ∧ 0 ∉ s.queue)) = true := by decide +kernel
  obtain ⟨s, hs, hphase, hlost⟩ := Runs.ends_in hrun
  exact hlost ((hall 0 firstTask s (reachable_runAll (.init firstChain_starts) hs)).queued 0 hphase)

end TaskChain

end AntHttp
