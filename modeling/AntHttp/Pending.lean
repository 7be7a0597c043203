import AntHttp.Scheduler
import Mathlib.Data.List.Nodup
import Mathlib.Data.List.Perm.Basic
/-!
# Pending tasks of a scheduler used as a library

Threads create tasks and add them while the scheduler's thread deploys. Here
ids come from the default `antd_task_data_id`. A task is named by the number of
its creation; every section behind a lock is a step.
-/

namespace AntHttp

open CString Bst

/-- `antd_task_t`; the number stands for its address. -/
structure LibTask where
  ptr : Nat
  data : Int
  id : Int
  deriving DecidableEq

structure Library where
  sched : Sched LibTask
  /-- The number of tasks created. -/
  made : Nat
  created : List LibTask
  /-- In `antd_scheduler_add_task`, the id settled. -/
  numbered : List LibTask
  /-- Insertions that have not been counted. -/
  counting : Nat
  scheduled : List LibTask
  /-- Deployments that have not been counted. -/
  leaving : Nat
  /-- The insertions done and the deployments started. -/
  inserted : List LibTask
  deployed : List LibTask

namespace Library

def start : Library := ⟨⟨.nil, 0, 0⟩, 0, [], [], 0, [], 0, [], []⟩

/-- `antd_task_data_id` of `scheduler.c`: `(int)(intptr_t)data` -/
def antd_task_data_id (data : Int) : Int := int32 data

def antd_create_task (s : Library) (data : Int) : Library :=
  { s with made := s.made + 1, created := ⟨s.made, data, antd_task_data_id data⟩ :: s.created }

/-- The id under which a task is going to be inserted. -/
def settle (s : Library) (task : LibTask) : Int × Sched LibTask :=
  if task.id = 0 then antd_scheduler_next_id s.sched task.id else (task.id, s.sched)

/-- The first section of `antd_scheduler_add_task`, on the `i`-th created task. -/
def number (s : Library) (i : Nat) : Option Library :=
  s.created[i]?.map fun task =>
    { s with
      sched := (s.settle task).2, created := s.created.eraseIdx i
      numbered := { task with id := (s.settle task).1 } :: s.numbered }

/-- The second section: the task joins the queue. -/
def insert (s : Library) (i : Nat) : Option Library :=
  s.numbered[i]?.map fun task =>
    { s with
      sched := s.sched.insert task.id task, numbered := s.numbered.eraseIdx i, counting := s.counting + 1
      inserted := task :: s.inserted }

/-- The third section: the task is counted. -/
def count (s : Library) : Option Library :=
  if s.counting = 0 then none else some { s with sched := s.sched.pend 1, counting := s.counting - 1 }

/-- The scheduler's thread chooses tasks of the queue, at the start of a round. -/
def collect (s : Library) (due : LibTask → Bool) : Option Library :=
  if s.scheduled = [] ∧ s.leaving = 0 then
    some { s with scheduled := ((toList s.sched.task_queue).map Prod.snd).filter due }
  else none

/-- `antd_deploy_task` deletes the id of the next chosen task. -/
def antd_deploy_task (s : Library) : Option Library :=
  match s.scheduled with
  | task :: rest =>
    if s.leaving = 0 then
      some { s with
        sched := s.sched.delete task.id, scheduled := rest, leaving := 1, deployed := task :: s.deployed }
    else none
  | [] => none

/-- `antd_task_schedule` counts the deployed task out. -/
def antd_task_schedule (s : Library) : Option Library :=
  if s.leaving = 0 then none else some { s with sched := s.sched.pend (-1), leaving := s.leaving - 1 }

inductive Action where
  | create (data : Int)
  | number (i : Nat)
  | insert (i : Nat)
  | count
  | collect (due : LibTask → Bool)
  | deploy
  | schedule

def step : Action → Library → Option Library
  | .create data, s => some (s.antd_create_task data)
  | .number i, s => s.number i
  | .insert i, s => s.insert i
  | .count, s => s.count
  | .collect due, s => s.collect due
  | .deploy, s => s.antd_deploy_task
  | .schedule, s => s.antd_task_schedule

/-! ## What should hold -/

def queued (s : Library) : List LibTask := (toList s.sched.task_queue).map Prod.snd

/-- Inserted, and not on its way out. -/
def pending (s : Library) : List LibTask := s.inserted.filter (· ∉ s.deployed)

/-- Every pending task is in the queue, a deployment takes out the task it
deploys and no other, and between calls the tasks are counted. -/
structure Kept (s : Library) : Prop where
  queued : ∀ t ∈ s.pending, t ∈ s.queued
  deploy : ∀ t rest s', s.scheduled = t :: rest → s.antd_deploy_task = some s' → ∀ u ∈ s.queued, u ∈ s'.queued ∨ u = t
  counted : s.numbered = [] → s.counting = 0 → s.leaving = 0 → s.sched.pending_task = s.pending.length

/-- A task is inserted under an id that is free. -/
def Free : Action → Library → Prop
  | .insert i, s => ∀ t ∈ s.numbered[i]?, bst_find s.sched.task_queue t.id = none
  | _, _ => True

/-! ## The invariant -/

structure Inv (s : Library) : Prop where
  keyed : Keyed (·.id) s.sched.task_queue
  /-- The inserted tasks are the queued ones and the deployed ones. -/
  split : (s.queued ++ s.deployed).Perm s.inserted
  fresh : ((s.created ++ s.numbered ++ s.inserted).map (·.ptr)).Nodup
  known : ∀ t ∈ s.created ++ s.numbered ++ s.inserted, t.ptr < s.made
  scheduled : Chosen (·.id) s.sched.task_queue s.scheduled
  counted : s.sched.pending_task + s.counting = s.queued.length + s.leaving

variable {s s' : Library}

theorem inv_start : Inv start where
  keyed := .nil _
  split := List.Perm.refl _
  fresh := List.nodup_nil
  known := nofun
  scheduled := ⟨List.nodup_nil, nofun⟩
  counted := rfl

theorem inv_create (h : Inv s) (data : Int) : Inv (s.antd_create_task data) where
  keyed := h.keyed
  split := h.split
  fresh := by
    refine List.nodup_cons.2 ⟨fun hm => ?_, h.fresh⟩
    obtain ⟨t, ht, he⟩ := List.mem_map.1 hm
    exact (h.known t ht).ne he
  known := List.forall_mem_cons.2 ⟨Nat.lt_succ_self _, fun t ht => (h.known t ht).trans (Nat.lt_succ_self _)⟩
  scheduled := h.scheduled
  counted := h.counted

/-- The tasks keep their addresses, in whatever order they are listed. -/
theorem Inv.relist (h : Inv s) (created numbered inserted : List LibTask)
    (hp : ((created ++ numbered ++ inserted).map (·.ptr)).Perm ((s.created ++ s.numbered ++ s.inserted).map (·.ptr))) :
    ((created ++ numbered ++ inserted).map (·.ptr)).Nodup ∧ ∀ t ∈ created ++ numbered ++ inserted, t.ptr < s.made := by
  refine ⟨hp.nodup_iff.2 h.fresh, fun t ht => ?_⟩
  obtain ⟨u, hu, he⟩ := List.mem_map.1 (hp.mem_iff.1 (List.mem_map_of_mem ht))
  exact he ▸ h.known u hu

theorem settle_sched (s : Library) (t : LibTask) :
    (s.settle t).2.task_queue = s.sched.task_queue ∧ (s.settle t).2.pending_task = s.sched.pending_task := by
  unfold settle
  split <;> exact ⟨rfl, rfl⟩

theorem inv_number {i : Nat} (h : Inv s) (hs : s.number i = some s') : Inv s' := by
  obtain ⟨t, ht, rfl⟩ := Option.map_eq_some_iff.1 hs
  obtain ⟨hlt, hget⟩ := List.getElem?_eq_some_iff.1 ht
  obtain ⟨hq, hp⟩ := settle_sched s t
  have hperm : s.created.Perm (t :: s.created.eraseIdx i) := by
    rw [← hget]; exact (List.getElem_cons_eraseIdx_perm hlt).symm
  have hlist := h.relist (s.created.eraseIdx i) ({ t with id := (s.settle t).1 } :: s.numbered) s.inserted (by
      simp only [List.map_append, List.map_cons]
      refine List.Perm.append_right _ (List.perm_middle.trans ?_)
      exact ((hperm.map (·.ptr)).symm).append_right _)
  refine ⟨?_, ?_, hlist.1, hlist.2, ?_, ?_⟩
  · rw [hq]; exact h.keyed
  · simp only [queued, hq]; exact h.split
  · rw [hq]; exact h.scheduled
  · simp only [queued, hq, hp]; exact h.counted

theorem inv_insert {i : Nat} (h : Inv s) (hf : Free (.insert i) s) (hs : s.insert i = some s') : Inv s' := by
  obtain ⟨t, ht, rfl⟩ := Option.map_eq_some_iff.1 hs
  obtain ⟨hlt, hget⟩ := List.getElem?_eq_some_iff.1 ht
  have hfree : bst_find s.sched.task_queue t.id = none := hf t ht
  have hperm : s.numbered.Perm (t :: s.numbered.eraseIdx i) := by
    rw [← hget]; exact (List.getElem_cons_eraseIdx_perm hlt).symm
  have hnew := (insert_perm h.keyed.ordered t hfree).map Prod.snd
  have hlist := h.relist s.created (s.numbered.eraseIdx i) (t :: s.inserted) (by
    simp only [List.map_append, List.map_cons]
    refine List.perm_middle.trans ?_
    exact (List.perm_middle.symm.trans ((hperm.map (·.ptr)).symm.append_left _)).append_right _)
  refine ⟨h.keyed.insert t, ?_, hlist.1, hlist.2, h.scheduled.insert h.keyed.ordered hfree t, ?_⟩
  · exact (hnew.append_right _).trans (h.split.cons t)
  · have hlen := hnew.length_eq
    have hc := h.counted
    simp only [queued, List.map_cons, List.length_cons, Sched.insert] at hlen hc ⊢
    omega

theorem inv_count (h : Inv s) (hs : s.count = some s') : Inv s' := by
  unfold count at hs
  split at hs
  · cases hs
  · cases hs
    refine ⟨h.keyed, h.split, h.fresh, h.known, h.scheduled, ?_⟩
    have hc := h.counted
    simp only [queued, Sched.pend] at hc ⊢
    omega

theorem inv_collect {due : LibTask → Bool} (h : Inv s) (hs : s.collect due = some s') : Inv s' := by
  unfold collect at hs
  split at hs
  · cases hs
    refine ⟨h.keyed, h.split, h.fresh, h.known, ⟨?_, fun t ht => ?_⟩, h.counted⟩
    · exact h.keyed.nodup.sublist ((List.filter_sublist).map _)
    · exact h.keyed.find (List.mem_of_mem_filter ht)
  · cases hs

/-- A deployment takes its task out of the queue. -/
theorem deploy_perm {t : LibTask} {rest : List LibTask} (h : Inv s) (hr : s.scheduled = t :: rest) :
    s.queued.Perm (t :: (toList (bst_delete s.sched.task_queue t.id)).map Prod.snd) := by
  have hsch := h.scheduled
  rw [hr] at hsch
  exact (delete_perm h.keyed.ordered (hsch.found t List.mem_cons_self)).map Prod.snd

theorem inv_deploy (h : Inv s) (hs : s.antd_deploy_task = some s') : Inv s' := by
  unfold antd_deploy_task at hs
  split at hs
  · rename_i t rest hr
    split at hs
    · cases hs
      have hsch := h.scheduled
      rw [hr] at hsch
      have hperm := deploy_perm h hr
      refine ⟨h.keyed.delete t.id, ?_, h.fresh, h.known, hsch.delete h.keyed.ordered, ?_⟩
      · refine List.perm_middle.trans (List.Perm.trans ?_ h.split)
        exact (hperm.symm).append_right _
      · have hlen := hperm.length_eq
        have hc := h.counted
        simp only [queued, List.length_cons, Sched.delete] at hlen hc ⊢
        omega
    · cases hs
  · cases hs

theorem inv_schedule (h : Inv s) (hs : s.antd_task_schedule = some s') : Inv s' := by
  unfold antd_task_schedule at hs
  split at hs
  · cases hs
  · cases hs
    refine ⟨h.keyed, h.split, h.fresh, h.known, h.scheduled, ?_⟩
    have hc := h.counted
    simp only [queued, Sched.pend] at hc ⊢
    omega

theorem inv_step {a : Action} (h : Inv s) (ha : Free a s) (hs : step a s = some s') : Inv s' := by
  cases a with
  | create data => cases hs; exact inv_create h data
  | number i => exact inv_number h hs
  | insert i => exact inv_insert h ha hs
  | count => exact inv_count h hs
  | collect due => exact inv_collect h hs
  | deploy => exact inv_deploy h hs
  | schedule => exact inv_schedule h hs

/-! ## Every run -/

/-- The pending tasks are the queued ones. -/
theorem Inv.pending_perm (h : Inv s) : s.queued.Perm s.pending := by
  have hnodup : (s.queued ++ s.deployed).Nodup := by
    refine h.split.nodup_iff.2 (List.Nodup.of_map (·.ptr) ?_)
    exact (List.nodup_append.1 (List.map_append ▸ h.fresh)).2.1
  obtain ⟨-, -, hdis⟩ := List.nodup_append.1 hnodup
  have hperm := h.split.filter (· ∉ s.deployed)
  rw [List.filter_append, List.filter_eq_self.2 fun t ht => by simpa using fun hd => hdis t ht t hd rfl,
    List.filter_eq_nil_iff.2 fun t ht => by simpa using ht, List.append_nil] at hperm
  exact hperm

theorem Inv.kept (h : Inv s) : Kept s where
  queued t ht := h.pending_perm.mem_iff.2 ht
  deploy t rest s' hr hs u hu := by
    unfold antd_deploy_task at hs
    rw [hr] at hs
    simp only at hs
    split at hs
    · cases hs
      rcases List.mem_cons.1 ((deploy_perm h hr).mem_iff.1 hu) with he | hu
      · exact .inr he
      · exact .inl hu
    · cases hs
  counted hn hc hl := by
    have := h.counted
    rw [← h.pending_perm.length_eq]
    omega

/-- As long as every insertion finds its id free, no pending task is lost. -/
theorem kept_of_free (hs : Runs.Run step Free (· = start) s) : Kept s :=
  (hs.inv Inv (by rintro _ rfl; exact inv_start) fun _ _ _ hi ha hs => inv_step hi ha hs).kept

/-- Two tasks for different data. -/
theorem kept_of_free_two : ∃ s, s.pending.length = 2 ∧ Kept s := by
  have h0 : Runs.Run step Free (· = start) start := .init rfl
  have h1 := h0.step (i := Action.create 8) trivial rfl
  have h2 := h1.step (i := Action.create 16) trivial rfl
  have h3 := h2.step (i := Action.number 0) trivial rfl
  have h4 := h3.step (i := Action.insert 0) (by rintro t ⟨⟩; rfl) rfl
  have h5 := h4.step (i := Action.number 0) trivial rfl
  have h6 := h5.step (i := Action.insert 0) (by rintro t ⟨⟩; rfl) rfl
  exact ⟨_, rfl, kept_of_free h6⟩

/-- Two tasks are created for the same data, and the second insertion takes the
place of the first. -/
theorem kept_fails : ¬ ∀ s, Runs.Reachable step (· = start) s → Kept s := by
  intro hall
  have hrun : ((Runs.runAll step [.create 8, .create 8, .number 0, .insert 0, .number 0, .insert 0] start).any fun s =>
      s.pending.any (· ∉ s.queued)) = true := by decide
  obtain ⟨s, hs, hp⟩ := (Option.any_eq_true ..).1 hrun
  obtain ⟨t, ht, hq⟩ := List.any_eq_true.1 hp
  exact of_decide_eq_true hq ((hall s (Runs.reachable_runAll (.init rfl) hs)).queued t ht)

end Library

end AntHttp
