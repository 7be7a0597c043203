import AntHttp.Scheduler
/-!
# The scheduler's threads and task objects (`lib/scheduler.c`)

`Scheduler.lean` runs the server with each thread's section as one step and
names a task by its id. Here a task is a pointer to an object on the heap, and
every section behind a mutex, every semaphore operation and every test of a
shared variable is a step of its own, for any number of workers and of other
threads that add tasks. What a handler does is given with each step.
-/

namespace AntHttp

open Bst

/-! ## Task objects -/

/-- `antd_task_t`: `H` are pointers to functions, `D` pointers to the data. A
callback always has a function, as `callback_of` makes none of NULL. -/
structure TaskCell (H D : Type) where
  id : Int
  access_time : Int
  handle : Option H
  callback : List H
  events : List TaskEvent
  data : D

/-- What a task object goes on as: its handle comes first, then its callbacks. -/
def TaskCell.next {H D : Type} (t : TaskCell H D) : Option (TaskCell H D) :=
  match t.handle, t.callback with
  | some _, _ => some t
  | none, cb :: rest => some { t with handle := some cb, callback := rest }
  | none, [] => none

/-- The heap, as far as it holds tasks. -/
abbrev Cells (H D : Type) := Nat → Option (TaskCell H D)

namespace Cells

variable {H D : Type}

/-- The task with its callbacks and events is freed. -/
def destroy_task (m : Cells H D) (task : Nat) : Cells H D := Function.update m task none

/-- The list `cb` is not empty where this is called. -/
def enqueue_callback (cb el : List H) : List H := if cb.isEmpty then cb else cb ++ el

/-- The task goes on as its first callback and is to be added again, or it is destroyed. -/
def execute_callback (m : Cells H D) (task : Nat) : Option (Cells H D × Option Nat) :=
  (m task).map fun t =>
    match t.callback with
    | cb :: rest => (Function.update m task (some { t with handle := some cb, callback := rest }), some task)
    | [] => (m.destroy_task task, none)

/-- `rtask->callback` with the callbacks of the task that has returned it. -/
def spliced (rtask task : TaskCell H D) : TaskCell H D :=
  if task.callback.isEmpty then rtask
  else if rtask.callback.isEmpty then { rtask with callback := task.callback }
  else { rtask with callback := enqueue_callback rtask.callback task.callback }

/-- What `antd_execute_task` does once the handler of `task` has returned `ret`:
the task that is to be added, and the one that is destroyed after that. -/
def antd_execute_task (m : Cells H D) (task : Nat) : Option Nat → Option (Cells H D × Option Nat × Option Nat)
  | none => (m.execute_callback task).map fun r => (r.1, r.2, none)
  | some rtask =>
    match m task, m rtask with
    | some t, some r =>
      let m := Function.update (Function.update m rtask (some (spliced r t))) task (some { t with callback := [] })
      if r.handle.isNone then (execute_callback m rtask).map fun r => (r.1, r.2, some task)
      else some (m, some rtask, some task)
    | _, _ => none

theorem spliced_eq (r t : TaskCell H D) : spliced r t = { r with callback := r.callback ++ t.callback } := by
  obtain ⟨_, _, _, callback, _, _⟩ := r
  unfold spliced enqueue_callback
  cases ht : t.callback with
  | nil => simp
  | cons => cases callback <;> simp

theorem execute_callback_eq {m : Cells H D} {task : Nat} {t : TaskCell H D} (ht : m task = some t) :
    m.execute_callback task = some (Function.update m task { t with handle := none }.next,
      { t with handle := none }.next.map fun _ => task) := by
  unfold execute_callback TaskCell.next destroy_task
  cases hc : t.callback <;> simp [ht, hc]

theorem antd_execute_task_none {m : Cells H D} {task : Nat} {t : TaskCell H D} (ht : m task = some t) :
    m.antd_execute_task task none = some (Function.update m task { t with handle := none }.next,
      { t with handle := none }.next.map fun _ => task, none) := by
  rw [antd_execute_task, execute_callback_eq ht]
  rfl

theorem antd_execute_task_some {m : Cells H D} {task p : Nat} {t r : TaskCell H D} (hne : p ≠ task)
    (ht : m task = some t) (hr : m p = some r) :
    m.antd_execute_task task (some p) = some
      (Function.update (Function.update m task (some { t with callback := [] })) p
        { r with callback := r.callback ++ t.callback }.next,
        { r with callback := r.callback ++ t.callback }.next.map fun _ => p, some task) := by
  simp only [antd_execute_task, ht, hr, spliced_eq]
  rw [Function.update_comm hne]
  cases hh : r.handle with
  | some h => simp [TaskCell.next]
  | none =>
    rw [execute_callback_eq (Function.update_self ..)]
    simp [← hh]

end Cells

/-! ## Semaphores -/

def SEM_VALUE_MAX : Nat := 2147483647

/-- At the largest value it fails and leaves the semaphore as it is. -/
def sem_post (value : Nat) : Nat := if value < SEM_VALUE_MAX then value + 1 else value

/-- It blocks at 0, unless a signal interrupts it. -/
def sem_wait (value : Nat) (interrupted : Bool) : Option Nat :=
  if interrupted then some value else if 0 < value then some (value - 1) else none

/-! ## Where a thread is -/

/-- In `antd_scheduler_add_task`. -/
inductive Adding where
  | next_id (task : Nat)
  | insert (task : Nat)
  | pend
  | post
  deriving DecidableEq

/-- In `antd_execute_task`. -/
inductive Executing where
  /-- About to call the handler. -/
  | enter (task : Nat)
  /-- The handler runs; it may add tasks of its own. -/
  | handler (task : Nat) (own : Option Adding)
  | add (a : Adding) (old : Option Nat)
  | destroy (task : Nat)
  deriving DecidableEq

/-- In `work`. -/
inductive Working where
  | check
  | dequeue
  | wait
  | execute (e : Executing)
  | exited
  deriving DecidableEq

/-- In `antd_scheduler_wait`, with the tasks of the round that are still to be deployed. -/
inductive Scheduling where
  | check
  | collect
  | poll (scheduled_list : Node Nat) (poll_list : List (TaskEvent × Nat))
  | deploy (rest : List Nat)
  /-- `antd_task_schedule` -/
  | pend (task : Nat) (rest : List Nat)
  | validate (task : Nat) (rest : List Nat)
  | enqueue (task : Nat) (rest : List Nat)
  | post (rest : List Nat)
  | execute (e : Executing) (rest : List Nat)
  | idle
  | wait
  | exited

/-- In `stop`, up to the threads being joined: `left` posts of `worker_sem` are still to come. -/
inductive Stopping where
  | running
  | posting (left : Nat)
  | joining
  deriving DecidableEq

/-- What a thread that is not in the scheduler's code does next. -/
inductive Call (H D : Type) where
  /-- `antd_task_data_id` asks for an id. -/
  | allocate (input : Int)
  /-- A task at a new address is added. -/
  | add (task : Nat) (cell : TaskCell H D)
  /-- The handler returns, with a task at a new address or with NULL. -/
  | ret (rtask : Option (Nat × TaskCell H D))

structure Threads (n_workers : Int32) (H D : Type) where
  cells : Cells H D
  sched : Sched Nat
  workers_queue : List Nat
  scheduler_sem : Nat
  worker_sem : Nat
  status : Bool
  workers : Fin n_workers.toInt.toNat → Working
  scheduler : Scheduling
  /-- The threads that are not the scheduler's own. -/
  others : Nat → Option Adding
  stop : Stopping

namespace Threads

variable {n_workers : Int32} {H D : Type}

/-- `antd_scheduler_init`: `sem_open` finds the semaphores of an earlier process, if they are left. -/
def antd_scheduler_init (n_workers : Int32) (H D : Type) (scheduler_sem worker_sem : Nat) : Threads n_workers H D where
  cells := fun _ => none
  sched := ⟨.nil, 0, 0⟩
  workers_queue := []
  scheduler_sem := scheduler_sem
  worker_sem := worker_sem
  status := true
  workers := fun _ => .check
  scheduler := .check
  others := fun _ => none
  stop := .running

/-! ## Adding and executing -/

/-- The next step of `antd_scheduler_add_task`, and where it leaves the thread. -/
def antd_scheduler_add_task (s : Threads n_workers H D) : Adding → Option (Threads n_workers H D × Option Adding)
  | .next_id task => (s.cells task).map fun t =>
    if t.id = 0 then
      let r := antd_scheduler_next_id s.sched t.id
      ({ s with sched := r.2, cells := Function.update s.cells task (some { t with id := r.1 }) }, some (.insert task))
    else (s, some (.insert task))
  | .insert task => (s.cells task).map fun t => ({ s with sched := s.sched.insert t.id task }, some .pend)
  | .pend => some ({ s with sched := s.sched.pend 1 }, some .post)
  | .post => some ({ s with scheduler_sem := sem_post s.scheduler_sem }, none)

/-- A task object is made at an address that is free. -/
def malloc (s : Threads n_workers H D) (task : Nat) (cell : TaskCell H D) : Option (Threads n_workers H D) :=
  if (s.cells task).isSome then none else some { s with cells := Function.update s.cells task (some cell) }

/-- The thread adds a task if there is one to add, and destroys the old one after that. -/
def afterReturn (next old : Option Nat) : Option Executing :=
  match next with
  | some next => some (.add (.next_id next) old)
  | none => old.map .destroy

/-- The handler of `task` has returned. -/
def returned (s : Threads n_workers H D) (task : Nat) (ret : Option Nat) :
    Option (Threads n_workers H D × Option Executing) :=
  (s.cells.antd_execute_task task ret).map fun r => ({ s with cells := r.1 }, afterReturn r.2.1 r.2.2)

/-- The next step of `antd_execute_task`, and where it leaves the thread. -/
def antd_execute_task (s : Threads n_workers H D) (call : Call H D) :
    Executing → Option (Threads n_workers H D × Option Executing)
  | .enter task => ((s.cells task).bind (·.handle)).map fun _ => (s, some (.handler task none))
  | .handler task (some a) => (s.antd_scheduler_add_task a).map fun r => (r.1, some (.handler task r.2))
  | .handler task none =>
    match call with
    | .allocate input => some ({ s with sched := (antd_scheduler_next_id s.sched input).2 }, some (.handler task none))
    | .add p cell => (s.malloc p cell).map fun s => (s, some (.handler task (some (.next_id p))))
    | .ret none => s.returned task none
    | .ret (some (p, cell)) => (s.malloc p cell).bind fun s => s.returned task (some p)
  | .add a old => (s.antd_scheduler_add_task a).map fun r =>
    (r.1, match r.2 with
      | some a => some (.add a old)
      | none => old.map .destroy)
  | .destroy task => some ({ s with cells := s.cells.destroy_task task }, none)

/-! ## The workers -/

/-- The next step of `work`. -/
def work (s : Threads n_workers H D) (interrupted : Bool) (call : Call H D) : Working → Option (Threads n_workers H D × Working)
  | .check => some (s, if s.status then .dequeue else .exited)
  | .dequeue =>
    match s.workers_queue with
    | [] => some (s, .wait)
    | task :: rest => some ({ s with workers_queue := rest }, .execute (.enter task))
  | .wait => (sem_wait s.worker_sem interrupted).map fun v => ({ s with worker_sem := v }, .check)
  | .execute e => (s.antd_execute_task call e).map fun r =>
    (r.1, match r.2 with
      | some e => .execute e
      | none => .check)
  | .exited => none

/-! ## The scheduler's thread -/

/-- `antd_scheduler_validate_data` of `httpd.c` -/
def antd_scheduler_validate_data (scheduler_timeout now : Int) (task : TaskCell H D) : Bool :=
  !decide (now - task.access_time > scheduler_timeout)

/-- One task of the queue: it is scheduled, or its events are to be polled. -/
def task_event_collect (m : Cells H D) (valid : TaskCell H D → Bool) (elapsed : TaskEvent → Bool)
    (acc : Node Nat × List (TaskEvent × Nat)) (task : Nat) : Node Nat × List (TaskEvent × Nat) :=
  match m task with
  | none => acc
  | some t =>
    if t.events = [] then (bst_insert acc.1 t.id task, acc.2)
    else t.events.foldl (fun acc evt =>
      if evt.always_on || !valid t then (bst_insert acc.1 t.id task, acc.2)
      else if evt.on_timeout then (if elapsed evt then (bst_insert acc.1 t.id task, acc.2) else acc)
      else (acc.1, acc.2 ++ [(evt, task)])) acc

/-- What `poll` says of one event: its task is scheduled, or made invalid first. -/
def pollEvent (s : Threads n_workers H D) (scheduled_list : Node Nat) (evt : TaskEvent) (task : Nat) (t : TaskCell H D)
    (revents : Poll) : Threads n_workers H D × Node Nat :=
  match revents with
  | .ready pollin pollout pollerr pollhup _ _ =>
    if (evt.readable && pollin) || (evt.writable && pollout) then
      (s, if (bst_find s.sched.task_queue t.id).isSome then bst_insert scheduled_list t.id task else scheduled_list)
    else if pollerr || pollhup then
      ({ s with cells := Function.update s.cells task (some { t with access_time := 0, handle := none }) },
        bst_insert scheduled_list t.id task)
    else (s, scheduled_list)
  | _ => (s, scheduled_list)

/-- What a step of the scheduler's thread meets. -/
structure Meets (H D : Type) where
  /-- `time`, where it is read for the task at an address. -/
  now : Nat → Int
  elapsed : TaskEvent → Bool
  revents : Poll
  interrupted : Bool
  call : Call H D

/-- The next step of `antd_scheduler_wait` and the functions it calls. -/
def antd_scheduler_wait (scheduler_timeout : Int) (s : Threads n_workers H D) (w : Meets H D) :
    Scheduling → Option (Threads n_workers H D × Scheduling)
  | .check => some (s, if s.status then .collect else .exited)
  | .collect =>
    let valid (task : Nat) (t : TaskCell H D) := antd_scheduler_validate_data scheduler_timeout (w.now task) t
    let r := ((toList s.sched.task_queue).map Prod.snd).foldl
      (fun acc task => task_event_collect s.cells (valid task) w.elapsed acc task) (.nil, [])
    some (s, .poll r.1 r.2)
  | .poll scheduled_list [] => some (s, .deploy ((toList scheduled_list).map Prod.snd))
  | .poll scheduled_list ((evt, task) :: poll_list) => (s.cells task).map fun t =>
    let r := s.pollEvent scheduled_list evt task t w.revents
    (r.1, .poll r.2 poll_list)
  | .deploy [] => some (s, .idle)
  | .deploy (task :: rest) => (s.cells task).map fun t => ({ s with sched := s.sched.delete t.id }, .pend task rest)
  | .pend task rest => some ({ s with sched := s.sched.pend (-1) }, .validate task rest)
  | .validate task rest => (s.cells task).map fun t =>
    if antd_scheduler_validate_data scheduler_timeout (w.now task) t = false then
      ({ s with cells := s.cells.destroy_task task }, .deploy rest)
    else if n_workers.toInt ≤ 0 then (s, .execute (.enter task) rest)
    else (s, .enqueue task rest)
  | .enqueue task rest => some ({ s with workers_queue := s.workers_queue ++ [task] }, .post rest)
  | .post rest => some ({ s with worker_sem := sem_post s.worker_sem }, .deploy rest)
  | .execute e rest => (s.antd_execute_task w.call e).map fun r =>
    (r.1, match r.2 with
      | some e => .execute e rest
      | none => .deploy rest)
  | .idle => some (s, if isNull s.sched.task_queue then .wait else .check)
  | .wait => (sem_wait s.scheduler_sem w.interrupted).map fun v => ({ s with scheduler_sem := v }, .check)
  | .exited => none

/-! ## The other threads -/

/-- A thread of the program adds a task, as `antd_monitor` of `httpd.c` does. -/
def other (s : Threads n_workers H D) (call : Call H D) : Option Adding → Option (Threads n_workers H D × Option Adding)
  | some a => s.antd_scheduler_add_task a
  | none =>
    match call with
    | .allocate input => some ({ s with sched := (antd_scheduler_next_id s.sched input).2 }, none)
    | .add p cell => (s.malloc p cell).map fun s => (s, some (.next_id p))
    | .ret _ => none

/-- The next step of `stop`. -/
def stopNext (s : Threads n_workers H D) : Option (Threads n_workers H D) :=
  match s.stop with
  | .running => some { s with status := false, stop := .posting n_workers.toInt.toNat }
  | .posting (left + 1) => some { s with worker_sem := sem_post s.worker_sem, stop := .posting left }
  | .posting 0 => some { s with scheduler_sem := sem_post s.scheduler_sem, stop := .joining }
  | .joining => none

/-! ## Steps -/

inductive Action (n_workers : Int32) (H D : Type) where
  | worker (i : Fin n_workers.toInt.toNat) (interrupted : Bool) (call : Call H D)
  | scheduler (w : Meets H D)
  | other (i : Nat) (call : Call H D)
  | stop

def step (scheduler_timeout : Int) (a : Action n_workers H D) (s : Threads n_workers H D) : Option (Threads n_workers H D) :=
  match a with
  | .worker i interrupted call => (s.work interrupted call (s.workers i)).map fun r =>
    { r.1 with workers := Function.update s.workers i r.2 }
  | .scheduler w => (s.antd_scheduler_wait scheduler_timeout w s.scheduler).map fun r => { r.1 with scheduler := r.2 }
  | .other i call => (s.other call (s.others i)).map fun r => { r.1 with others := Function.update s.others i r.2 }
  | .stop => s.stopNext

end Threads

end AntHttp
