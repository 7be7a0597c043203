import AntHttp.Bst
import AntHttp.Pipeline
/-!
# The scheduler (`lib/scheduler.c`) and the server it runs (`httpd.c`)

Every atomic section of a thread is a step: the main thread accepts a
connection and queues its task; the scheduler's thread collects the tasks of
the queue, polls their descriptors and deploys the tasks that are due; a worker
takes a deployed task, runs its handler, passes the callbacks on and queues the
task that follows. The steps of different threads come in any order.

A request is named by a number that is never used again, as a pointer to it
would be until it is freed.
-/

namespace AntHttp

open CString Bst

/-! ## The queue of pending tasks -/

/-- The part of `antd_scheduler_t` behind `scheduler_lock` and `pending_lock`. -/
structure Sched (α : Type) where
  task_queue : Node α
  id_allocator : Int
  pending_task : Int

/-- The loop of `antd_scheduler_next_id`: the identifier and the allocator. It
looks up each queued identifier twice at most. -/
def nextFree {α : Type} (task_queue : Node α) : Nat → Int → Int → Int × Int
  | 0, id, id_allocator => (id, id_allocator)
  | fuel + 1, id, id_allocator =>
    if (bst_find task_queue id).isSome then
      nextFree task_queue fuel (int32 (id_allocator + 1)) (int32 (id_allocator + 1))
    else (id, id_allocator)

def antd_scheduler_next_id {α : Type} (sched : Sched α) (input : Int) : Int × Sched α :=
  let id_allocator := if sched.id_allocator < 0 then 0 else sched.id_allocator
  let first := if input = 0 then (int32 (id_allocator + 1), int32 (id_allocator + 1)) else (input, id_allocator)
  let r := nextFree sched.task_queue ((toList sched.task_queue).length + 2) first.1 first.2
  (r.1, { sched with id_allocator := r.2 })

/-- The section of `antd_scheduler_add_task` behind `scheduler_lock`. -/
def Sched.insert {α : Type} (sched : Sched α) (id : Int) (task : α) : Sched α :=
  { sched with task_queue := bst_insert sched.task_queue id task }

/-- The section of `antd_deploy_task` behind `scheduler_lock`. -/
def Sched.delete {α : Type} (sched : Sched α) (id : Int) : Sched α :=
  { sched with task_queue := bst_delete sched.task_queue id }

/-- `pending_task++` or `pending_task--` behind `pending_lock`. -/
def Sched.pend {α : Type} (sched : Sched α) (n : Int) : Sched α :=
  { sched with pending_task := sched.pending_task + n }

/-! ## Threads -/

/-- `antd_task_t` with its id and its data, the request. -/
structure OwnedTask extends Task where
  id : Int
  data : Nat

inductive Thread where
  | monitor | scheduler | worker
  deriving DecidableEq

/-- What a thread does with a task. -/
inductive Phase where
  /-- `antd_scheduler_add_task` is about to queue it. -/
  | adding (task : OwnedTask)
  /-- It is out of the queue and on its way through `antd_task_schedule`. -/
  | deploying (task : OwnedTask)
  /-- Its handler runs; `id` is that of the last task the handler has created. -/
  | running (task : OwnedTask) (id : Option Int)
  /-- Its handler has returned, with or without a task. -/
  | returned (task : OwnedTask) (ret : Option OwnedTask)

/-- The task that is responsible for the request. -/
def Phase.owner : Phase → OwnedTask
  | adding task => task
  | deploying task => task
  | running task _ => task
  | returned task ret => ret.getD task

structure Held where
  thread : Thread
  phase : Phase

/-- Where the scheduler's thread is in its loop. A pointer to a queued task is
its id: only this thread takes a task out of the queue. -/
inductive Round where
  | polling (scheduled_list : Node OwnedTask) (poll_list : List (TaskEvent × Int))
  | deploying (scheduled_list : List OwnedTask)

structure Server where
  sched : Sched OwnedTask
  workers_queue : List OwnedTask
  round : Round
  held : List Held
  requests : Nat → Option Request
  /-- The number of requests made so far, and the name of the next one. -/
  accepted : Nat
  /-- A name for each call of `destroy_request`. -/
  destroyed : List Nat
  /-- The backends that `antd_scheduler_destroy_data` has closed. -/
  closed : List (Nat × Int)
  /-- `g_server_config.connection` -/
  connection : Int

namespace Server

def start : Server := ⟨⟨.nil, 0, 0⟩, [], .deploying [], [], fun _ => none, 0, [], [], 0⟩

/-- The tasks that are queued, deployed, running or about to be queued. -/
def owners (s : Server) : List OwnedTask :=
  (toList s.sched.task_queue).map Prod.snd ++ s.workers_queue ++ s.held.map (·.phase.owner)

def isBusy (s : Server) (thread : Thread) : Bool := s.held.any (·.thread = thread)

/-- `antd_task_data_id` of `httpd.c` -/
def antd_task_data_id (s : Server) (data : Nat) : Option (Int × Sched OwnedTask) :=
  (s.requests data).map fun rq => antd_scheduler_next_id s.sched rq.client.sock

/-- `finish_request` -/
def finish_request (s : Server) (data : Nat) : Server :=
  { s with
    requests := Function.update s.requests data none, destroyed := data :: s.destroyed
    connection := s.connection - 1 }

def antd_scheduler_validate_data (cnf : Config) (now : Int) (task : OwnedTask) : Bool :=
  !decide (now - task.access_time > cnf.scheduler_timeout)

def antd_scheduler_destroy_data (s : Server) (data : Nat) : Server :=
  let proxy := (s.requests data).bind (·.PROXY_HANDLE)
  finish_request { s with closed := s.closed ++ (proxy.map fun p => (data, p.sock)).toList } data

/-! ## The main thread -/

/-- A connection is accepted and given a task, unless its SSL object cannot be made. -/
def antd_monitor (s : Server) (pcnf : PortConfig) (client_sock : Int) (now : Int) (input : List RecvEv)
    (output : List SendEv) (ssl : Bool) : Option Server :=
  if client_sock ≤ 0 ∨ s.isBusy .monitor then none
  else
    let c := AntHttp.antd_monitor pcnf client_sock now input output
    let s' := { s with requests := Function.update s.requests s.accepted (some c.rq), accepted := s.accepted + 1 }
    if pcnf.usessl && !ssl then some (s'.finish_request s.accepted)
    else
      let r := antd_scheduler_next_id s.sched client_sock
      some { s' with
        sched := r.2, connection := s.connection + 1
        held := ⟨.monitor, .adding ⟨c.task, r.1, s.accepted⟩⟩ :: s.held }

/-! ## The scheduler's thread -/

/-- One task of the queue: it is scheduled, or its events are to be polled. -/
def task_event_collect (valid : OwnedTask → Bool) (elapsed : TaskEvent → Bool)
    (acc : Node OwnedTask × List (TaskEvent × Int)) (task : OwnedTask) : Node OwnedTask × List (TaskEvent × Int) :=
  if task.events = [] then (bst_insert acc.1 task.id task, acc.2)
  else task.events.foldl (fun acc evt =>
    if evt.always_on || !valid task then (bst_insert acc.1 task.id task, acc.2)
    else if evt.on_timeout then (if elapsed evt then (bst_insert acc.1 task.id task, acc.2) else acc)
    else (acc.1, acc.2 ++ [(evt, task.id)])) acc

/-- The first half of a round: `time` is read for each task. -/
def collect (s : Server) (cnf : Config) (now : Int → Int) (elapsed : TaskEvent → Bool) : Option Server :=
  match s.round with
  | .deploying [] =>
    if s.isBusy .scheduler then none
    else
      let valid (task : OwnedTask) := antd_scheduler_validate_data cnf (now task.id) task
      let r := ((toList s.sched.task_queue).map Prod.snd).foldl (task_event_collect valid elapsed) (.nil, [])
      some { s with round := .polling r.1 r.2 }
  | _ => none

/-- What `poll` says of one event: its task is scheduled, or made invalid first. -/
def pollEvent (acc : Node OwnedTask × Node OwnedTask) (p : (TaskEvent × Int) × Poll) :
    Node OwnedTask × Node OwnedTask :=
  match bst_find acc.1 p.1.2, p.2 with
  | some task, .ready pollin pollout pollerr pollhup _ _ =>
    if (p.1.1.readable && pollin) || (p.1.1.writable && pollout) then (acc.1, bst_insert acc.2 task.id task)
    else if pollerr || pollhup then
      let task := { task with access_time := 0, handle := none }
      (bst_insert acc.1 task.id task, bst_insert acc.2 task.id task)
    else acc
  | _, _ => acc

/-- The second half: the events with what `poll` says of each. -/
def poll (s : Server) (revents : List Poll) : Option Server :=
  match s.round with
  | .polling scheduled_list poll_list =>
    let r := (poll_list.zip revents).foldl pollEvent (s.sched.task_queue, scheduled_list)
    some { s with sched.task_queue := r.1, round := .deploying ((toList r.2).map Prod.snd) }
  | .deploying _ => none

/-- The next scheduled task leaves the queue. -/
def antd_deploy_task (s : Server) : Option Server :=
  match s.round with
  | .deploying (task :: rest) =>
    if s.isBusy .scheduler then none
    else some { s with
      sched := s.sched.delete task.id, round := .deploying rest
      held := ⟨.scheduler, .deploying task⟩ :: s.held }
  | _ => none

/-! ## What a thread does with the task it holds -/

/-- The deployed task is killed, run by the scheduler's thread itself or given to the workers. -/
def antd_task_schedule (s : Server) (cnf : Config) (now : Int) (thread : Thread) (task : OwnedTask) : Server :=
  let s := { s with sched := s.sched.pend (-1) }
  if antd_scheduler_validate_data cnf now task = false then s.antd_scheduler_destroy_data task.data
  else if cnf.n_workers ≤ 0 then { s with held := ⟨thread, .running task none⟩ :: s.held }
  else { s with workers_queue := s.workers_queue ++ [task] }

/-- The handler creates a task for its request. -/
def antd_create_task (s : Server) (thread : Thread) (task : OwnedTask) : Option Server :=
  (s.antd_task_data_id task.data).map fun r =>
    { s with sched := r.2, held := ⟨thread, .running task (some r.1)⟩ :: s.held }

/-- The handler does its work and returns; the task it returns is the last one it has created. -/
def handle (s : Server) (cnf : Config) (sys : Sys) (thread : Thread) (task : OwnedTask) (id : Option Int) :
    Option Server :=
  match task.handle with
  | none => none
  | some .finish_request =>
    let s := s.finish_request task.data
    some { s with held := ⟨thread, .returned task none⟩ :: s.held }
  | some h =>
    match (s.requests task.data).map (callHandler sys cnf · h), id with
    | some (.ok (none, some rq)), _ =>
      some { s with
        requests := Function.update s.requests task.data (some rq)
        held := ⟨thread, .returned task none⟩ :: s.held }
    | some (.ok (some rtask, some rq)), some id =>
      some { s with
        requests := Function.update s.requests task.data (some rq)
        held := ⟨thread, .returned task (some ⟨rtask, id, task.data⟩)⟩ :: s.held }
    | _, _ => none

/-- The task that `antd_execute_task` goes on with, if it does not destroy the last one. -/
def antd_execute_task (s : Server) (thread : Thread) (task : OwnedTask) (ret : Option OwnedTask) : Server :=
  match AntHttp.antd_execute_task task.toTask (ret.map (·.toTask)) with
  | some next =>
    { s with held := ⟨thread, .adding ⟨next, (ret.getD task).id, (ret.getD task).data⟩⟩ :: s.held }
  | none => s

def antd_scheduler_add_task (s : Server) (task : OwnedTask) : Server :=
  let r := if task.id = 0 then antd_scheduler_next_id s.sched 0 else (task.id, s.sched)
  let task := { task with id := r.1 }
  { s with sched := (r.2.insert task.id task).pend 1 }

/-! ## Steps -/

inductive Action where
  | accept (pcnf : PortConfig) (client_sock : Int) (now : Int) (input : List RecvEv) (output : List SendEv)
      (ssl : Bool)
  | collect (now : Int → Int) (elapsed : TaskEvent → Bool)
  | poll (revents : List Poll)
  | deploy
  /-- A worker takes a deployed task. -/
  | work
  /-- The `i`-th held task goes on; the rest is what it meets. -/
  | schedule (i : Nat) (now : Int)
  | create (i : Nat)
  | handle (i : Nat) (sys : Sys)
  | execute (i : Nat)
  | add (i : Nat)

/-- A worker takes the first task of the queue. -/
def work (s : Server) (cnf : Config) : Option Server :=
  match s.workers_queue with
  | task :: rest =>
    if (s.held.filter (·.thread = .worker)).length < cnf.n_workers then
      some { s with workers_queue := rest, held := ⟨.worker, .running task none⟩ :: s.held }
    else none
  | [] => none

/-- The phase of the `i`-th held task, and the server without it. -/
def release (s : Server) (i : Nat) : Option (Held × Server) :=
  s.held[i]?.map fun h => (h, { s with held := s.held.eraseIdx i })

def step (cnf : Config) (a : Action) (s : Server) : Option Server :=
  match a with
  | .accept pcnf client_sock now input output ssl => s.antd_monitor pcnf client_sock now input output ssl
  | .collect now elapsed => s.collect cnf now elapsed
  | .poll revents => s.poll revents
  | .deploy => s.antd_deploy_task
  | .work => s.work cnf
  | .schedule i now =>
    match s.release i with
    | some (⟨thread, .deploying task⟩, s) => some (s.antd_task_schedule cnf now thread task)
    | _ => none
  | .create i =>
    match s.release i with
    | some (⟨thread, .running task _⟩, s) => s.antd_create_task thread task
    | _ => none
  | .handle i sys =>
    match s.release i with
    | some (⟨thread, .running task id⟩, s) => s.handle cnf sys thread task id
    | _ => none
  | .execute i =>
    match s.release i with
    | some (⟨thread, .returned task ret⟩, s) => some (s.antd_execute_task thread task ret)
    | _ => none
  | .add i =>
    match s.release i with
    | some (⟨_, .adding task⟩, s) => some (s.antd_scheduler_add_task task)
    | _ => none

end Server

end AntHttp
