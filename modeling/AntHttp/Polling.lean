import AntHttp.Scheduler
/-!
# One round of the scheduler's thread (`lib/scheduler.c`)

`antd_scheduler_wait` with what it reads: the flags, the stamp and the timeout
of each event, the tree that numbers the polled events, the array of `pollfd`
and what `poll` stores in it. The clocks are read, and the descriptors looked
at, anew for each event.
-/

namespace AntHttp

open CString Bst

namespace Polling

/-! ## Events -/

def TASK_EVT_ALWAY_ON : BitVec 32 := 0x01
def TASK_EVT_ON_READABLE : BitVec 32 := 0x02
def TASK_EVT_ON_WRITABLE : BitVec 32 := 0x04
def TASK_EVT_ON_TIMEOUT : BitVec 32 := 0x08

def POLLIN : BitVec 16 := 0x01
def POLLOUT : BitVec 16 := 0x04
def POLLERR : BitVec 16 := 0x08
def POLLHUP : BitVec 16 := 0x10
def POLLNVAL : BitVec 16 := 0x20

/-- `flags & mask` -/
def hasFlag {n : Nat} (flags mask : BitVec n) : Bool := flags &&& mask ≠ 0

/-- What `gettimeofday` stores, for a clock that is set to a year before 2500. -/
structure Timeval where
  tv_sec : Int
  tv_usec : Int
  sec : 0 ≤ tv_sec ∧ tv_sec < 2 ^ 34
  usec : 0 ≤ tv_usec ∧ tv_usec < 1000000

/-- `antd_task_evt_item_t` -/
structure EvtItem where
  flags : BitVec 32
  fd : Int
  stamp : Timeval
  timeout : Int

/-- The part of `antd_task_t` that a round reads or writes. -/
structure EvtTask where
  id : Int
  access_time : Int
  handle : Option Handler
  events : List EvtItem

/-- What a round meets when it looks at an event, which is named by its task
and its place. -/
structure World where
  scheduler_timeout : Int
  time : Int → Nat → Int
  gettimeofday : Int → Nat → Timeval
  /-- The state that `poll` finds a descriptor in. -/
  state : Int → Nat → Int → BitVec 16

/-- A pointer to an event. -/
structure EvtRef where
  task : Int
  place : Nat
  evt : EvtItem

/-! ## The round -/

def antd_scheduler_validate_data (world : World) (task : EvtTask) (place : Nat) : Bool :=
  !decide (world.time task.id place - task.access_time > world.scheduler_timeout)

/-- The microseconds from `stamp` to `now`. -/
def Timeval.since (now stamp : Timeval) : Int :=
  (now.tv_sec - stamp.tv_sec) * 1000000 + now.tv_usec - stamp.tv_usec

def timedOut (world : World) (task : EvtTask) (place : Nat) (evt : EvtItem) : Bool :=
  let diff := int32 (((world.gettimeofday task.id place).since evt.stamp).tdiv 1000)
  diff ≥ evt.timeout

structure Collected where
  exec_list : Node EvtTask
  poll_list : Node EvtRef
  pollsize : Int

def collectEvent (world : World) (task : EvtTask) (c : Collected) (it : EvtItem × Nat) : Collected :=
  if hasFlag it.1.flags TASK_EVT_ALWAY_ON || !antd_scheduler_validate_data world task it.2 then
    { c with exec_list := bst_insert c.exec_list task.id task }
  else if hasFlag it.1.flags TASK_EVT_ON_TIMEOUT then
    if timedOut world task it.2 it.1 then { c with exec_list := bst_insert c.exec_list task.id task } else c
  else
    { c with
      poll_list := bst_insert c.poll_list c.pollsize ⟨task.id, it.2, it.1⟩
      pollsize := c.pollsize + 1 }

def task_event_collect (world : World) (c : Collected) (_key : Int) (task : EvtTask) : Collected :=
  if task.events.isEmpty then { c with exec_list := bst_insert c.exec_list task.id task }
  else task.events.zipIdx.foldl (collectEvent world task) c

structure Pollfd where
  fd : Int
  events : BitVec 16
  revents : BitVec 16

def task_polls_collect (pfds : List Pollfd) (key : Int) (it : EvtRef) : List Pollfd :=
  pfds.modify key.toNat fun p =>
    let p := { p with fd := it.evt.fd }
    let p := if hasFlag it.evt.flags TASK_EVT_ON_READABLE then { p with events := p.events ||| POLLIN } else p
    if hasFlag it.evt.flags TASK_EVT_ON_WRITABLE then { p with events := p.events ||| POLLOUT } else p

/-- `poll` tells what is asked for of the state of each descriptor, and errors. -/
def poll (world : World) (poll_list : Node EvtRef) (pfds : List Pollfd) : Nat × List Pollfd :=
  let pfds := pfds.mapIdx fun i p =>
    match bst_find poll_list i with
    | some it => { p with revents := world.state it.task it.place p.fd &&& (p.events ||| POLLERR ||| POLLHUP ||| POLLNVAL) }
    | none => p
  (pfds.countP (·.revents ≠ 0), pfds)

/-- The queue and the list of scheduled tasks. A pointer to a task is its id:
the task itself is in the queue. -/
structure Lists where
  task_queue : Node EvtTask
  scheduled_list : Node EvtTask

def pollEvent (lists : Lists) (it : EvtRef) (revents : BitVec 16) : Lists :=
  match bst_find lists.task_queue it.task with
  | none => lists
  | some task =>
    if hasFlag it.evt.flags TASK_EVT_ON_READABLE && hasFlag revents POLLIN ||
        hasFlag it.evt.flags TASK_EVT_ON_WRITABLE && hasFlag revents POLLOUT then
      { lists with scheduled_list := bst_insert lists.scheduled_list task.id task }
    else if hasFlag revents POLLERR || hasFlag revents POLLHUP then
      let task := { task with access_time := 0, handle := none }
      ⟨bst_insert lists.task_queue task.id task, bst_insert lists.scheduled_list task.id task⟩
    else lists

/-- One pass of the loop over the array. -/
def pollRound (poll_list : Node EvtRef) (pfds : List Pollfd) (lists : Lists) (i : Nat) : Lists :=
  match bst_find poll_list i, pfds[i]? with
  | some it, some p => pollEvent lists it p.revents
  | _, _ => lists

def pollAll (world : World) (c : Collected) (lists : Lists) : Lists :=
  if c.pollsize > 0 then
    let pfds := bst_for_each c.poll_list task_polls_collect (List.replicate c.pollsize.toNat ⟨0, 0, 0⟩)
    let answer := poll world c.poll_list pfds
    if answer.1 > 0 then (List.range c.pollsize.toNat).foldl (pollRound c.poll_list answer.2) lists else lists
  else lists

/-- The queue, and the tasks given to `antd_task_schedule` so far. -/
structure Deployed where
  task_queue : Node EvtTask
  tasks : List EvtTask

def antd_deploy_task (d : Deployed) (_key : Int) (task : EvtTask) : Deployed :=
  ⟨bst_delete d.task_queue task.id, d.tasks ++ [task]⟩

/-- One round, up to where it would sleep. -/
def antd_scheduler_wait (world : World) (task_queue : Node EvtTask) : Deployed :=
  let c := bst_for_each task_queue (task_event_collect world) ⟨.nil, .nil, 0⟩
  let lists := pollAll world c ⟨task_queue, c.exec_list⟩
  bst_for_each lists.scheduled_list antd_deploy_task ⟨lists.task_queue, []⟩

/-! ## What a round is for -/

/-- The descriptor is ready for what the event asks for, in error or hung up. -/
def Reported (world : World) (task : EvtTask) (place : Nat) (evt : EvtItem) : Prop :=
  let state := world.state task.id place evt.fd
  (hasFlag evt.flags TASK_EVT_ON_READABLE ∧ hasFlag state POLLIN) ∨
    (hasFlag evt.flags TASK_EVT_ON_WRITABLE ∧ hasFlag state POLLOUT) ∨ hasFlag state POLLERR ∨ hasFlag state POLLHUP

/-- The time that the event asks for has passed. -/
def Elapsed (world : World) (task : EvtTask) (place : Nat) (evt : EvtItem) : Prop :=
  1000 * evt.timeout ≤ (world.gettimeofday task.id place).since evt.stamp

/-- An event that makes its task due. -/
def EventDue (world : World) (task : EvtTask) (place : Nat) (evt : EvtItem) : Prop :=
  hasFlag evt.flags TASK_EVT_ALWAY_ON ∨ antd_scheduler_validate_data world task place = false ∨
    (hasFlag evt.flags TASK_EVT_ON_TIMEOUT ∧ Elapsed world task place evt) ∨ Reported world task place evt

def Due (world : World) (task : EvtTask) : Prop :=
  task.events = [] ∨ ∃ evt place, (evt, place) ∈ task.events.zipIdx ∧ EventDue world task place evt

/-- The tasks that are due are deployed, each once, and the others are left as they are. -/
structure Deploys (world : World) (task_queue : Node EvtTask) (d : Deployed) : Prop where
  once : (d.tasks.map (·.id)).Nodup
  due : ∀ v ∈ d.tasks, ∃ task, bst_find task_queue v.id = some task ∧ Due world task ∧ v.events = task.events
  all : ∀ id task, bst_find task_queue id = some task → Due world task → id ∈ d.tasks.map (·.id)
  rest : ∀ id task, bst_find d.task_queue id = some task ↔ bst_find task_queue id = some task ∧ ¬ Due world task

/-! ## Flags -/

theorem hasFlag_twoPow {n : Nat} (x : BitVec n) (i : Nat) (h : i < n) : hasFlag x (BitVec.twoPow n i) = x.getLsbD i := by
  have hne : BitVec.twoPow n i ≠ 0#n := by
    intro he
    have hbit := congrArg (fun y : BitVec n => y.getLsbD i) he
    simp [h] at hbit
  rw [hasFlag, BitVec.and_twoPow]
  cases x.getLsbD i with
  | false => simp
  | true => simpa using hne

/-- A bit that the mask lets through. -/
theorem hasFlag_masked {n i : Nat} {x mask : BitVec n} (hi : i < n) (h : hasFlag mask (BitVec.twoPow n i) = true) :
    hasFlag (x &&& mask) (BitVec.twoPow n i) = hasFlag x (BitVec.twoPow n i) := by
  rw [hasFlag_twoPow _ i hi] at h
  rw [hasFlag_twoPow _ i hi, hasFlag_twoPow _ i hi, BitVec.getLsbD_and, h, Bool.and_true]

/-- What `poll` is asked for. -/
def asked (evt : EvtItem) : BitVec 16 :=
  let events := if hasFlag evt.flags TASK_EVT_ON_READABLE then POLLIN else 0
  if hasFlag evt.flags TASK_EVT_ON_WRITABLE then events ||| POLLOUT else events

/-- What `poll` stores for an event. -/
def answered (state : BitVec 16) (evt : EvtItem) : BitVec 16 :=
  state &&& (asked evt ||| POLLERR ||| POLLHUP ||| POLLNVAL)

/-- The tests of the loop. -/
def reports (evt : EvtItem) (revents : BitVec 16) : Bool :=
  (hasFlag evt.flags TASK_EVT_ON_READABLE && hasFlag revents POLLIN ||
    hasFlag evt.flags TASK_EVT_ON_WRITABLE && hasFlag revents POLLOUT) || (hasFlag revents POLLERR || hasFlag revents POLLHUP)

section

variable {state : BitVec 16} {evt : EvtItem}

theorem answered_in (h : hasFlag evt.flags TASK_EVT_ON_READABLE = true) :
    hasFlag (answered state evt) POLLIN = hasFlag state POLLIN := by
  refine hasFlag_masked (i := 0) (by decide) ?_
  rw [asked, if_pos h]
  split <;> decide

theorem answered_out (h : hasFlag evt.flags TASK_EVT_ON_WRITABLE = true) :
    hasFlag (answered state evt) POLLOUT = hasFlag state POLLOUT := by
  refine hasFlag_masked (i := 2) (by decide) ?_
  rw [asked, if_pos h]
  split <;> decide

theorem answered_err : hasFlag (answered state evt) POLLERR = hasFlag state POLLERR := by
  refine hasFlag_masked (i := 3) (by decide) ?_
  rw [asked]
  split <;> split <;> decide

theorem answered_hup : hasFlag (answered state evt) POLLHUP = hasFlag state POLLHUP := by
  refine hasFlag_masked (i := 4) (by decide) ?_
  rw [asked]
  split <;> split <;> decide

/-- The answer of `poll` is enough to see what is reported. -/
theorem reports_answered {world : World} {task : EvtTask} {place : Nat} :
    reports evt (answered (world.state task.id place evt.fd) evt) = true ↔ Reported world task place evt := by
  unfold reports Reported
  rw [answered_err, answered_hup]
  cases hr : hasFlag evt.flags TASK_EVT_ON_READABLE <;> cases hw : hasFlag evt.flags TASK_EVT_ON_WRITABLE <;>
    simp [hr, hw, answered_in, answered_out, or_assoc]

end

/-! ## The queue is gone through -/

/-- The event puts its task on the list of those to be executed. -/
def executes (world : World) (task : EvtTask) (it : EvtItem × Nat) : Bool :=
  hasFlag it.1.flags TASK_EVT_ALWAY_ON || !antd_scheduler_validate_data world task it.2 ||
    (hasFlag it.1.flags TASK_EVT_ON_TIMEOUT && timedOut world task it.2 it.1)

/-- The event is polled. -/
def polled (world : World) (task : EvtTask) (it : EvtItem × Nat) : Bool :=
  !(hasFlag it.1.flags TASK_EVT_ALWAY_ON || !antd_scheduler_validate_data world task it.2) &&
    !hasFlag it.1.flags TASK_EVT_ON_TIMEOUT

def execs (world : World) (task : EvtTask) : List EvtTask :=
  if task.events.isEmpty then [task] else (task.events.zipIdx.filter (executes world task)).map fun _ => task

def refs (world : World) (task : EvtTask) : List EvtRef :=
  (task.events.zipIdx.filter (polled world task)).map fun it => ⟨task.id, it.2, it.1⟩

def listAll (t : Node EvtTask) (l : List EvtTask) : Node EvtTask := l.foldl (fun t task => bst_insert t task.id task) t

/-- What has been collected of the tasks so far. -/
structure Collects (tasks : List EvtTask) (items : List EvtRef) (c : Collected) : Prop where
  exec : c.exec_list = listAll .nil tasks
  polls : Numbered c.poll_list items
  size : c.pollsize = items.length

section

variable {world : World} {task : EvtTask} {tasks : List EvtTask} {items : List EvtRef} {c : Collected}

theorem Collects.exec_task (h : Collects tasks items c) (task : EvtTask) :
    Collects (tasks ++ [task]) items { c with exec_list := bst_insert c.exec_list task.id task } where
  exec := by
    rw [listAll, List.foldl_append, h.exec]
    rfl
  polls := h.polls
  size := h.size

theorem Collects.event (h : Collects tasks items c) (it : EvtItem × Nat) :
    Collects (tasks ++ if executes world task it then [task] else [])
      (items ++ if polled world task it then [⟨task.id, it.2, it.1⟩] else []) (collectEvent world task c it) := by
  unfold executes polled collectEvent
  cases hasFlag it.1.flags TASK_EVT_ALWAY_ON || !antd_scheduler_validate_data world task it.2 with
  | true => simpa using h.exec_task task
  | false =>
    cases hasFlag it.1.flags TASK_EVT_ON_TIMEOUT with
    | true =>
      cases timedOut world task it.2 it.1 with
      | true => simpa using h.exec_task task
      | false => simpa using h
    | false =>
      simp only [Bool.or_false, Bool.false_and, Bool.not_false, Bool.and_self, if_true, Bool.false_eq_true, if_false,
        List.append_nil]
      refine ⟨h.exec, ?_, ?_⟩
      · rw [h.size]
        exact h.polls.insert _
      · rw [List.length_append, List.length_singleton, h.size]
        rfl

theorem Collects.events (h : Collects tasks items c) (l : List (EvtItem × Nat)) :
    Collects (tasks ++ (l.filter (executes world task)).map fun _ => task)
      (items ++ (l.filter (polled world task)).map fun it => ⟨task.id, it.2, it.1⟩) (l.foldl (collectEvent world task) c) := by
  induction l generalizing tasks items c with
  | nil => simpa using h
  | cons it l ih =>
    have hnext : Collects _ _ (l.foldl (collectEvent world task) (collectEvent world task c it)) := ih (h.event it)
    rw [List.foldl_cons, List.filter_cons, List.filter_cons]
    cases he : executes world task it <;> cases hp : polled world task it <;> simpa [he, hp] using hnext

theorem Collects.of_task (h : Collects tasks items c) (key : Int) (task : EvtTask) :
    Collects (tasks ++ execs world task) (items ++ refs world task) (task_event_collect world c key task) := by
  unfold execs refs task_event_collect
  cases hempty : task.events with
  | nil => simpa [hempty] using h.exec_task task
  | cons evt events => exact h.events _

theorem Collects.queue (h : Collects tasks items c) (l : List (Int × EvtTask)) :
    Collects (tasks ++ (l.map Prod.snd).flatMap (execs world)) (items ++ (l.map Prod.snd).flatMap (refs world))
      (l.foldl (fun c e => task_event_collect world c e.1 e.2) c) := by
  induction l generalizing tasks items c with
  | nil => simpa using h
  | cons e l ih =>
    rw [List.map_cons, List.flatMap_cons, List.flatMap_cons, ← List.append_assoc, ← List.append_assoc]
    exact ih (h.of_task e.1 e.2)

end

/-! ## The array -/

section

variable {world : World} {items : List EvtRef} {c : Collected} {lists : Lists}

/-- The entry of an event. -/
def entry (it : EvtRef) : Pollfd := ⟨it.evt.fd, asked it.evt, 0⟩

def answer (world : World) (it : EvtRef) : BitVec 16 := answered (world.state it.task it.place it.evt.fd) it.evt

theorem modify_length {α : Type} (f : α → α) (pre post : List α) (a : α) :
    (pre ++ a :: post).modify pre.length f = pre ++ f a :: post := by
  induction pre with
  | nil => rfl
  | cons b pre ih => rw [List.cons_append, List.length_cons, List.modify_succ_cons, ih, List.cons_append]

theorem task_polls_collect_next (pre : List Pollfd) (n : Nat) (it : EvtRef) :
    task_polls_collect (pre ++ List.replicate (n + 1) ⟨0, 0, 0⟩) pre.length it =
      pre ++ entry it :: List.replicate n ⟨0, 0, 0⟩ := by
  unfold task_polls_collect entry asked
  rw [Int.toNat_natCast, List.replicate_succ, modify_length]
  cases hasFlag it.evt.flags TASK_EVT_ON_READABLE <;> cases hasFlag it.evt.flags TASK_EVT_ON_WRITABLE <;> simp

/-- Each event has its entry in the array, under its number. -/
theorem pfds_eq {t : Node EvtRef} (h : Numbered t items) :
    bst_for_each t task_polls_collect (List.replicate items.length ⟨0, 0, 0⟩) = items.map entry := by
  have hpre (k : Nat) : (items.zipIdx.map fun p => ((p.2 : Int), p.1)).foldl (fun pfds e => task_polls_collect pfds e.1 e.2)
      (List.replicate (items.length + k) ⟨0, 0, 0⟩) = items.map entry ++ List.replicate k ⟨0, 0, 0⟩ := by
    clear h
    induction items using List.reverseRecOn generalizing k with
    | nil => simp
    | append_singleton items it ih =>
      have hlen : (items ++ [it]).length + k = items.length + (k + 1) := by
        rw [List.length_append, List.length_singleton]
        omega
      rw [List.zipIdx_append, List.map_append, List.foldl_append, hlen, ih, Nat.zero_add]
      have hnext := task_polls_collect_next (items.map entry) k it
      rw [List.length_map] at hnext
      rw [List.map_append, List.append_assoc]
      exact hnext
  have hall := hpre 0
  rw [for_each_eq, h]
  simpa using hall

/-- `poll` answers entry by entry. -/
theorem poll_eq {t : Node EvtRef} (h : Numbered t items) :
    (poll world t (items.map entry)).2 = items.map fun it => { entry it with revents := answer world it } := by
  apply List.ext_getElem?
  intro i
  rw [poll, List.getElem?_mapIdx, List.getElem?_map, List.getElem?_map, h.find]
  cases items[i]? with
  | none => rfl
  | some it => rfl

theorem poll_ready {t : Node EvtRef} (h : Numbered t items) (hnone : ¬ (poll world t (items.map entry)).1 > 0) :
    ∀ it ∈ items, answer world it = 0 := by
  have hcount : (poll world t (items.map entry)).1 = (poll world t (items.map entry)).2.countP (·.revents ≠ 0) := rfl
  rw [hcount, poll_eq h, Nat.not_lt, Nat.le_zero, List.countP_eq_zero] at hnone
  intro it hit
  simpa using hnone _ (List.mem_map_of_mem hit)

theorem pollEvent_zero (lists : Lists) (it : EvtRef) : pollEvent lists it 0 = lists := by
  unfold pollEvent
  split
  · rfl
  · simp [hasFlag]

/-- A loop over the numbers of a list is one over the list. -/
theorem foldl_range {α σ : Type} {g : σ → Nat → σ} {f : σ → α → σ} {l : List α}
    (h : ∀ s i a, l[i]? = some a → g s i = f s a) (s : σ) : (List.range l.length).foldl g s = l.foldl f s := by
  induction l using List.reverseRecOn with
  | nil => rfl
  | append_singleton l a ih =>
    have hl : ∀ s i b, l[i]? = some b → g s i = f s b := by
      intro s i b hb
      exact h s i b (by rw [List.getElem?_append_left (List.getElem?_eq_some_iff.1 hb).1, hb])
    rw [List.length_append, List.length_singleton, List.range_succ, List.foldl_append, List.foldl_append, ih hl]
    exact h _ _ a List.getElem?_concat_length

theorem pollRound_eq {t : Node EvtRef} (h : Numbered t items) {i : Nat} {it : EvtRef} (hi : items[i]? = some it) :
    pollRound t (items.map fun it => { entry it with revents := answer world it }) lists i =
      pollEvent lists it (answer world it) := by
  unfold pollRound
  rw [h.find, List.getElem?_map, hi]
  rfl

/-- The loop goes through the polled events in order. -/
theorem pollAll_eq (hpolls : Numbered c.poll_list items) (hsize : c.pollsize = items.length) (lists : Lists) :
    pollAll world c lists = items.foldl (fun lists it => pollEvent lists it (answer world it)) lists := by
  unfold pollAll
  rw [hsize, Int.toNat_natCast, pfds_eq hpolls]
  dsimp only
  split
  · split
    · rw [poll_eq hpolls]
      refine foldl_range ?_ lists
      intro lists i it hi
      exact pollRound_eq hpolls hi
    · rename_i hnone
      have hzero := poll_ready hpolls hnone
      have hsame : ∀ l ⊆ items, l.foldl (fun lists it => pollEvent lists it (answer world it)) lists = lists := by
        intro l hl
        induction l with
        | nil => rfl
        | cons it l ih =>
          rw [List.foldl_cons, hzero it (hl List.mem_cons_self), pollEvent_zero]
          exact ih fun it hit => hl (List.mem_cons_of_mem _ hit)
      exact (hsame items (List.Subset.refl _)).symm
  · rename_i hnil
    have hlen : items = [] := by
      apply List.eq_nil_of_length_eq_zero
      omega
    rw [hlen]
    rfl

end

/-! ## Which tasks are scheduled -/

/-- A task of the queue, as it was but for its handler and when it was last used. -/
def Queued (task_queue : Node EvtTask) (v : EvtTask) : Prop :=
  ∃ task, bst_find task_queue v.id = some task ∧ v.events = task.events

/-- The tasks with these ids are scheduled; the others are still as they were. -/
structure Schedules (task_queue : Node EvtTask) (ids : Int → Prop) (lists : Lists) : Prop where
  keyed : Keyed (·.id) lists.task_queue
  listed : Keyed (·.id) lists.scheduled_list
  queued : ∀ v ∈ (toList lists.task_queue).map Prod.snd, Queued task_queue v
  stays : ∀ id, (bst_find task_queue id).isSome → (bst_find lists.task_queue id).isSome
  kept : ∀ id, ¬ ids id → bst_find lists.task_queue id = bst_find task_queue id
  scheduled : ∀ v ∈ (toList lists.scheduled_list).map Prod.snd, Queued task_queue v
  ids : ∀ id, (bst_find lists.scheduled_list id).isSome ↔ ids id

section

variable {task_queue t : Node EvtTask} {ids : Int → Prop} {lists : Lists} {task v : EvtTask} {id : Int}

theorem mem_values_insert (h : Keyed (·.id) t) (hv : v ∈ (toList (bst_insert t task.id task)).map Prod.snd) :
    v = task ∨ v ∈ (toList t).map Prod.snd := by
  obtain ⟨e, he, rfl⟩ := List.mem_map.1 hv
  rw [toList_insert h.ordered] at he
  rcases Assoc.mem_put he with rfl | he
  · exact .inl rfl
  · exact .inr (List.mem_map_of_mem he)

theorem values_of_find (h : Keyed (·.id) t) (hf : bst_find t id = some task) :
    task ∈ (toList t).map Prod.snd ∧ task.id = id := by
  have hmem := (find_mem h.ordered).1 hf
  exact ⟨List.mem_map_of_mem hmem, h.keyed _ hmem⟩

/-- A queued task is scheduled. -/
theorem Schedules.schedule (h : Schedules task_queue ids lists) (hq : Queued task_queue task) :
    Schedules task_queue (fun id => ids id ∨ id = task.id)
      { lists with scheduled_list := bst_insert lists.scheduled_list task.id task } where
  keyed := h.keyed
  listed := h.listed.insert task
  queued := h.queued
  stays := h.stays
  kept id hid := h.kept id (fun hi => hid (.inl hi))
  scheduled v hv := by
    rcases mem_values_insert h.listed hv with rfl | hv
    · exact hq
    · exact h.scheduled v hv
  ids id := by
    rw [find_insert h.listed.ordered, ← h.ids id]
    split <;> simp [*]

/-- A scheduled task is written to in the queue. -/
theorem Schedules.write (h : Schedules task_queue ids lists) (hq : Queued task_queue task) (hid : ids task.id) :
    Schedules task_queue ids { lists with task_queue := bst_insert lists.task_queue task.id task } where
  keyed := h.keyed.insert task
  listed := h.listed
  queued v hv := by
    rcases mem_values_insert h.keyed hv with rfl | hv
    · exact hq
    · exact h.queued v hv
  stays id hs := by
    rw [find_insert h.keyed.ordered]
    split
    · rfl
    · exact h.stays id hs
  kept id hi := by
    have hne : id ≠ task.id := fun he => hi (he ▸ hid)
    rw [find_insert h.keyed.ordered, if_neg hne]
    exact h.kept id hi
  scheduled := h.scheduled
  ids := h.ids

theorem Schedules.congr {ids' : Int → Prop} (h : Schedules task_queue ids lists) (hids : ∀ id, ids id ↔ ids' id) :
    Schedules task_queue ids' lists :=
  (funext fun id => propext (hids id) : ids = ids') ▸ h

/-- One polled event. -/
theorem Schedules.event (h : Schedules task_queue ids lists) (it : EvtRef) (revents : BitVec 16)
    (hit : (bst_find task_queue it.task).isSome) :
    Schedules task_queue (fun id => ids id ∨ id = it.task ∧ reports it.evt revents = true) (pollEvent lists it revents) := by
  obtain ⟨task, hf⟩ := Option.isSome_iff_exists.1 (h.stays it.task hit)
  obtain ⟨hmem, hid⟩ := values_of_find h.keyed hf
  have hq := h.queued task hmem
  unfold pollEvent reports
  rw [hf]
  dsimp only
  split
  · rename_i hready
    refine (h.schedule hq).congr fun id => ?_
    rw [hready, Bool.true_or, hid]
    simp
  · rename_i hready
    rw [Bool.not_eq_true] at hready
    rw [hready, Bool.false_or]
    split
    · rename_i herr
      -- the task is written to through its pointer, so in the queue as well
      have hq' : Queued task_queue { task with access_time := 0, handle := none } := hq
      refine ((h.schedule hq').write hq' (.inr rfl)).congr fun id => ?_
      rw [herr, hid]
      simp
    · rename_i herr
      refine h.congr fun id => ?_
      simp [herr]

/-- All of them. -/
theorem Schedules.events (h : Schedules task_queue ids lists) (revents : EvtRef → BitVec 16) {items : List EvtRef}
    (hitems : ∀ it ∈ items, (bst_find task_queue it.task).isSome) :
    Schedules task_queue (fun id => ids id ∨ ∃ it ∈ items, id = it.task ∧ reports it.evt (revents it) = true)
      (items.foldl (fun lists it => pollEvent lists it (revents it)) lists) := by
  induction items generalizing ids lists with
  | nil => exact h.congr fun id => by simp
  | cons it items ih =>
    have hnext := ih (h.event it (revents it) (hitems it List.mem_cons_self)) fun it hit =>
      hitems it (List.mem_cons_of_mem _ hit)
    refine hnext.congr fun id => ?_
    simp only [List.mem_cons, exists_eq_or_imp, or_assoc]

/-- The tasks that were put on the list when the queue was gone through. -/
theorem Schedules.execs (hq : Keyed (·.id) task_queue) {tasks : List EvtTask}
    (htasks : ∀ task ∈ tasks, bst_find task_queue task.id = some task) :
    Schedules task_queue (fun id => ∃ task ∈ tasks, id = task.id) ⟨task_queue, listAll .nil tasks⟩ := by
  have hstart : Schedules task_queue (fun _ => False) ⟨task_queue, .nil⟩ :=
    { keyed := hq
      listed := Keyed.nil _
      queued := fun v hv => ⟨v, hq.find hv, rfl⟩
      stays := fun _ h => h
      kept := fun _ _ => rfl
      scheduled := fun v hv => (List.not_mem_nil hv).elim
      ids := fun _ => by simp [bst_find] }
  have hall (l : List EvtTask) (hl : l ⊆ tasks) (ids : Int → Prop) (t : Node EvtTask)
      (h : Schedules task_queue ids ⟨task_queue, t⟩) :
      Schedules task_queue (fun id => ids id ∨ ∃ task ∈ l, id = task.id) ⟨task_queue, listAll t l⟩ := by
    induction l generalizing ids t with
    | nil => exact h.congr fun id => by simp
    | cons task l ih =>
      have hqueued : Queued task_queue task := ⟨task, htasks task (hl List.mem_cons_self), rfl⟩
      have hnext := ih (fun v hv => hl (List.mem_cons_of_mem _ hv)) _ _ (h.schedule hqueued)
      refine hnext.congr fun id => ?_
      simp only [List.mem_cons, exists_eq_or_imp, or_assoc]
  exact (hall tasks (List.Subset.refl _) _ _ hstart).congr fun id => by simp

end

/-! ## Which tasks are deployed -/

section

variable {world : World} {task_queue : Node EvtTask} {ids : Int → Prop} {lists : Lists} {task : EvtTask}

/-- The scheduled tasks leave the queue one after another. -/
theorem deploy_all (l : List (Int × EvtTask)) (d : Deployed) (h : Ordered d.task_queue) (id : Int) :
    (l.foldl (fun d e => antd_deploy_task d e.1 e.2) d).tasks = d.tasks ++ l.map Prod.snd ∧
      bst_find (l.foldl (fun d e => antd_deploy_task d e.1 e.2) d).task_queue id =
        if id ∈ (l.map Prod.snd).map (·.id) then none else bst_find d.task_queue id := by
  induction l generalizing d with
  | nil => simp
  | cons e l ih =>
    obtain ⟨htasks, hfind⟩ := ih (antd_deploy_task d e.1 e.2) (ordered_delete h e.2.id)
    rw [List.foldl_cons, htasks, hfind, antd_deploy_task, find_delete h]
    refine ⟨by simp, ?_⟩
    simp only [List.map_cons, List.mem_cons]
    by_cases hid : id = e.2.id
    · simp [hid]
    · simp only [hid, if_false, false_or]

/-- The event is polled and reported. -/
def PolledReport (world : World) (task : EvtTask) (it : EvtItem × Nat) : Prop :=
  polled world task it = true ∧ Reported world task it.2 it.1

/-- The tasks that a round deploys. -/
def Taken (world : World) (task : EvtTask) : Prop :=
  task.events = [] ∨ ∃ it ∈ task.events.zipIdx, executes world task it = true ∨ PolledReport world task it

theorem mem_execs {v : EvtTask} : v ∈ execs world task ↔
    v = task ∧ (task.events = [] ∨ ∃ it ∈ task.events.zipIdx, executes world task it = true) := by
  unfold execs
  cases hevents : task.events with
  | nil => simp
  | cons evt events =>
    simp only [List.isEmpty_cons, Bool.false_eq_true, if_false, List.mem_map, List.mem_filter, reduceCtorEq, false_or]
    constructor
    · rintro ⟨it, hit, rfl⟩
      exact ⟨rfl, it, hit⟩
    · rintro ⟨rfl, it, hit⟩
      exact ⟨it, hit, rfl⟩

theorem mem_refs {it : EvtRef} : it ∈ refs world task ↔
    it.task = task.id ∧ (it.evt, it.place) ∈ task.events.zipIdx ∧ polled world task (it.evt, it.place) = true := by
  unfold refs
  rw [List.mem_map]
  constructor
  · rintro ⟨p, hp, rfl⟩
    exact ⟨rfl, List.mem_filter.1 hp⟩
  · rintro ⟨hid, hp⟩
    refine ⟨(it.evt, it.place), List.mem_filter.2 hp, ?_⟩
    rw [← hid]

def allExecs (world : World) (task_queue : Node EvtTask) : List EvtTask :=
  ((toList task_queue).map Prod.snd).flatMap (execs world)

def allRefs (world : World) (task_queue : Node EvtTask) : List EvtRef :=
  ((toList task_queue).map Prod.snd).flatMap (refs world)

/-- The ids of the scheduled tasks. -/
def Scheduled (world : World) (task_queue : Node EvtTask) (id : Int) : Prop :=
  (∃ task ∈ allExecs world task_queue, id = task.id) ∨
    ∃ it ∈ allRefs world task_queue, id = it.task ∧ reports it.evt (answer world it) = true

theorem scheduled_iff (h : Keyed (·.id) task_queue) {id : Int} (hf : bst_find task_queue id = some task) :
    Scheduled world task_queue id ↔ Taken world task := by
  obtain ⟨hmem, hid⟩ := values_of_find h hf
  have hsame {v : EvtTask} (hv : v ∈ (toList task_queue).map Prod.snd) (hvid : id = v.id) : v = task := by
    have hfv := h.find hv
    rw [← hvid, hf] at hfv
    exact (Option.some.inj hfv).symm
  constructor
  · rintro (⟨v, hv, hvid⟩ | ⟨it, hit, hitid, hrep⟩)
    · obtain ⟨u, hu, hvu⟩ := List.mem_flatMap.1 hv
      obtain ⟨rfl, hcase⟩ := mem_execs.1 hvu
      rw [hsame hu hvid] at hcase
      rcases hcase with hnil | ⟨it, hit, he⟩
      · exact .inl hnil
      · exact .inr ⟨it, hit, .inl he⟩
    · obtain ⟨u, hu, hitu⟩ := List.mem_flatMap.1 hit
      obtain ⟨htask, hplace, hpoll⟩ := mem_refs.1 hitu
      obtain rfl := hsame hu (hitid.trans htask)
      rw [answer, htask, reports_answered] at hrep
      exact .inr ⟨_, hplace, .inr ⟨hpoll, hrep⟩⟩
  · have hexec (hcase : task.events = [] ∨ ∃ it ∈ task.events.zipIdx, executes world task it = true) :
        Scheduled world task_queue id :=
      .inl ⟨task, List.mem_flatMap.2 ⟨task, hmem, mem_execs.2 ⟨rfl, hcase⟩⟩, hid.symm⟩
    rintro (hnil | ⟨it, hit, he | ⟨hpoll, hrep⟩⟩)
    · exact hexec (.inl hnil)
    · exact hexec (.inr ⟨it, hit, he⟩)
    · have href : (⟨task.id, it.2, it.1⟩ : EvtRef) ∈ refs world task := mem_refs.2 ⟨rfl, hit, hpoll⟩
      exact .inr ⟨_, List.mem_flatMap.2 ⟨task, hmem, href⟩, hid.symm, reports_answered.2 hrep⟩

theorem collect_all (task_queue : Node EvtTask) : Collects (allExecs world task_queue) (allRefs world task_queue)
    (bst_for_each task_queue (task_event_collect world) ⟨.nil, .nil, 0⟩) := by
  have hstart : Collects [] [] ⟨.nil, .nil, 0⟩ := ⟨rfl, Numbered.nil, rfl⟩
  rw [for_each_eq]
  exact hstart.queue (toList task_queue)

/-- The two lists when the tasks begin to be deployed. -/
def listsOf (world : World) (task_queue : Node EvtTask) : Lists :=
  (allRefs world task_queue).foldl (fun lists it => pollEvent lists it (answer world it))
    ⟨task_queue, listAll .nil (allExecs world task_queue)⟩

theorem wait_eq (task_queue : Node EvtTask) : antd_scheduler_wait world task_queue =
    bst_for_each (listsOf world task_queue).scheduled_list antd_deploy_task ⟨(listsOf world task_queue).task_queue, []⟩ := by
  have hc : Collects (allExecs world task_queue) _ _ := collect_all task_queue
  unfold antd_scheduler_wait listsOf
  dsimp only
  rw [pollAll_eq hc.polls hc.size, hc.exec]

theorem lists_schedules (h : Keyed (·.id) task_queue) :
    Schedules task_queue (Scheduled world task_queue) (listsOf world task_queue) := by
  have htasks : ∀ task ∈ allExecs world task_queue, bst_find task_queue task.id = some task := by
    intro v hv
    obtain ⟨u, hu, hvu⟩ := List.mem_flatMap.1 hv
    obtain ⟨rfl, -⟩ := mem_execs.1 hvu
    exact h.find hu
  have hitems : ∀ it ∈ allRefs world task_queue, (bst_find task_queue it.task).isSome := by
    intro it hit
    obtain ⟨u, hu, hitu⟩ := List.mem_flatMap.1 hit
    rw [(mem_refs.1 hitu).1, h.find hu]
    rfl
  exact (Schedules.execs h htasks).events (answer world) hitems

/-- The deployed tasks are the scheduled ones. -/
theorem wait_tasks (h : Keyed (·.id) task_queue) (id : Int) :
    (antd_scheduler_wait world task_queue).tasks = (toList (listsOf world task_queue).scheduled_list).map Prod.snd ∧
      bst_find (antd_scheduler_wait world task_queue).task_queue id =
        if id ∈ ((toList (listsOf world task_queue).scheduled_list).map Prod.snd).map (·.id) then none
        else bst_find (listsOf world task_queue).task_queue id := by
  have hs : Schedules task_queue (Scheduled world task_queue) _ := lists_schedules h
  rw [wait_eq, for_each_eq]
  exact deploy_all _ _ hs.keyed.ordered id

/-- What a round does. -/
theorem wait_spec (h : Keyed (·.id) task_queue) :
    ((antd_scheduler_wait world task_queue).tasks.map (·.id)).Nodup ∧
      (∀ v ∈ (antd_scheduler_wait world task_queue).tasks, Queued task_queue v) ∧
      (∀ id task, bst_find task_queue id = some task →
        (id ∈ (antd_scheduler_wait world task_queue).tasks.map (·.id) ↔ Taken world task)) ∧
      ∀ id task, bst_find (antd_scheduler_wait world task_queue).task_queue id = some task ↔
        bst_find task_queue id = some task ∧ ¬ Taken world task := by
  have hs : Schedules task_queue (Scheduled world task_queue) (listsOf world task_queue) := lists_schedules h
  have hids (id : Int) : id ∈ ((toList (listsOf world task_queue).scheduled_list).map Prod.snd).map (·.id) ↔
      Scheduled world task_queue id := by
    rw [← hs.ids id, Option.isSome_iff_exists, List.mem_map]
    constructor
    · rintro ⟨v, hv, rfl⟩
      exact ⟨v, hs.listed.find hv⟩
    · rintro ⟨v, hv⟩
      exact ⟨v, values_of_find hs.listed hv⟩
  rw [(wait_tasks h 0).1]
  refine ⟨hs.listed.nodup, hs.scheduled, fun id task hf => (hids id).trans (scheduled_iff h hf), fun id task => ?_⟩
  rw [(wait_tasks h id).2]
  by_cases hid : Scheduled world task_queue id
  · rw [if_pos ((hids id).2 hid)]
    constructor
    · nofun
    · rintro ⟨hf, hnot⟩
      exact absurd ((scheduled_iff h hf).1 hid) hnot
  · rw [if_neg (fun hm => hid ((hids id).1 hm)), hs.kept id hid]
    constructor
    · intro hf
      exact ⟨hf, fun ht => hid ((scheduled_iff h hf).2 ht)⟩
    · exact And.left

/-! ### Events with a timeout -/

/-- A task that is due whatever its timeouts are. -/
def DueAnyway (world : World) (task : EvtTask) : Prop :=
  task.events = [] ∨ ∃ it ∈ task.events.zipIdx,
    hasFlag it.1.flags TASK_EVT_ALWAY_ON = true ∨ antd_scheduler_validate_data world task it.2 = false ∨
      (hasFlag it.1.flags TASK_EVT_ON_TIMEOUT = false ∧ Reported world task it.2 it.1)

/-- Of the events with a timeout one is taken to be over if and only if one is
over, or has its descriptor reported. -/
def TimeoutsSeen (world : World) (task : EvtTask) : Prop :=
  (∃ it ∈ task.events.zipIdx, hasFlag it.1.flags TASK_EVT_ON_TIMEOUT = true ∧ timedOut world task it.2 it.1 = true) ↔
    ∃ it ∈ task.events.zipIdx, hasFlag it.1.flags TASK_EVT_ON_TIMEOUT = true ∧
      (Elapsed world task it.2 it.1 ∨ Reported world task it.2 it.1)

theorem taken_iff : Taken world task ↔ DueAnyway world task ∨
    ∃ it ∈ task.events.zipIdx, hasFlag it.1.flags TASK_EVT_ON_TIMEOUT = true ∧ timedOut world task it.2 it.1 = true := by
  constructor
  · rintro (hnil | ⟨it, hit, he | ⟨hpoll, hrep⟩⟩)
    · exact .inl (.inl hnil)
    · simp only [executes, Bool.or_eq_true, Bool.not_eq_true', Bool.and_eq_true] at he
      rcases he with (he | he) | he
      · exact .inl (.inr ⟨it, hit, .inl he⟩)
      · exact .inl (.inr ⟨it, hit, .inr (.inl he)⟩)
      · exact .inr ⟨it, hit, he⟩
    · simp only [polled, Bool.and_eq_true, Bool.not_eq_true'] at hpoll
      exact .inl (.inr ⟨it, hit, .inr (.inr ⟨hpoll.2, hrep⟩)⟩)
  · rintro ((hnil | ⟨it, hit, he | he | ⟨htime, hrep⟩⟩) | ⟨it, hit, htime, hout⟩)
    · exact .inl hnil
    · exact .inr ⟨it, hit, .inl (by simp [executes, he])⟩
    · exact .inr ⟨it, hit, .inl (by simp [executes, he])⟩
    · cases hexec : executes world task it with
      | true => exact .inr ⟨it, hit, .inl hexec⟩
      | false =>
        have hpoll : polled world task it = true := by
          simp only [executes, htime, Bool.false_and, Bool.or_false] at hexec
          simp [polled, hexec, htime]
        exact .inr ⟨it, hit, .inr ⟨hpoll, hrep⟩⟩
    · exact .inr ⟨it, hit, .inl (by simp [executes, htime, hout])⟩

theorem due_iff : Due world task ↔ DueAnyway world task ∨
    ∃ it ∈ task.events.zipIdx, hasFlag it.1.flags TASK_EVT_ON_TIMEOUT = true ∧
      (Elapsed world task it.2 it.1 ∨ Reported world task it.2 it.1) := by
  constructor
  · rintro (hnil | ⟨evt, place, hit, he | he | ⟨htime, he⟩ | hrep⟩)
    · exact .inl (.inl hnil)
    · exact .inl (.inr ⟨(evt, place), hit, .inl he⟩)
    · exact .inl (.inr ⟨(evt, place), hit, .inr (.inl he)⟩)
    · exact .inr ⟨(evt, place), hit, htime, .inl he⟩
    · cases htime : hasFlag evt.flags TASK_EVT_ON_TIMEOUT with
      | true => exact .inr ⟨(evt, place), hit, htime, .inr hrep⟩
      | false => exact .inl (.inr ⟨(evt, place), hit, .inr (.inr ⟨htime, hrep⟩)⟩)
  · rintro ((hnil | ⟨it, hit, he | he | ⟨-, hrep⟩⟩) | ⟨it, hit, htime, he | hrep⟩)
    · exact .inl hnil
    · exact .inr ⟨it.1, it.2, hit, .inl he⟩
    · exact .inr ⟨it.1, it.2, hit, .inr (.inl he)⟩
    · exact .inr ⟨it.1, it.2, hit, .inr (.inr (.inr hrep))⟩
    · exact .inr ⟨it.1, it.2, hit, .inr (.inr (.inl ⟨htime, he⟩))⟩
    · exact .inr ⟨it.1, it.2, hit, .inr (.inr (.inr hrep))⟩

/-- A task is treated as it should be. -/
theorem taken_iff_due : (Taken world task ↔ Due world task) ↔ DueAnyway world task ∨ TimeoutsSeen world task := by
  rw [taken_iff, due_iff, TimeoutsSeen]
  by_cases hany : DueAnyway world task
  · simp only [hany, true_or]
  · simp only [hany, false_or]

/-- The tasks that are due are deployed, and no others, if and only if of each
task that is due only by its timeouts these are seen. -/
theorem deploys_iff (h : Keyed (·.id) task_queue) : Deploys world task_queue (antd_scheduler_wait world task_queue) ↔
    ∀ id task, bst_find task_queue id = some task → DueAnyway world task ∨ TimeoutsSeen world task := by
  obtain ⟨hnodup, hqueued, htaken, hrest⟩ : _ ∧ _ ∧ _ ∧ ∀ id task, bst_find (antd_scheduler_wait world _).task_queue _ = _ ↔ _ :=
    wait_spec h
  constructor
  · intro hd id task hf
    rw [← taken_iff_due]
    constructor
    · intro ht
      by_contra hnot
      exact ((hrest id task).1 ((hd.rest id task).2 ⟨hf, hnot⟩)).2 ht
    · intro hdue
      exact (htaken id task hf).1 (hd.all id task hf hdue)
  · intro hseen
    have hiff {id : Int} {task : EvtTask} (hf : bst_find task_queue id = some task) :=
      taken_iff_due.2 (hseen id task hf)
    constructor
    · exact hnodup
    · intro v hv
      obtain ⟨task, hf, hevents⟩ := hqueued v hv
      have ht := (htaken v.id task hf).1 (List.mem_map_of_mem hv)
      exact ⟨task, hf, (hiff hf).1 ht, hevents⟩
    · intro id task hf hdue
      exact (htaken id task hf).2 ((hiff hf).2 hdue)
    · intro id task
      rw [hrest]
      exact and_congr_right fun hf => not_congr (hiff hf)

end

/-! ### Two readers of a descriptor -/

def sampleStamp : Timeval := ⟨1000, 0, by decide, by decide⟩

/-- Data has come on descriptor 5. -/
def sampleWorld : World where
  scheduler_timeout := 30
  time _ _ := 1000
  gettimeofday _ _ := sampleStamp
  state _ _ fd := if fd = 5 then POLLIN else 0

def reader : EvtTask := ⟨2, 1000, some .resolve_request, [⟨TASK_EVT_ON_READABLE, 5, sampleStamp, 0⟩]⟩

/-- It waits for data for half a second at most. -/
def timedReader : EvtTask :=
  ⟨1, 1000, some .resolve_request, [⟨TASK_EVT_ON_READABLE ||| TASK_EVT_ON_TIMEOUT, 5, sampleStamp, 500⟩]⟩

/-- Nothing has come on its descriptor. -/
def idleReader : EvtTask := ⟨3, 1000, some .resolve_request, [⟨TASK_EVT_ON_READABLE, 6, sampleStamp, 0⟩]⟩

def waiting : Node EvtTask := bst_insert (bst_insert .nil reader.id reader) idleReader.id idleReader

/-- One of two is deployed, and the other is left. -/
theorem reader_deployed : Keyed (·.id) waiting ∧ (antd_scheduler_wait sampleWorld waiting).tasks = [reader] ∧
    bst_find (antd_scheduler_wait sampleWorld waiting).task_queue 3 = some idleReader ∧
    Deploys sampleWorld waiting (antd_scheduler_wait sampleWorld waiting) := by
  have hreader : Keyed (·.id) (bst_insert .nil reader.id reader) := (Keyed.nil _).insert reader
  have hkeyed : Keyed (·.id) waiting := hreader.insert idleReader
  refine ⟨hkeyed, rfl, rfl, (deploys_iff hkeyed).2 fun id task hf => ?_⟩
  rw [waiting, find_insert hreader.ordered] at hf
  split at hf
  · -- it has no timeout
    cases hf
    right
    constructor <;>
    · rintro ⟨it, hit, hflag, -⟩
      obtain rfl : it = (⟨TASK_EVT_ON_READABLE, 6, sampleStamp, 0⟩, 0) := List.mem_singleton.1 hit
      cases hflag
  · rw [find_insert ordered_nil] at hf
    split at hf
    · cases hf
      exact .inl (.inr ⟨_, List.mem_cons_self, .inr (.inr ⟨by decide, .inl (by decide)⟩)⟩)
    · cases hf

def readers : Node EvtTask := bst_insert (bst_insert .nil reader.id reader) timedReader.id timedReader

/-- Both are due, one is deployed. -/
theorem timedReader_left : Keyed (·.id) readers ∧ bst_find readers 1 = some timedReader ∧ Due sampleWorld timedReader ∧
    (antd_scheduler_wait sampleWorld readers).tasks = [reader] ∧
    ¬ Deploys sampleWorld readers (antd_scheduler_wait sampleWorld readers) := by
  have hkeyed : Keyed (·.id) readers := ((Keyed.nil _).insert reader).insert timedReader
  have hf : bst_find readers 1 = some timedReader := rfl
  have hdue : Due sampleWorld timedReader := .inr ⟨_, 0, List.mem_cons_self, .inr (.inr (.inr (.inl (by decide))))⟩
  have htasks : (antd_scheduler_wait sampleWorld readers).tasks = [reader] := rfl
  refine ⟨hkeyed, hf, hdue, htasks, fun h => ?_⟩
  have hmem := h.all 1 timedReader hf hdue
  rw [htasks] at hmem
  revert hmem
  decide

/-! ### The clock -/

/-- The difference is computed without overflow in 64 bits. -/
theorem Timeval.since_bounds (now stamp : Timeval) : -(2 : Int) ^ 63 ≤ now.since stamp ∧ now.since stamp < 2 ^ 63 := by
  have hn := now.sec
  have hs := stamp.sec
  have hnu := now.usec
  have hsu := stamp.usec
  unfold Timeval.since
  omega

/-- Up to 2147483647 milliseconds after it was bound a timeout is over when
its milliseconds have passed. -/
theorem timedOut_iff_elapsed {world : World} {task : EvtTask} {place : Nat} {evt : EvtItem}
    (h : 0 ≤ (world.gettimeofday task.id place).since evt.stamp)
    (hlt : (world.gettimeofday task.id place).since evt.stamp < 2147483648000) :
    timedOut world task place evt = true ↔ Elapsed world task place evt := by
  unfold timedOut Elapsed
  generalize (world.gettimeofday task.id place).since evt.stamp = since at h hlt ⊢
  have hdiv : since.tdiv 1000 = since / 1000 := Int.tdiv_eq_ediv_of_nonneg h
  have hint : int32 (since / 1000) = since / 1000 := int32_eq (by omega) (by omega)
  rw [hdiv, hint]
  simp only [ge_iff_le, decide_eq_true_eq]
  omega

/-! ## The server's steps -/

/-- What the server keeps of an event. -/
def EvtItem.event (evt : EvtItem) : TaskEvent where
  fd := evt.fd
  timeout := evt.timeout.toNat
  always_on := hasFlag evt.flags TASK_EVT_ALWAY_ON
  readable := hasFlag evt.flags TASK_EVT_ON_READABLE
  writable := hasFlag evt.flags TASK_EVT_ON_WRITABLE
  on_timeout := hasFlag evt.flags TASK_EVT_ON_TIMEOUT

/-- The task of the server, with what a round does not look at. -/
def EvtTask.own (callback : Int → List Handler) (data : Int → Nat) (task : EvtTask) : OwnedTask where
  handle := task.handle
  callback := callback task.id
  access_time := task.access_time
  events := task.events.map EvtItem.event
  id := task.id
  data := data task.id

def toPoll (revents : BitVec 16) : Poll :=
  .ready (hasFlag revents POLLIN) (hasFlag revents POLLOUT) (hasFlag revents POLLERR) (hasFlag revents POLLHUP) false
    (hasFlag revents POLLNVAL)

/-- A server whose clocks are read once for each task. -/
structure Agrees (world : World) (cnf : Config) (now : Int → Int) (elapsed : TaskEvent → Bool) (task : EvtTask) : Prop where
  limit : (cnf.scheduler_timeout : Int) = world.scheduler_timeout
  time : ∀ place, world.time task.id place = now task.id
  elapsed : ∀ it ∈ task.events.zipIdx, elapsed it.1.event = timedOut world task it.2 it.1

section

variable {world : World} {cnf : Config} {now : Int → Int} {elapsed : TaskEvent → Bool}
  {callback : Int → List Handler} {data : Int → Nat} {task : EvtTask} {c : Collected} {items : List EvtRef}

/-- The server has collected the same. -/
def Mirrors (callback : Int → List Handler) (data : Int → Nat) (c : Collected) (items : List EvtRef)
    (acc : Node OwnedTask × List (TaskEvent × Int)) : Prop :=
  acc = (map (EvtTask.own callback data) c.exec_list, items.map fun it => (it.evt.event, it.task))

/-- One event of `Server.task_event_collect`. -/
def serverEvent (valid : OwnedTask → Bool) (elapsed : TaskEvent → Bool) (task : OwnedTask)
    (acc : Node OwnedTask × List (TaskEvent × Int)) (evt : TaskEvent) : Node OwnedTask × List (TaskEvent × Int) :=
  if evt.always_on || !valid task then (bst_insert acc.1 task.id task, acc.2)
  else if evt.on_timeout then (if elapsed evt then (bst_insert acc.1 task.id task, acc.2) else acc)
  else (acc.1, acc.2 ++ [(evt, task.id)])

def serverValid (cnf : Config) (now : Int → Int) (task : OwnedTask) : Bool :=
  Server.antd_scheduler_validate_data cnf (now task.id) task

theorem Agrees.valid (h : Agrees world cnf now elapsed task) (place : Nat) :
    serverValid cnf now (task.own callback data) = antd_scheduler_validate_data world task place := by
  unfold serverValid Server.antd_scheduler_validate_data antd_scheduler_validate_data
  rw [h.time, ← h.limit]
  rfl

variable {acc : Node OwnedTask × List (TaskEvent × Int)}

theorem Mirrors.event (h : Mirrors callback data c items acc) (hagrees : Agrees world cnf now elapsed task)
    {it : EvtItem × Nat} (hit : it ∈ task.events.zipIdx) :
    Mirrors callback data (collectEvent world task c it)
      (items ++ if polled world task it then [⟨task.id, it.2, it.1⟩] else [])
      (serverEvent (serverValid cnf now) elapsed (task.own callback data) acc it.1.event) := by
  unfold Mirrors at h ⊢
  unfold collectEvent serverEvent polled
  rw [hagrees.valid it.2, hagrees.elapsed it hit, h]
  have hexec : bst_insert (map (EvtTask.own callback data) c.exec_list) (task.own callback data).id (task.own callback data) =
      map (EvtTask.own callback data) (bst_insert c.exec_list task.id task) := (map_insert ..).symm
  simp only [EvtItem.event, hexec]
  cases hasFlag it.1.flags TASK_EVT_ALWAY_ON || !antd_scheduler_validate_data world task it.2 with
  | true => simp
  | false =>
    cases htime : hasFlag it.1.flags TASK_EVT_ON_TIMEOUT with
    | true => cases timedOut world task it.2 it.1 <;> simp
    | false => simp [EvtTask.own, htime]

theorem Mirrors.events (hagrees : Agrees world cnf now elapsed task) (l : List (EvtItem × Nat))
    (hl : l ⊆ task.events.zipIdx) (h : Mirrors callback data c items acc) :
    Mirrors callback data (l.foldl (collectEvent world task) c)
      (items ++ (l.filter (polled world task)).map fun it => ⟨task.id, it.2, it.1⟩)
      ((l.map fun it => it.1.event).foldl (serverEvent (serverValid cnf now) elapsed (task.own callback data)) acc) := by
  induction l generalizing items c acc with
  | nil => simpa using h
  | cons it l ih =>
    have hnext := ih (fun p hp => hl (List.mem_cons_of_mem _ hp)) (h.event hagrees (hl List.mem_cons_self))
    rw [List.map_cons, List.foldl_cons, List.foldl_cons, List.filter_cons]
    cases hp : polled world task it <;> simpa [hp] using hnext

theorem Mirrors.of_task (h : Mirrors callback data c items acc) (hagrees : Agrees world cnf now elapsed task) (key : Int) :
    Mirrors callback data (task_event_collect world c key task) (items ++ refs world task)
      (Server.task_event_collect (serverValid cnf now) elapsed acc (task.own callback data)) := by
  unfold refs task_event_collect Server.task_event_collect
  cases hevents : task.events with
  | nil =>
    unfold Mirrors at h ⊢
    have hown : (task.own callback data).events = [] := by rw [EvtTask.own, hevents, List.map_nil]
    rw [if_pos hown, h]
    simp only [List.isEmpty_nil, if_true, map_insert, List.zipIdx_nil, List.filter_nil, List.map_nil, List.append_nil]
    rfl
  | cons evt events =>
    have hfst : (evt :: events).zipIdx.map Prod.fst = evt :: events := List.zipIdx_map_fst 0 _
    have hown : (task.own callback data).events = (evt :: events).zipIdx.map fun it => it.1.event := by
      calc (task.own callback data).events = (evt :: events).map EvtItem.event := congrArg _ hevents
        _ = ((evt :: events).zipIdx.map Prod.fst).map EvtItem.event := by rw [hfst]
        _ = _ := List.map_map
    have hne : (task.own callback data).events ≠ [] := by
      rw [hown]
      simp
    simp only [List.isEmpty_cons, Bool.false_eq_true, if_false]
    rw [if_neg hne, hown]
    exact h.events hagrees _ (by rw [hevents]; exact List.Subset.refl _)

theorem Mirrors.queue (h : Mirrors callback data c items acc) (l : List (Int × EvtTask))
    (hagrees : ∀ e ∈ l, Agrees world cnf now elapsed e.2) :
    Mirrors callback data (l.foldl (fun c e => task_event_collect world c e.1 e.2) c)
      (items ++ (l.map Prod.snd).flatMap (refs world))
      ((l.map fun e => e.2.own callback data).foldl (Server.task_event_collect (serverValid cnf now) elapsed) acc) := by
  induction l generalizing items c acc with
  | nil => simpa using h
  | cons e l ih =>
    rw [List.map_cons, List.map_cons, List.flatMap_cons, ← List.append_assoc]
    exact ih (h.of_task (hagrees e List.mem_cons_self) e.1) fun e he => hagrees e (List.mem_cons_of_mem _ he)

variable {lists : Lists}

def Lists.own (callback : Int → List Handler) (data : Int → Nat) (lists : Lists) : Node OwnedTask × Node OwnedTask :=
  (map (EvtTask.own callback data) lists.task_queue, map (EvtTask.own callback data) lists.scheduled_list)

theorem server_pollEvent {l : Node OwnedTask × Node OwnedTask} {evt : TaskEvent} {id : Int} {task : OwnedTask}
    (h : bst_find l.1 id = some task) (revents : BitVec 16) : Server.pollEvent l ((evt, id), toPoll revents) =
      if evt.readable && hasFlag revents POLLIN || evt.writable && hasFlag revents POLLOUT then
        (l.1, bst_insert l.2 task.id task)
      else if hasFlag revents POLLERR || hasFlag revents POLLHUP then
        (bst_insert l.1 task.id { task with access_time := 0, handle := none },
          bst_insert l.2 task.id { task with access_time := 0, handle := none })
      else l := by
  unfold Server.pollEvent toPoll
  rw [h]

theorem pollEvent_own (lists : Lists) (it : EvtRef) (revents : BitVec 16) :
    Server.pollEvent (lists.own callback data) ((it.evt.event, it.task), toPoll revents) =
      (pollEvent lists it revents).own callback data := by
  have hfind : bst_find (lists.own callback data).1 it.task =
      (bst_find lists.task_queue it.task).map (EvtTask.own callback data) := map_find ..
  unfold pollEvent
  cases htask : bst_find lists.task_queue it.task with
  | none =>
    rw [htask] at hfind
    unfold Server.pollEvent
    rw [hfind]
    rfl
  | some task =>
    rw [htask] at hfind
    rw [server_pollEvent hfind]
    have hreadable : it.evt.event.readable = hasFlag it.evt.flags TASK_EVT_ON_READABLE := rfl
    have hwritable : it.evt.event.writable = hasFlag it.evt.flags TASK_EVT_ON_WRITABLE := rfl
    rw [hreadable, hwritable]
    dsimp only
    split
    · simp only [Lists.own, map_insert]
      rfl
    · split
      · simp only [Lists.own, map_insert]
        rfl
      · rfl

theorem pollAll_own (items : List EvtRef) (revents : EvtRef → BitVec 16) (lists : Lists) :
    ((items.map fun it => (it.evt.event, it.task)).zip (items.map fun it => toPoll (revents it))).foldl Server.pollEvent
      (lists.own callback data) =
      (items.foldl (fun lists it => pollEvent lists it (revents it)) lists).own callback data := by
  induction items generalizing lists with
  | nil => rfl
  | cons it items ih =>
    rw [List.map_cons, List.map_cons, List.zip_cons_cons, List.foldl_cons, List.foldl_cons, pollEvent_own, ih]

theorem listsOf_own (task_queue : Node EvtTask) :
    (((allRefs world task_queue).map fun it => (it.evt.event, it.task)).zip
      ((allRefs world task_queue).map fun it => toPoll (answer world it))).foldl Server.pollEvent
        (map (EvtTask.own callback data) task_queue, map (EvtTask.own callback data) (listAll .nil (allExecs world task_queue))) =
      (listsOf world task_queue).own callback data :=
  pollAll_own (allRefs world task_queue) (answer world) ⟨task_queue, listAll .nil (allExecs world task_queue)⟩

/-- The two steps of the server are this round, up to where it deploys the tasks. -/
theorem server_round {s : Server} {task_queue : Node EvtTask} (hround : s.round = .deploying [])
    (hbusy : s.isBusy .scheduler = false) (hqueue : s.sched.task_queue = map (EvtTask.own callback data) task_queue)
    (hkeyed : Keyed (·.id) task_queue) (hagrees : ∀ e ∈ toList task_queue, Agrees world cnf now elapsed e.2) :
    ∃ s₁ s₂ revents, s.collect cnf now elapsed = some s₁ ∧ s₁.poll revents = some s₂ ∧
      s₂.round = .deploying ((antd_scheduler_wait world task_queue).tasks.map (EvtTask.own callback data)) := by
  have hvalues : (toList s.sched.task_queue).map Prod.snd = (toList task_queue).map fun e => e.2.own callback data := by
    rw [hqueue, toList_map, List.map_map]
    rfl
  have hstart : Mirrors callback data ⟨.nil, .nil, 0⟩ [] (.nil, []) := rfl
  have hc : Collects (allExecs world task_queue) _ _ := collect_all task_queue
  have hm := hstart.queue (toList task_queue) hagrees
  rw [← hvalues, ← for_each_eq] at hm
  unfold Mirrors at hm
  rw [hc.exec, List.nil_append] at hm
  have hcollect : s.collect cnf now elapsed = some { s with
      round := .polling (map (EvtTask.own callback data) (listAll .nil (allExecs world task_queue)))
        ((allRefs world task_queue).map fun it => (it.evt.event, it.task)) } := by
    unfold Server.collect
    rw [hround, hbusy]
    exact congrArg (fun r => some { s with round := .polling r.1 r.2 }) hm
  refine ⟨_, _, (allRefs world task_queue).map fun it => toPoll (answer world it), hcollect, rfl, ?_⟩
  dsimp only
  rw [hqueue, listsOf_own, Lists.own, (wait_tasks hkeyed 0).1, toList_map]
  simp only [List.map_map]
  rfl

end

end Polling

end AntHttp
