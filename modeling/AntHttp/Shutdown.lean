import AntHttp.Bst
import Mathlib.Data.List.Perm.Basic
/-!
# What is left at shutdown (`antd_scheduler_destroy` in `lib/scheduler.c`)

The tree of pending tasks and the queue of the workers are taken apart, each
task with its callbacks and events. `bst_free_cb` calls itself through the
macro `bst_free`, which passes no callback on: the nodes are all freed, but of
the tasks only the root's is destroyed.
-/

namespace AntHttp.Shutdown

open Bst

/-! ## The code -/

/-- A tree's node or a queue's item: where it is and the pointer it holds. -/
structure Slot where
  addr : Nat
  ptr : Option Nat

/-- A function is called on what a pointer points to, or that is freed. -/
inductive Op (F : Type) where
  | call (cb : F) (data : Nat)
  | free (p : Nat)

/-- `if(root->data && cb) cb(root->data)` -/
def callBack {F : Type} (cb : Option F) (data : Option Nat) : List (Op F) :=
  match cb, data with
  | some cb, some data => [.call cb data]
  | _, _ => []

def bst_free_cb {F : Type} (root : Node Slot) (cb : Option F) : List (Op F) :=
  match root with
  | .nil => []
  | .node _ slot left right =>
    -- `bst_free(n)` stands for `bst_free_cb(n, NULL)`
    bst_free_cb left none ++ bst_free_cb right none ++ callBack cb slot.ptr ++ [.free slot.addr]

inductive Callback where
  | destroy_task

/-- `destroy_task` does nothing for NULL, and `free` is not called on it. -/
def destroy_queue (q : List Slot) (is_task : Bool) : List (Op Callback) :=
  q.flatMap fun it => it.ptr.toList.map (fun p => if is_task then .call .destroy_task p else .free p) ++ [.free it.addr]

/-- What a task owns: the callbacks of its chain and its events. -/
structure Parts where
  callback : List Nat
  events : List Slot

/-- What the operations free themselves. -/
def frees {F : Type} (ops : List (Op F)) : List Nat :=
  ops.filterMap fun
    | .free p => some p
    | .call .. => none

/-- What a function is called on. -/
def calls {F : Type} (ops : List (Op F)) : List Nat :=
  ops.filterMap fun
    | .free _ => none
    | .call _ data => some data

/-- What `destroy_task` frees of the task at `p`. -/
def destroy_task (heap : Nat → Parts) (p : Nat) : List Nat :=
  (heap p).callback ++ frees (destroy_queue (heap p).events false) ++ [p]

/-- What `stop` leaves of `antd_scheduler_t`; no thread uses it any more. -/
structure Stopped where
  addr : Nat
  task_queue : Node Slot
  workers_queue : List Slot

def antd_scheduler_destroy : Option Stopped → List (Op Callback)
  | none => []
  | some s => bst_free_cb s.task_queue (some .destroy_task) ++ destroy_queue s.workers_queue true ++ [.free s.addr]

/-- Everything that is freed, the parts of the tasks included. -/
def freed (heap : Nat → Parts) (ops : List (Op Callback)) : List Nat :=
  ops.flatMap fun
    | .free p => [p]
    | .call .destroy_task p => destroy_task heap p

/-! ## What it is for -/

def nodes (t : Node Slot) : List Nat := (toList t).map fun e => e.2.addr

/-- The non-NULL data of the nodes. -/
def held (t : Node Slot) : List Nat := (toList t).filterMap fun e => e.2.ptr

def queued (q : List Slot) : List Nat := q.filterMap Slot.ptr

/-- Every node and item is freed once, and every task they hold is destroyed once. -/
structure DestroysAll (s : Stopped) : Prop where
  nodes : (frees (bst_free_cb s.task_queue (some Callback.destroy_task))).Perm (nodes s.task_queue)
  data : (calls (bst_free_cb s.task_queue (some Callback.destroy_task))).Perm (held s.task_queue)
  items : (frees (destroy_queue s.workers_queue true)).Perm (s.workers_queue.map Slot.addr)
  queued : (calls (destroy_queue s.workers_queue true)).Perm (queued s.workers_queue)
  tasks : (calls (antd_scheduler_destroy (some s))).Perm (held s.task_queue ++ Shutdown.queued s.workers_queue)

/-- The non-NULL data of the nodes below the root. -/
def below : Node Slot → List Nat
  | .nil => []
  | .node _ _ left right => held left ++ held right

/-! ## The tree -/

section Tree

variable {F : Type} {cb : F} {t : Node Slot}

theorem frees_append (a b : List (Op F)) : frees (a ++ b) = frees a ++ frees b := List.filterMap_append

theorem calls_append (a b : List (Op F)) : calls (a ++ b) = calls a ++ calls b := List.filterMap_append

theorem frees_callBack (cb : Option F) (data : Option Nat) : frees (callBack cb data) = [] := by
  cases cb <;> cases data <;> rfl

theorem calls_callBack_none (data : Option Nat) : calls (callBack (none : Option F) data) = [] := by
  cases data <;> rfl

theorem calls_callBack (data : Option Nat) : calls (callBack (some cb) data) = data.toList := by
  cases data <;> rfl

/-- Whatever the callback is, every node is freed once. -/
theorem frees_bst_free_cb (cb : Option F) : (frees (bst_free_cb t cb)).Perm (nodes t) := by
  induction t generalizing cb with
  | nil => exact .nil
  | node key slot left right ihl ihr =>
    have hnodes : nodes (.node key slot left right) = nodes left ++ slot.addr :: nodes right := by
      simp [nodes, toList]
    rw [bst_free_cb, frees_append, frees_append, frees_append, frees_callBack, List.append_nil, hnodes, List.append_assoc]
    apply (ihl none).append
    exact ((ihr none).append_right _).trans (List.perm_append_singleton _ _)

theorem calls_bst_free (t : Node Slot) : calls (bst_free_cb t (none : Option F)) = [] := by
  induction t with
  | nil => rfl
  | node key slot left right ihl ihr =>
    rw [bst_free_cb, calls_append, calls_append, calls_append, ihl, ihr, calls_callBack_none]
    rfl

/-- The callback is called on the root's data only. -/
theorem calls_bst_free_cb (key : Int) (slot : Slot) (left right : Node Slot) :
    calls (bst_free_cb (.node key slot left right) (some cb)) = slot.ptr.toList := by
  rw [bst_free_cb, calls_append, calls_append, calls_append, calls_bst_free, calls_bst_free, calls_callBack]
  exact List.append_nil _

/-- What the callback is called on and what it misses. -/
theorem calls_below (cb : F) (t : Node Slot) : (calls (bst_free_cb t (some cb)) ++ below t).Perm (held t) := by
  cases t with
  | nil => exact .nil
  | node key slot left right =>
    have hheld : held (.node key slot left right) = held left ++ (slot.ptr.toList ++ held right) := by
      cases hp : slot.ptr <;> simp [held, toList, hp]
    rw [calls_bst_free_cb, hheld, below, ← List.append_assoc, ← List.append_assoc]
    exact List.perm_append_comm.append_right _

theorem calls_perm_iff : (calls (bst_free_cb t (some cb))).Perm (held t) ↔ below t = [] := by
  constructor
  · intro h
    have hlen := (calls_below cb t).length_eq
    rw [List.length_append, h.length_eq] at hlen
    exact List.length_eq_zero_iff.1 (by omega)
  · intro h
    have hall := calls_below cb t
    rwa [h, List.append_nil] at hall

end Tree

/-! ## The queue -/

section Queue

variable {q : List Slot}

theorem frees_destroy_queue : frees (destroy_queue q true) = q.map Slot.addr := by
  induction q with
  | nil => rfl
  | cons it q ih =>
    rw [destroy_queue, List.flatMap_cons, frees_append, List.map_cons, ← ih]
    cases it.ptr <;> rfl

theorem calls_destroy_queue : calls (destroy_queue q true) = queued q := by
  induction q with
  | nil => rfl
  | cons it q ih =>
    rw [destroy_queue, List.flatMap_cons, calls_append]
    change _ ++ calls (destroy_queue q true) = _
    rw [ih, queued, queued]
    cases hp : it.ptr <;> simp [calls, hp]

end Queue

/-! ## The scheduler -/

section Scheduler

variable {heap : Nat → Parts} {s : Stopped}

theorem calls_destroy : calls (antd_scheduler_destroy (some s)) =
    calls (bst_free_cb s.task_queue (some Callback.destroy_task)) ++ queued s.workers_queue := by
  rw [antd_scheduler_destroy, calls_append, calls_append, calls_destroy_queue]
  exact List.append_nil _

/-- Every task is destroyed once if and only if none is in a node below the root; the nodes and the items are freed and
the queue's tasks destroyed in any case. -/
theorem antd_scheduler_destroy_iff (s : Stopped) : DestroysAll s ↔ below s.task_queue = [] := by
  constructor
  · intro h
    exact calls_perm_iff.1 h.data
  · intro h
    have hdata : (calls (bst_free_cb s.task_queue (some Callback.destroy_task))).Perm (held s.task_queue) := calls_perm_iff.2 h
    exact {
      nodes := frees_bst_free_cb _
      data := hdata
      items := by rw [frees_destroy_queue]
      queued := by rw [calls_destroy_queue]
      tasks := by rw [calls_destroy]; exact hdata.append_right _ }

/-- Two tasks wait, each with an id of its own: one of them is below the root. -/
theorem two_tasks_left : ¬ ∀ s : Stopped, DestroysAll s := by
  intro h
  let tree : Node Slot := bst_insert (bst_insert .nil 1 ⟨10, some 11⟩) 2 ⟨20, some 21⟩
  have hbelow : below tree = [] := calls_perm_iff.1 (h ⟨0, tree, []⟩).data
  cases hbelow

/-! ## What stays allocated -/

/-- All that the scheduler has to free. -/
def owned (heap : Nat → Parts) (s : Stopped) : List Nat :=
  nodes s.task_queue ++ s.workers_queue.map Slot.addr ++ [s.addr] ++
    (held s.task_queue ++ queued s.workers_queue).flatMap (destroy_task heap)

theorem freed_perm (ops : List (Op Callback)) : (freed heap ops).Perm (frees ops ++ (calls ops).flatMap (destroy_task heap)) := by
  induction ops with
  | nil => exact .nil
  | cons op ops ih =>
    cases op with
    | free p => exact ih.cons p
    | call cb p =>
      cases cb
      have hcall : (destroy_task heap p ++ freed heap ops).Perm
          (destroy_task heap p ++ frees ops ++ (calls ops).flatMap (destroy_task heap)) := by
        rw [List.append_assoc]
        exact ih.append_left _
      refine hcall.trans ((List.perm_append_comm.append_right _).trans (List.Perm.of_eq ?_))
      exact List.append_assoc _ _ _

/-- What is freed and what the tasks below the root own is everything. -/
theorem freed_and_left (heap : Nat → Parts) (s : Stopped) :
    (freed heap (antd_scheduler_destroy (some s)) ++ (below s.task_queue).flatMap (destroy_task heap)).Perm (owned heap s) := by
  have hfrees : (frees (antd_scheduler_destroy (some s))).Perm
      (nodes s.task_queue ++ s.workers_queue.map Slot.addr ++ [s.addr]) := by
    rw [antd_scheduler_destroy, frees_append, frees_append, frees_destroy_queue]
    exact ((frees_bst_free_cb _).append_right _).append_right _
  have hcalls : (calls (antd_scheduler_destroy (some s)) ++ below s.task_queue).Perm
      (held s.task_queue ++ queued s.workers_queue) := by
    rw [calls_destroy, List.append_assoc]
    refine (List.perm_append_comm.append_left _).trans ?_
    rw [← List.append_assoc]
    exact (calls_below _ _).append_right _
  refine ((freed_perm _).append_right _).trans ?_
  rw [List.append_assoc, ← List.flatMap_append]
  exact hfrees.append (hcalls.flatMap_right _)

/-- Nothing is freed twice, and of what the scheduler has to free the parts of the tasks below the root stay. -/
theorem left_iff (h : (owned heap s).Nodup) : (freed heap (antd_scheduler_destroy (some s))).Nodup ∧
    ∀ p ∈ owned heap s, p ∉ freed heap (antd_scheduler_destroy (some s)) ↔ ∃ task ∈ below s.task_queue, p ∈ destroy_task heap task := by
  have hall := freed_and_left heap s
  obtain ⟨hfreed, -, hdisjoint⟩ := List.nodup_append.1 (hall.nodup_iff.2 h)
  refine ⟨hfreed, fun p hp => ?_⟩
  rw [← List.mem_flatMap]
  constructor
  · intro hnot
    exact (List.mem_append.1 (hall.mem_iff.2 hp)).resolve_left hnot
  · intro hleft hin
    exact hdisjoint p hin p hleft rfl

end Scheduler

end AntHttp.Shutdown
