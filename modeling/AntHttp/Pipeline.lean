import AntHttp.Lib.Runs
import AntHttp.Server
/-!
# The life of one request

A connection is accepted with a task for `accept_request` and the callback
`finish_request` (`antd_monitor`); from then on each task's handler returns what
runs next and `antd_execute_task` passes the callbacks on (`lib/scheduler.c`).
Here one request is followed on its own, for any behaviour of its
surroundings.
-/

namespace AntHttp

open CString

/-! ## Handlers -/

/-- A task made by a plugin runs functions of plugins. -/
def pluginTask (t : Option (Bytes × Nat) × List (Bytes × Nat) × Int × List TaskEvent) : Task :=
  let fn (p : Bytes × Nat) := Handler.plugin p.1 p.2
  ⟨t.1.map fn, t.2.1.map fn, t.2.2.1, t.2.2.2⟩

/-- A plugin may change anything but the record of what the server did. -/
def keepRecord (rq rq' : Request) : Request :=
  { rq' with
    client.answers := rq.client.answers, host := rq.host, producer := rq.producer, loads := rq.loads
    stored := rq.stored, files := rq.files, closed := rq.closed }

/-- What the handler of a task returns, and the request it leaves; `finish_request` leaves none. -/
def callHandler (sys : Sys) (cnf : Config) (rq : Request) : Handler → Res (Option Task × Option Request)
  | .accept_request => (accept_request sys rq).map fun p => (some p.1, some p.2)
  | .decode_request_header => (decode_request_header sys cnf rq).map fun p => (some p.1, some p.2)
  | .decode_request => (decode_request sys rq).map fun p => (some p.1, some p.2)
  | .resolve_request => (resolve_request sys cnf rq).map fun p => (some p.1, some p.2)
  | .serve_file => (serve_file sys rq).map fun p => (some p.1, some p.2)
  | .proxify => (proxify sys rq).map fun p => (some p.1, some p.2)
  | .proxy_monitor => (proxy_monitor sys rq).map fun p => (some p.1, some p.2)
  | .decode_post_request => (decode_post_request rq).map fun p => (some p.1, some p.2)
  | .decode_multi_part_request_data =>
    (decode_multi_part_request_data sys cnf rq).map fun p => (some p.1, some p.2)
  | .finish_request => .ok (none, none)
  | .plugin name fn =>
    let r := sys.plugin name fn rq
    .ok (r.task.map pluginTask, some (keepRecord rq r.rq))

/-! ## Continuations -/

/-- The task that is queued again; without a callback the task is destroyed. -/
def execute_callback (task : Task) : Option Task :=
  match task.callback with
  | cb :: next => some { task with handle := some cb, callback := next }
  | [] => none

/-- The task that is queued after `task` has returned `ret`. -/
def antd_execute_task (task : Task) : Option Task → Option Task
  | none => execute_callback task
  | some rtask =>
    let rtask := { rtask with callback := rtask.callback ++ task.callback }
    if rtask.handle.isSome then some rtask else execute_callback rtask

/-! ## Runs -/

/-- A request and the task that owns it. -/
structure Conn where
  task : Task
  rq : Request

/-- The request and the task of a new connection. -/
def antd_monitor (pcnf : PortConfig) (client_sock : Int) (now : Int) (input : List RecvEv) (output : List SendEv) :
    Conn where
  rq := {
    client := ⟨client_sock, pcnf.usessl, .ACCEPT, now, .CNONE, input, output, [], []⟩
    context := none
    REQUEST_HEADER := some .dict, REQUEST_DATA := some .dict, COOKIE := none
    SERVER_PORT := some (decimal pcnf.port), SERVER_WWW_ROOT := some pcnf.htdocs
    METHOD := none, PROTOCOL := none, REQUEST_QUERY := none, REQUEST_PATH := none, REQUEST_URI := none
    RESOURCE_PATH := none, RESOURCE_MIME := none, MULTI_PART_BOUNDARY := none
    PROXY_HOST := none, PROXY_PORT := none, PROXY_PATH := none, PROXY_QUERY := none, PROXY_HANDLE := none
    web_socket := none, host := none, producer := none, loads := [], stored := 0, files := [], closed := [] }
  task := (antd_create_task (some .accept_request) (some .finish_request) now).bindIo client_sock true true

/-- Runs the connection's task: the connection goes on, or its request is gone. -/
def execute (sys : Sys) (cnf : Config) (c : Conn) : Res (Option Conn) := do
  let (ret, rq) ← callHandler sys cnf c.rq (← deref c.task.handle)
  return (antd_execute_task c.task ret).bind fun task => rq.map fun rq => ⟨task, rq⟩

/-- `execute` where it leaves a connection. -/
def Conn.step (cnf : Config) (sys : Sys) (c : Conn) : Option Conn :=
  match execute sys cnf c with
  | .ok next => next
  | .error _ => none

/-- A new connection on a port of the configuration. -/
def Conn.Accepted (cnf : Config) (c : Conn) : Prop :=
  ∃ pcnf sock now input output, (cnf.ports.dvalue (decimal pcnf.port)).isSome ∧
    c = antd_monitor pcnf sock now input output

/-- The states of every connection, whatever its surroundings do. -/
abbrev Conn.Reachable (cnf : Config) : Conn → Prop := Runs.Reachable (Conn.step cnf) (Conn.Accepted cnf)

end AntHttp
