import AntHttp.Handle
import AntHttp.Utils
/-!
# A request, its tasks and what surrounds them

The dictionary `rq->request` has a fixed set of keys and is a record of
pointers. What the plugins and the HTML pages read of it and the handlers do
not (`REMOTE_ADDR`) is left out. The fields after the keys record what the handlers
did on behalf of the request.
-/

namespace AntHttp

open CString

/-! ## Configuration -/

/-- `port_config_t` -/
structure PortConfig where
  port : Nat
  usessl : Bool
  htdocs : Bytes
  plugins : Option Bytes
  /-- One bucket, so the rules are visited in the order of the file. -/
  rules : Dictionary Bytes

/-- `config_t` -/
structure Config where
  ports : Dictionary PortConfig
  handlers : Dictionary Bytes
  mimes : Dictionary Bytes
  tmpdir : Bytes
  max_upload_size : Int
  scheduler_timeout : Int
  n_workers : Int

/-! ## Tasks -/

/-- The functions a task can run; a plugin has functions of its own, number 0
being the one it exports as `handle`. -/
inductive Handler where
  | accept_request | decode_request_header | decode_request | resolve_request | serve_file | proxify
  | proxy_monitor | decode_post_request | decode_multi_part_request_data | finish_request
  | plugin (name : Bytes) (fn : Nat)
  deriving DecidableEq

structure TaskEvent where
  fd : Int
  timeout : Nat
  always_on : Bool
  readable : Bool
  writable : Bool
  on_timeout : Bool
  deriving DecidableEq

/-- `antd_task_t` without its id and its data. -/
structure Task where
  handle : Option Handler
  callback : List Handler
  access_time : Int
  events : List TaskEvent
  deriving DecidableEq

def antd_create_task (handle : Option Handler) (callback : Option Handler) (atime : Int) : Task :=
  ⟨handle, callback.toList, atime, []⟩

/-- Binds to a descriptor becoming readable, writable or either. -/
def Task.bindIo (task : Task) (fd : Int) (readable writable : Bool) : Task :=
  { task with events := task.events ++ [⟨fd, 0, false, readable, writable, false⟩] }

def Task.bindTimeout (task : Task) (fd : Int) (timeout : Nat) : Task :=
  { task with events := task.events ++ [⟨fd, timeout, false, false, false, true⟩] }

/-! ## The request -/

/-- `antd_plugin_ctx_t`, as far as the server looks at it. -/
structure Plugin where
  name : Bytes
  raw_body : Bool
  deriving DecidableEq

/-- `antd_request_t` -/
structure Request where
  client : Client
  context : Option Plugin
  REQUEST_HEADER : Option (Dictionary Bytes)
  REQUEST_DATA : Option (Dictionary Bytes)
  COOKIE : Option (Dictionary Bytes)
  SERVER_PORT : Option Bytes
  SERVER_WWW_ROOT : Option Bytes
  METHOD : Option Bytes
  PROTOCOL : Option Bytes
  REQUEST_QUERY : Option Bytes
  REQUEST_PATH : Option Bytes
  REQUEST_URI : Option Bytes
  RESOURCE_PATH : Option Bytes
  RESOURCE_MIME : Option Bytes
  MULTI_PART_BOUNDARY : Option Bytes
  PROXY_HOST : Option Bytes
  PROXY_PORT : Option Bytes
  PROXY_PATH : Option Bytes
  PROXY_QUERY : Option Bytes
  PROXY_HANDLE : Option Client
  web_socket : Option Bytes
  /-- The host that the rewriting rules were given. -/
  host : Option Bytes
  /-- The rule that produced the URL, if one did. -/
  producer : Option (Bytes × Bytes)
  /-- The names given to `antd_plugin_load`. -/
  loads : List Bytes
  /-- The body bytes stored by `post_data_decode` and in temporary files. -/
  stored : Nat
  /-- The temporary files of the body, with what they hold when they are closed. -/
  files : List (Bytes × Bytes)
  /-- The backend descriptors closed. -/
  closed : List Int

def Request.set_state (rq : Request) (state : ClientState) : Request :=
  { rq with client := { rq.client with state } }

def Request.antd_error (rq : Request) (status : Nat) (msg : String) : Request :=
  { rq with client := AntHttp.antd_error rq.client status msg }

@[simp] theorem antd_error_answers (rq : Request) (status : Nat) (msg : String) :
    (rq.antd_error status msg).client.answers = rq.client.answers ++ [status] :=
  (antd_error_io rq.client status msg).answers

/-! ## The outside -/

/-- `struct stat`, as far as the handlers look at it. -/
structure Stat where
  isDir : Bool
  st_size : Int
  st_ctime : Int
  deriving DecidableEq

/-- The result of `poll` on one descriptor: -1, 0 or its events. -/
inductive Poll where
  | failed
  | timeout
  | ready (pollin pollout pollerr pollhup pollrdhup pollnval : Bool)
  deriving DecidableEq

inductive SslAccept where
  | done | retry | failed
  deriving DecidableEq

inductive WriteEv where
  /-- At most `n + 1` bytes are written. -/
  | room (n : Nat)
  | closed
  | error
  deriving DecidableEq

/-- What a function of a plugin leaves behind: the request, and a task of
its own if it returns one. -/
structure PluginResult where
  rq : Request
  task : Option (Option (Bytes × Nat) × List (Bytes × Nat) × Int × List TaskEvent)

/-- What one run of a handler meets outside the program. -/
structure Sys where
  regexec : Regexec
  time : Nat
  poll : Poll
  ssl_accept : SslAccept
  /-- The n-th `stat` of the handler, on a path. -/
  stat : Nat → Bytes → Option Stat
  antd_plugin_load : Bytes → Option Plugin
  ip_from_hostname : Bytes → Option Bytes
  /-- The descriptor of the connection and how it will behave. -/
  antd_request_socket : Bytes → Int → Option (Int × List RecvEv × List SendEv)
  /-- `timegm` of what `strptime` reads. -/
  parseDate : Bytes → Int
  httpDate : Int → Bytes
  /-- The blocks read from a file, if it can be opened. -/
  readFile : Bytes → Option (List Bytes)
  openTemp : Bytes → Bool
  /-- What a file holds when it is opened; nothing if it is new. -/
  oldData : Bytes → Bytes
  write : List WriteEv
  sha1Base64 : Bytes → Bytes
  proxyPolls : List Poll
  plugin : Bytes → Nat → Request → PluginResult

/-- `dvalue(g_server_config.ports, port_s)` -/
def Config.port (cnf : Config) (port_s : Option Bytes) : Res (Option PortConfig) := do
  return cnf.ports.dvalue (← deref port_s)

theorem port_avoids {cnf : Config} {e : Fault} (he : e ≠ .null) (port_s : Option Bytes) : Res.Avoids e (cnf.port port_s) :=
  (Res.Avoids.deref_of_ne he).bind fun _ _ => .ok _ _

end AntHttp
