import AntHttp.Decode
/-!
# Accepting, resolving and answering a request (`server.c`)
-/

set_option linter.style.nameCheck false

namespace AntHttp

open CString

/-! ## The request line -/

/-- The method, the target and the protocol are cut out of the first line. -/
def requestLine (rq : Request) (task : Task) (buf : Bytes) : Res (Task × Request) :=
  match strsep (some (cstr buf)) 32 with
  | (some token, some line) =>
    let rq := { rq with METHOD := some (trim token 32) }
    match strsep (some (trim line 32)) 32 with
    | (some token, some line) =>
      let token := trim token 32
      .ok ({ task with handle := some .decode_request_header },
        { rq with
          PROTOCOL := some (trim (trim (trim line 32) 10) 13)
          REQUEST_QUERY := some token
          REQUEST_PATH := some (url_decode ((strsep (some token) 63).1.getD [])) })
    | _ => .ok (task, rq.antd_error 400 "Bad request")
  | _ => .ok (task, rq.antd_error 405 "No method found")

/-- The socket is ready: the handshake first, on a secured connection. -/
def acceptReady (sys : Sys) (rq : Request) (task : Task) (pollin : Bool) : Res (Task × Request) :=
  let again := { task with handle := some .accept_request }
  if rq.client.ssl ∧ rq.client.state = .ACCEPT then
    match sys.ssl_accept with
    | .done => .ok (again, rq.set_state .HANDSHAKE)
    | .retry => .ok (again, rq)
    | .failed => .ok (task, rq.antd_error 400 "Invalid SSL request")
  else if pollin = false then .ok (again, rq)
  else
    let rq := rq.set_state .PROTO_CHECK
    let (buf, client) := read_buf rq.client BUFFLEN
    requestLine { rq with client } task buf

def accept_request (sys : Sys) (rq : Request) : Res (Task × Request) :=
  let task := (antd_create_task none none rq.client.last_io).bindIo rq.client.sock true true
  match sys.poll with
  | .failed => .ok (task, rq.antd_error 400 "Bad request")
  | .timeout => .ok ({ task with handle := some .accept_request }, rq)
  | .ready pollin pollout pollerr pollhup _ _ =>
    if pollerr || pollhup then .ok (task, rq.antd_error 400 "Bad request")
    else if !pollin && !pollout then .ok ({ task with handle := some .accept_request }, rq)
    else acceptReady sys rq task pollin

/-! ## Plugins -/

/-- `snprintf(pattern, 256, "\\b%s\\b", pname)` -/
def pluginPattern (pname : Bytes) : Bytes := snprintf 256 (str "\\b" ++ pname ++ str "\\b")

/-- The plugins setting of the port names the plugin, or so the pattern says. -/
def pluginEnabled (sys : Sys) (pcnf : PortConfig) (pname : Bytes) : Res Bool :=
  match pcnf.plugins with
  | none => .ok false
  | some plugins => do return (← regex_match sys.regexec (pluginPattern pname) plugins).isSome

def execute_plugin (sys : Sys) (cnf : Config) (rq : Request) (pname : Bytes) : Res (Task × Request) := do
  let task := (antd_create_task none none rq.client.last_io).bindIo rq.client.sock true true
  let pcnf ← deref (← cnf.port rq.SERVER_PORT)
  if ← pluginEnabled sys pcnf pname then
    let rq := { rq.set_state .PLUGIN_EXEC with loads := rq.loads ++ [pname] }
    match sys.antd_plugin_load pname with
    | none => return (task, rq.antd_error 503 "Requested service not found")
    | some ctx =>
      let rq := { rq with context := some ctx }
      let handle := Handler.plugin ctx.name 0
      if ctx.raw_body then return ({ task with handle := some handle }, rq)
      else return (antd_create_task (some .decode_post_request) (some handle) rq.client.last_io, rq)
  else return (task, rq.antd_error 403 "Access forbidden")

/-! ## Resources -/

/-- The first `index.` file a handler plugin serves; `n` counts the `stat` calls. -/
def handlerIndex (sys : Sys) (root url : Bytes) : Nat → Chain Bytes → Option Bytes
  | _, [] => none
  | n, (key, _) :: its =>
    let path := snprintf BUF_SIZE (root ++ [47] ++ url ++ str "/index." ++ key)
    if (sys.stat n path).isSome then some path else handlerIndex sys root url (n + 1) its

/-- The discard loop: up to `clen` body bytes are read in blocks of the size of `path`. -/
def discardBody (client : Client) (clen read : UInt32) : Client :=
  if read < clen then
    match _h : antd_recv client (min BUF_SIZE clen.toNat) with
    | (_, [], client') => client'
    | (_, c :: data, client') => discardBody client' clen (read + (c :: data).length.toUInt32)
  else client
termination_by client.input.length
decreasing_by
  have hle := antd_recv_le client (min BUF_SIZE clen.toNat)
  simp only [_h, List.length_cons] at hle
  omega

/-- A file of a known type is served, another one goes to its handler plugin. -/
def serveResource (sys : Sys) (cnf : Config) (rq : Request) (task : Task) (path : Bytes) :
    Res (Task × Request) := do
  let mime_type ← mime sys.regexec cnf.mimes path
  let rq := { rq with RESOURCE_PATH := some path, RESOURCE_MIME := some mime_type }
  if mime_type = OCTET_STREAM then
    match (ext path).bind cnf.handlers.dvalue with
    | some h => execute_plugin sys cnf rq h
    | none => return (task, rq.antd_error 403 "Access forbidden")
  else
    let clen := (rq.REQUEST_HEADER.bind (·.dvalue (str "Content-Length"))).elim 0 atoi
    let rq := { rq with client := discardBody rq.client (UInt32.ofInt clen) 0 }
    return ({ task with handle := some .serve_file }.bindIo rq.client.sock false true, rq)

/-- The URL with its slashes trimmed: the plugin's name and the rest. -/
def pluginTarget (url : Bytes) : Bytes × Bytes :=
  let p := strsep (some (trim url 47)) 47
  (p.1.getD [], p.2.getD [47])

def resolve_request (sys : Sys) (cnf : Config) (rq : Request) : Res (Task × Request) := do
  let task := antd_create_task none none rq.client.last_io
  let url ← deref rq.REQUEST_URI
  let rq := rq.set_state .RESOLVE_REQUEST
  let root ← deref rq.SERVER_WWW_ROOT
  let path := snprintf BUF_SIZE (root ++ [47] ++ url)
  match sys.stat 0 path with
  | none =>
    let target := pluginTarget url
    execute_plugin sys cnf
      { rq with REQUEST_URI := some target.2, RESOURCE_PATH := some (root ++ [47] ++ target.2) } target.1
  | some st =>
    if st.isDir then
      let index := path ++ str "/index.html"
      -- `strcat` into `path`
      if BUF_SIZE ≤ index.length then throw .bounds
      else if (sys.stat 1 index).isSome then serveResource sys cnf rq task index
      else
        match handlerIndex sys root url 2 cnf.handlers.assocs with
        | some path => serveResource sys cnf rq task path
        | none => return (task, rq.antd_error 404 "Resource Not Found")
    else serveResource sys cnf rq task path

/-- `__f`: the blocks of the file, as long as they can be sent. -/
def __f (client : Client) : List Bytes → Client
  | [] => client
  | buffer :: blocks =>
    let (n, client) := antd_send client buffer
    if n = -1 then client else __f client blocks

def fileHeader (sys : Sys) (mime_type : Bytes) (st : Stat) : Dictionary Bytes :=
  let header := Dictionary.dict.dput (str "Content-Type") (some mime_type)
  let header := header.dput (str "Content-Length") (some (decimalInt (int32 st.st_size)))
  let header := header.dput (str "Last-Modified") (some (sys.httpDate st.st_ctime))
  header.dput (str "Cache-Control") (some (str "no-cache"))

def serve_file (sys : Sys) (rq : Request) : Res (Task × Request) := do
  let task := antd_create_task none none rq.client.last_io
  let rq := rq.set_state .SERVE_FILE
  let path ← deref rq.RESOURCE_PATH
  match sys.stat 0 path with
  | none => return (task, rq.antd_error 404 "File not found")
  | some st =>
    let header ← deref rq.REQUEST_HEADER
    if (header.dvalue (str "If-Modified-Since")).any fun d => st.st_ctime = sys.parseDate d then
      return (task, rq.antd_error 304 "")
    else
      let mime_type ← deref rq.RESOURCE_MIME
      let client := antd_send_header rq.client 200 (fileHeader sys mime_type st)
      return (task, { rq with client := __f client ((sys.readFile path).getD []) })

/-! ## Proxying -/

/-- Sends the lines until one is cut short. -/
def sendAll (proxy : Client) : List Bytes → Bool × Client
  | [] => (true, proxy)
  | str :: lines =>
    let (ret, proxy) := antd_send proxy str
    if ret = str.length then sendAll proxy lines else (false, proxy)

/-- The request line and the header fields for the backend. -/
def proxyLines (rq : Request) (path query : Bytes) (xheader : Dictionary Bytes) : List Bytes :=
  (rq.METHOD.getD (str "(null)") ++ [32] ++ path ++ [63] ++ query ++ str " HTTP/1.1\r\n") ::
    xheader.assocs.map fun it => it.1 ++ str ": " ++ it.2.getD (str "(null)") ++ [13, 10]

def proxify (sys : Sys) (rq : Request) : Res (Task × Request) := do
  let rq := rq.set_state .RESOLVE_REQUEST
  let port := atoi (← deref rq.PROXY_PORT)
  let task := antd_create_task none none rq.client.last_io
  match rq.REQUEST_HEADER with
  | none => return (task, rq.antd_error 400 "Badd Request")
  | some xheader =>
    match rq.PROXY_HOST.bind sys.ip_from_hostname with
    | none => return (task, rq.antd_error 502 "Badd address")
    | some ip =>
      match sys.antd_request_socket ip port with
      | none => return (task, rq.antd_error 503 "Service Unavailable")
      | some (sock_fd, input, output) =>
        let proxy : Client := ⟨sock_fd, false, .ACCEPT, sys.time, .CNONE, input, output, [], []⟩
        let lines := proxyLines rq (rq.PROXY_PATH.getD (str "(null)")) (rq.PROXY_QUERY.getD (str "(null)")) xheader
        match sendAll proxy lines with
        | (true, proxy) =>
          return ({ task with handle := some .proxy_monitor }.bindIo sock_fd true true,
            { rq with PROXY_HANDLE := some (antd_send proxy [13, 10]).2 })
        | (false, proxy) =>
          return (task, { rq with PROXY_HANDLE := some proxy, closed := rq.closed ++ [sock_fd] }.antd_error 500 "")

/-- How a round of relaying ends: with bytes moved, idle, or for good; `pollin`
is what the last `poll` said of the backend. -/
inductive Relay where
  | moved (pollin : Bool)
  | idle (pollin : Bool)
  | broken

/-- `pfd[0].revents & POLLIN` at the end, unless the relay is broken. -/
def Relay.pollin : Relay → Option Bool
  | .moved pollin => some pollin
  | .idle pollin => some pollin
  | .broken => none

/-- What the client sent goes to the backend: the size read and whether it was passed on. -/
def toBackend (client proxy : Client) : Int × Bool × Client × Client :=
  let r := antd_recv_upto client BUFFLEN
  if r.1 > 0 then
    let s := antd_send proxy r.2.1
    (r.1, s.1 = r.1, r.2.2, s.2)
  else (r.1, r.1 = 0, r.2.2, proxy)

/-- What the backend sent goes to the client. -/
def toClient (client proxy : Client) : Int × Bool × Client × Client :=
  let r := antd_recv_upto proxy BUFFLEN
  if r.1 > 0 then
    let s := antd_send client r.2.1
    (r.1, s.1 = r.1, s.2, r.2.2)
  else (r.1, false, client, r.2.2)

/-- One round of the loop of `proxy_monitor`. -/
def relayRound (client proxy : Client) (poll : Poll) : Relay × Client × Client :=
  match toBackend client proxy with
  | (_, false, client, proxy) => (.broken, client, proxy)
  | (sz1, true, client, proxy) =>
    match poll with
    | .failed => (.broken, client, proxy)
    | .timeout => (if sz1 > 0 then .moved false else .idle false, client, proxy)
    | .ready pollin _ pollerr pollhup pollrdhup pollnval =>
      match if pollin then toClient client proxy else (0, true, client, proxy) with
      | (_, false, client, proxy) => (.broken, client, proxy)
      | (sz2, true, client, proxy) =>
        if pollerr || pollrdhup || pollhup || pollnval then (.broken, client, proxy)
        else (if sz1 > 0 ∨ sz2 > 0 then .moved pollin else .idle pollin, client, proxy)

/-- Rounds until one is idle or broken; the polls script bounds their number. -/
def relayLoop (client proxy : Client) : List Poll → Relay × Client × Client
  | [] => (.broken, client, proxy)
  | poll :: polls =>
    match relayRound client proxy poll with
    | (.moved _, client, proxy) => relayLoop client proxy polls
    | (relay, client, proxy) => (relay, client, proxy)

def proxy_monitor (sys : Sys) (rq : Request) : Res (Task × Request) := do
  let rq := rq.set_state .PROXY_MONITOR
  let task := antd_create_task none none rq.client.last_io
  let proxy ← deref rq.PROXY_HANDLE
  let r := relayLoop rq.client proxy sys.proxyPolls
  let rq := { rq with client := r.2.1, PROXY_HANDLE := some r.2.2 }
  match r.1.pollin with
  | none => return (task, { rq with closed := rq.closed ++ [proxy.sock] })
  | some pollin =>
    let task := { task with handle := some .proxy_monitor, access_time := rq.client.last_io }
    let task := if pollin then task.bindIo proxy.sock true false else task.bindTimeout proxy.sock 50
    return (task.bindIo rq.client.sock true false, rq)

end AntHttp
