import AntHttp.Rules
/-!
# Decoding a request (`decode.c`)

The handlers that read the header and the body. `strstr`, `strcmp` and the
like see a buffer up to its first NUL (`cstr`).
-/

namespace AntHttp

open CString

def HEADER_MAX_SIZE : Nat := 8192

/-! ## Cookies and queries -/

/-- One `name=value` of a cookie line. -/
def cookiePair (dic : Dictionary Bytes) (token : Bytes) : Dictionary Bytes :=
  match strsep (some (trim token 32)) 61 with
  | (some token1, some token) => if token ≠ [] then dic.dput token1 (some token) else dic
  | _ => dic

def decode_cookie (line : Option Bytes) (dic : Dictionary Bytes) : Res (Dictionary Bytes) := do
  let cpstr ← deref line
  return (split 59 (trim (trim (trim cpstr 32) 10) 13)).foldl cookiePair dic

/-- One `name=value` of a query. -/
def queryPair (dic : Option (Dictionary Bytes)) (token : Bytes) : Res (Option (Dictionary Bytes)) :=
  match strsep (some token) 61 with
  | (some (c :: key), rest) => do
    return some ((← deref dic).dput (c :: key) (some (url_decode ((strsep rest 61).1.getD []))))
  | _ => .ok dic

def decode_url_request (query : Bytes) (dic : Option (Dictionary Bytes)) : Res (Option (Dictionary Bytes)) :=
  if query = [] then .ok dic else (split 38 query).foldlM queryPair dic

/-! ## The header -/

/-- What the loop of `decode_request_header` changes, besides the client. -/
structure HeaderScan where
  xheader : Option (Dictionary Bytes)
  cookie : Option (Dictionary Bytes)
  host : Option Bytes
  header_size : Nat

/-- The name of a header line and what follows its colon. -/
def headerParts (buf : Bytes) : Bytes × Option Bytes :=
  let p := strsep (some (trim (trim (cstr buf) 10) 13)) 58
  (trim (p.1.getD []) 32, p.2.map (trim · 32))

/-- `dput(xheader, token, strdup(line))` for a line with a value. -/
def putHeader (xheader : Option (Dictionary Bytes)) (token : Bytes) :
    Option Bytes → Res (Option (Dictionary Bytes))
  | some (c :: line) => do return some ((← deref xheader).dput (verify_header token) (some (c :: line)))
  | _ => .ok xheader

/-- One line of the header, read into `buf`. -/
def headerLine (s : HeaderScan) (buf : Bytes) : Res HeaderScan := do
  let (token, line) := headerParts buf
  let s := { s with xheader := ← putHeader s.xheader token line, header_size := s.header_size + buf.length }
  if strcaseeq token (str "Cookie") then
    return { s with cookie := some (← decode_cookie line (s.cookie.getD .dict)) }
  else if strcaseeq token (str "Host") then
    return { s with host := some (← deref line) }
  else return s

/-- The size grows by the line. -/
theorem headerLine_size {s s' : HeaderScan} {buf : Bytes} (h : headerLine s buf = .ok s') :
    s'.header_size = s.header_size + buf.length := by
  unfold headerLine at h
  obtain ⟨x, -, h⟩ := Res.bind_ok.1 h
  simp only at h
  split at h
  · obtain ⟨d, -, h⟩ := Res.bind_ok.1 h
    cases h; rfl
  · split at h
    · obtain ⟨d, -, h⟩ := Res.bind_ok.1 h
      cases h; rfl
    · cases h; rfl

/-- Why the loop over the header ends: it is too large, there is nothing to
read, or the empty line has come. -/
inductive HeaderEnd where
  | tooLarge | wait | complete
  deriving DecidableEq

def headerLoop (client : Client) (s : HeaderScan) : Res (HeaderEnd × Client × HeaderScan) :=
  match _h : read_buf client BUF_SIZE with
  | ([], client') => .ok (.wait, client', s)
  | (c :: line, client') =>
    if cstr (c :: line) = [13, 10] then .ok (.complete, client', s)
    else do
      let s ← headerLine s (c :: line)
      if s.header_size > HEADER_MAX_SIZE then return (.tooLarge, client', s) else headerLoop client' s
termination_by client.input.length
decreasing_by
  have hle := read_buf_le client BUF_SIZE
  simp only [_h, List.length_cons] at hle
  omega

/-- `rq->client->z_level` for the value of `Accept-Encoding`. -/
def acceptedEncoding (regexec : Regexec) : Option Bytes → Res Compress
  | none => .ok .CNONE
  | some line => do
    if (← regex_match regexec (str "gzip") line).isSome then return .CGZ
    else if (← regex_match regexec (str "deflate") line).isSome then return .CDEFL
    else return .CNONE

/-- Rewrites the URL, and hands the request to a proxy or to `decode_request`. -/
def rewriteRequest (sys : Sys) (rq : Request) (pcnf : Option PortConfig) (url : Option Bytes) (s : HeaderScan) :
    Res (Task × Request) := do
  let w ← apply_rules sys.regexec (← deref pcnf).rules s.host ((← deref url).take (BUF_SIZE - 1))
  let rq := { rq with COOKIE := s.cookie.or rq.COOKIE, host := s.host, producer := w.producer }
  match ← check_proxy sys.regexec rq w.url w.query with
  | (some task, rq) => return (task, rq)
  | (none, rq) =>
    let rq := { rq with
      REQUEST_URI := some (url_decode w.url)
      REQUEST_DATA := ← decode_url_request w.query rq.REQUEST_DATA
      REQUEST_QUERY := some w.query }
    return ((antd_create_task (some .decode_request) none rq.client.last_io).bindIo rq.client.sock true true, rq)

/-- What follows the empty line. -/
def headerComplete (sys : Sys) (cnf : Config) (rq : Request) (pcnf : Option PortConfig) (url : Option Bytes)
    (s : HeaderScan) : Res (Task × Request) := do
  let xheader ← deref s.xheader
  if (xheader.dvalue (str "Content-Length")).any fun line => atoi line > cnf.max_upload_size then
    let rq := rq.antd_error 413 "Request body data is too large"
    return (antd_create_task none none rq.client.last_io, rq)
  else
    let z_level ← acceptedEncoding sys.regexec (xheader.dvalue (str "Accept-Encoding"))
    rewriteRequest sys { rq with client.z_level := z_level } pcnf url s

def decode_request_header (sys : Sys) (cnf : Config) (rq : Request) : Res (Task × Request) := do
  let rq := rq.set_state .HEADER_DECODE
  let pcnf ← cnf.port rq.SERVER_PORT
  let (ending, client, s) ← headerLoop rq.client ⟨rq.REQUEST_HEADER, none, none, 0⟩
  let rq := { rq with client, REQUEST_HEADER := s.xheader }
  match ending with
  | .tooLarge =>
    let rq := rq.antd_error 413 "Payload Too Large"
    return (antd_create_task none none rq.client.last_io, rq)
  | .wait =>
    return ((antd_create_task (some .decode_request_header) none client.last_io).bindIo client.sock true false, rq)
  | .complete => headerComplete sys cnf rq pcnf rq.REQUEST_QUERY s

/-! ## Choosing what comes next -/

def WS_MAGIC_STRING : Bytes := str "258EAFA5-E914-47DA-95CA-C5AB0DC85B11"

/-- The text of the 101 answer, and its record. The key and the magic string
are joined in `rkey[128]`. -/
def ws_confirm_request (sys : Sys) (client : Client) (key : Bytes) : Res Client :=
  if key.length + WS_MAGIC_STRING.length < 128 then
    let lines := [str "HTTP/1.1 101 Switching Protocols\r\n", str "Upgrade: websocket\r\n",
      str "Connection: Upgrade\r\n",
      str "Sec-WebSocket-Accept: " ++ sys.sha1Base64 (key ++ WS_MAGIC_STRING) ++ [13, 10], [13, 10]]
    .ok (lines.foldl (fun client buf => (antd_send client buf).2) { client with answers := client.answers ++ [101] })
  else .error .bounds

/-- The upgrade of a GET request that asks for one and has a key. -/
def upgrade (sys : Sys) (rq : Request) : Bool → Option Bytes → Res Request
  | true, some ws_key => do
    return { rq with client := ← ws_confirm_request sys rq.client ws_key, web_socket := some (str "1") }
  | _, _ => .ok rq

def decode_request (sys : Sys) (rq : Request) : Res (Task × Request) := do
  let headers ← deref rq.REQUEST_HEADER
  let ws_key := headers.dvalue (str "Sec-WebSocket-Key")
  let ws := (headers.dvalue (str "Upgrade")).any (strcaseeq · (str "websocket"))
  let method ← deref rq.METHOD
  let task := antd_create_task none none rq.client.last_io
  if method = str "GET" then
    return ({ task with handle := some .resolve_request }, ← upgrade sys rq ws ws_key)
  else if method ∈ [str "HEAD", str "OPTIONS", str "DELETE", str "POST", str "PUT", str "PATCH"] then
    return ({ task with handle := some .resolve_request }, rq)
  else return (task, rq.antd_error 501 "Request Method Not Implemented")

/-! ## The body -/

/-- The time of the next outcome of a script. -/
def nextTime (client : Client) : Int :=
  match client.input with
  | .byte _ _ now :: _ | .again now :: _ | .closed _ now :: _ | .error now :: _ => now
  | [] => client.last_io

/-- The loop of `post_data_decode`: the bytes in the buffer and the client. -/
def postLoop (client : Client) (len : Nat) (query : Bytes) : Bytes × Client :=
  if len ≤ query.length then (query, client)
  else
    match _h : antd_recv_upto client (min BUFFLEN (len - query.length)) with
    | (stat, data, client') =>
      if stat < 0 then (query, client')
      else if stat = 0 ∧ nextTime client - client'.last_io > MAX_IO_WAIT_TIME then (query, client')
      else postLoop client' len (query ++ data)
termination_by client.input.length
decreasing_by
  have hlt := antd_recv_upto_lt client (min BUFFLEN (len - query.length))
  simp only [_h] at hlt
  omega

/-- The query read, or NULL if there is nothing. -/
def post_data_decode (client : Client) (len : Int) : Option Bytes × Client :=
  let r := postLoop client len.toNat []
  (if r.1 = [] then none else some r.1, r.2)

/-- Reads lines until one that `stop` accepts, or until nothing can be read. -/
def readUntil (stop : Bytes → Bool) (client : Client) : Bytes × Client :=
  match _h : read_buf client BUFFLEN with
  | ([], client') => ([], client')
  | (c :: buf, client') => if stop (cstr (c :: buf)) then (c :: buf, client') else readUntil stop client'
termination_by client.input.length
decreasing_by
  have hle := read_buf_le client BUFFLEN
  simp only [_h, List.length_cons] at hle
  omega

def decode_multi_part_request (rq : Request) (ctype : Bytes) : Res (Task × Request) := do
  let task := (antd_create_task none none rq.client.last_io).bindIo rq.client.sock true true
  let headers ← deref rq.REQUEST_HEADER
  -- `strsep` cuts the value in the dictionary
  let parts := strsep (some ctype) 61
  let rq := { rq with REQUEST_HEADER := some (headers.dput (str "Content-Type") parts.1) }
  match parts.2 with
  | some (c :: boundary) =>
    let boundary := trim (c :: boundary) 32
    let r := readUntil (strstr · boundary) rq.client
    let rq := { rq with MULTI_PART_BOUNDARY := some boundary, client := r.2 }
    if r.1 = [] then return (task, rq)
    else return ({ task with handle := some .decode_multi_part_request_data }, rq)
  | _ => return (task, rq)

def FORM_URL_ENCODE : Bytes := str "application/x-www-form-urlencoded"
def FORM_MULTI_PART : Bytes := str "multipart/form-data"

def decode_post_request (rq : Request) : Res (Task × Request) := do
  let rq := rq.set_state .RQ_DATA_DECODE
  let headers ← deref rq.REQUEST_HEADER
  let clen := (headers.dvalue (str "Content-Length")).elim (-1) atoi
  let task := antd_create_task none none rq.client.last_io
  if ¬ rq.METHOD.any (· ∈ [str "POST", str "PUT", str "PATCH"]) then return (task, rq)
  else
    match headers.dvalue (str "Content-Type") with
    | none => return (task, rq.antd_error 400 "Bad Request, missing content description")
    | some ctype =>
      if clen = -1 then return (task, rq.antd_error 400 "Bad Request, missing content description")
      else if strstr ctype FORM_URL_ENCODE then
        let r := post_data_decode rq.client clen
        let rq := { rq with client := r.2, stored := rq.stored + (r.1.getD []).length }
        match r.1 with
        | some pquery =>
          let rq := { rq with REQUEST_DATA := ← decode_url_request (cstr pquery) rq.REQUEST_DATA }
          return (task.bindIo rq.client.sock false true, rq)
        | none =>
          if clen > 0 then return (task, rq.antd_error 400 "Bad Request, missing content data")
          else return (task.bindIo rq.client.sock false true, rq)
      else if strstr ctype FORM_MULTI_PART then decode_multi_part_request rq ctype
      else
        let data := (← deref rq.REQUEST_DATA).dput (str "HAS_RAW_BODY") (some (str "true"))
        return (task.bindIo rq.client.sock false true, { rq with REQUEST_DATA := some data })

/-! ## One part of a multipart body -/

/-- `guard_write` of `left` bytes: what has been written and what is left of the script. -/
def guard_write : Nat → List WriteEv → Nat × Bool × List WriteEv
  | 0, evs => (0, true, evs)
  | left + 1, .room n :: evs =>
    let r := guard_write (left - n) evs
    (min (n + 1) (left + 1) + r.1, r.2)
  | _ + 1, evs => (0, false, evs.tail)

/-- What the loop over a file part leaves: the last line, the client, the bytes
written and `totalsize`. -/
structure Saved where
  last : Bytes
  client : Client
  data : Bytes
  totalsize : Int

/-- The lines of a file part are written to the file, up to the boundary. -/
def saveLoop (boundary : Bytes) (client : Client) (evs : List WriteEv) (data : Bytes) (totalsize : Int) : Saved :=
  match _h : read_buf client BUFFLEN with
  | ([], client') => ⟨[], client', data, totalsize⟩
  | (c :: buf, client') =>
    if strstr (cstr (c :: buf)) boundary then ⟨c :: buf, client', data, totalsize⟩
    else
      let (n, done, evs) := guard_write (c :: buf).length evs
      saveLoop boundary client' evs (data ++ (c :: buf).take n) (totalsize + if done then (n : Int) else -1)
termination_by client.input.length
decreasing_by
  have hle := read_buf_le client BUFFLEN
  simp only [_h, List.length_cons] at hle
  omega

/-- A negative length is refused. -/
def ftruncate (data : Bytes) (length : Int) : Bytes :=
  if length < 0 then data else data.take length.toNat ++ List.replicate (length.toNat - data.length) 0

/-- The `name` and `filename` of a `Content-Disposition` line. -/
def partParam (names : Option Bytes × Option Bytes) (token : Bytes) : Option Bytes × Option Bytes :=
  match strsep (some token) 61 with
  | (some (c :: keytoken), rest) =>
    match (strsep rest 61).1 with
    | some valtoken =>
      let keytoken := trim (c :: keytoken) 32
      let valtoken := trim (trim (trim (trim valtoken 32) 10) 13) 34
      if keytoken = str "name" then (some valtoken, names.2)
      else if keytoken = str "filename" then (names.1, some valtoken)
      else names
    | none => names
  | _ => names

/-- `dput(dic, part_name, strdup(line))`, if a line was read. -/
def putText (dic : Option (Dictionary Bytes)) (part_name buf : Bytes) : Res (Option (Dictionary Bytes)) :=
  if buf = [] then .ok dic
  else (deref dic).map fun d => some (d.dput part_name (some (trim (trim (trim (cstr buf) 10) 13) 32)))

/-- A text part: its first line is the value. -/
def textPart (rq : Request) (boundary part_name : Bytes) : Res (Option Bytes × Request) := do
  let r := read_buf rq.client BUFFLEN
  let data ← putText rq.REQUEST_DATA part_name r.1
  let first := (read_buf r.2 BUFFLEN).1
  let last := readUntil (strstr · boundary) r.2
  let moved := r.1 ≠ [] ∨ (first ≠ [] ∧ ¬ strstr (cstr first) boundary)
  return (if moved then some (cstr last.1) else none, { rq with client := last.2, REQUEST_DATA := data })

/-- `__s("%s/%s.%u", tmpdir, part_file, (unsigned)time(NULL))` -/
def uploadPath (tmpdir part_file : Bytes) (time : Nat) : Bytes :=
  tmpdir ++ [47] ++ part_file ++ [46] ++ decimal (time % 2 ^ 32)

/-- A file part: its lines overwrite a file in the temporary directory, which is cut to their
length less two. The `int` that sums them up wraps. -/
def filePart (sys : Sys) (cnf : Config) (rq : Request) (boundary part_name part_file : Bytes) :
    Res (Option Bytes × Request) := do
  let file_path := uploadPath cnf.tmpdir part_file sys.time
  if sys.openTemp file_path then
    let r := saveLoop boundary rq.client sys.write [] 0
    let totalsize := int32 (r.totalsize - 2)
    let data := ftruncate (r.data ++ (sys.oldData file_path).drop r.data.length) totalsize
    let field (suffix : String) := part_name ++ str suffix
    let dic ← deref rq.REQUEST_DATA
    let dic := dic.dput (field ".file") (some part_file)
    let dic := dic.dput (field ".tmp") (some file_path)
    let dic := dic.dput (field ".size") (some (decimalInt totalsize))
    let dic := dic.dput (field ".ext") (ext part_file)
    return (some (cstr r.last), { rq with
      client := r.client, REQUEST_DATA := some dic
      stored := rq.stored + r.data.length, files := rq.files ++ [(file_path, data)] })
  else return (none, rq)

/-- The data of a part that has a name; the result is the line `line` points to, if any. -/
def partData (sys : Sys) (cnf : Config) (rq : Request) (boundary : Bytes) :
    Option Bytes × Option Bytes → Res (Option Bytes × Request)
  | (none, _) => .ok (none, rq)
  | (some part_name, part_file) =>
    -- up to the blank line before the data
    let rq := { rq with client := (readUntil (strneq · [13, 10] 2) rq.client).2 }
    match part_file with
    | none => textPart rq boundary part_name
    | some part_file => filePart sys cnf rq boundary part_name part_file

def decode_multi_part_request_data (sys : Sys) (cnf : Config) (rq : Request) : Res (Task × Request) := do
  let task := (antd_create_task none none rq.client.last_io).bindIo rq.client.sock true true
  let r := readUntil (strstr · (str "Content-Disposition:")) rq.client
  let rq := { rq with client := r.2 }
  if r.1 = [] then return (task, rq)
  else
    let boundary ← deref rq.MULTI_PART_BOUNDARY
    let (line, rq) ← partData sys cnf rq boundary ((split 59 (cstr r.1)).foldl partParam (none, none))
    let task := { task with access_time := rq.client.last_io }
    if line.any fun l => !strstr l (boundary ++ str "--") && strstr l boundary then
      return ({ task with handle := some .decode_multi_part_request_data }, rq)
    else return (task, rq)

end AntHttp
