import AntHttp.Dictionary
/-!
# Reading from and writing to a client (`lib/handle.c`)

A connection is scripted by what its system calls meet: `input` lists the
outcomes of the `recv` calls to come (`SSL_read` on a secured connection),
`output` those of the `send` calls. A byte is one event, so a call for several
bytes takes several of them. A script that has run out stands for a broken
connection. `wire` collects what has been sent and `answers` the status lines.

A recoverable SSL condition is a retry and any other SSL failure an error.
Compressed output is not modelled: `zstream` is NULL.
-/

set_option linter.style.nameCheck false

namespace AntHttp

open CString

def BUFFLEN : Nat := 1024

/-- Seconds. -/
def MAX_IO_WAIT_TIME : Int := 5

/-- What a `recv` call meets, and when. -/
inductive RecvEv where
  /-- A byte; `last` if a single call hands over no more than this. -/
  | byte (b : UInt8) (last : Bool) (now : Int)
  /-- Nothing yet: -1 with `EAGAIN`. -/
  | again (now : Int)
  /-- The peer has closed: 0; `stale` if `errno` still holds an earlier `EAGAIN`. -/
  | closed (stale : Bool) (now : Int)
  /-- -1 with any other `errno`. -/
  | error (now : Int)
  deriving DecidableEq

/-- What a `send` call meets, and when. -/
inductive SendEv where
  /-- Room for `n + 1` bytes. -/
  | room (n : Nat) (now : Int)
  | again (now : Int)
  | closed (now : Int)
  | error (now : Int)
  deriving DecidableEq

inductive ClientState where
  | ACCEPT | HANDSHAKE | HEADER_DECODE | PLUGIN_EXEC | PROTO_CHECK | RESOLVE_REQUEST | SERVE_FILE
  | RQ_DATA_DECODE | PROXY_MONITOR
  deriving DecidableEq

inductive Compress where
  | CGZ | CDEFL | CNONE
  deriving DecidableEq

/-- `antd_client_t` -/
structure Client where
  sock : Int
  ssl : Bool
  state : ClientState
  last_io : Int
  z_level : Compress
  input : List RecvEv
  output : List SendEv
  wire : Bytes
  answers : List Nat
  deriving DecidableEq

/-! ## Receiving -/

/-- What the loop of `antd_recv` has read, what the call that broke it returned,
the time of the last byte and the outcomes left. -/
structure Received where
  data : Bytes
  received : Int
  last_io : Int
  input : List RecvEv

def recvLoop (last_io : Int) : Nat → List RecvEv → Received
  | 0, evs => ⟨[], 0, last_io, evs⟩
  | _ + 1, [] => ⟨[], -1, last_io, []⟩
  | n + 1, .byte b _ now :: evs =>
    let r := recvLoop now n evs
    { r with data := b :: r.data }
  | n + 1, .again now :: evs =>
    if now - last_io > MAX_IO_WAIT_TIME then ⟨[], -1, last_io, evs⟩ else recvLoop last_io (n + 1) evs
  | n + 1, .closed stale now :: evs =>
    -- `errno` says nothing about a call that returned 0, but it is looked at
    if now - last_io > MAX_IO_WAIT_TIME ∨ stale = false then ⟨[], 0, last_io, evs⟩
    else recvLoop last_io (n + 1) evs
  | _ + 1, .error _ :: evs => ⟨[], -1, last_io, evs⟩

/-- The return value and the bytes stored. -/
def antd_recv (source : Client) (len : Nat) : Int × Bytes × Client :=
  let r := recvLoop source.last_io len source.input
  (if r.data = [] then r.received else r.data.length, r.data,
    { source with last_io := r.last_io, input := r.input })

/-- The bytes one `recv` call takes, when the first event is a byte. -/
def recvBytes (last_io : Int) : Nat → List RecvEv → Bytes × Int × List RecvEv
  | n + 1, .byte b last now :: evs =>
    if last then ([b], now, evs) else
      let r := recvBytes now n evs
      (b :: r.1, r.2)
  | _, evs => ([], last_io, evs)

/-- A single `recv`: 0 for nothing yet, -1 for a failure. -/
def antd_recv_upto (source : Client) (len : Nat) : Int × Bytes × Client :=
  match source.input with
  | .byte .. :: _ =>
    let r := recvBytes source.last_io len source.input
    (if r.1 = [] then -1 else r.1.length, r.1, { source with last_io := r.2.1, input := r.2.2 })
  | .again _ :: evs => (0, [], { source with input := evs })
  | .closed _ _ :: evs => (-1, [], { source with input := evs })
  | .error _ :: evs => (-1, [], { source with input := evs })
  | [] => (-1, [], source)

/-- The loop of `read_buf` for `n` bytes at most. -/
def readLoop : Nat → Client → Bytes × Client
  | 0, sock => ([], sock)
  | n + 1, sock =>
    match antd_recv sock 1 with
    | (_, c :: _, sock) =>
      if c = 10 then ([c], sock) else
        let r := readLoop n sock
        (c :: r.1, r.2)
    | (_, [], sock) => ([], sock)

/-- The bytes stored; their number is the value returned and a NUL follows them. -/
def read_buf (sock : Client) (size : Nat) : Bytes × Client := readLoop (size - 1) sock

/-! ## A call takes what it reads from the script -/

theorem recvLoop_le (t : Int) (n : Nat) (evs : List RecvEv) :
    (recvLoop t n evs).data.length + (recvLoop t n evs).input.length ≤ evs.length := by
  fun_induction recvLoop t n evs with
  | case1 | case2 | case4 | case6 | case8 => simp
  | case3 t n b last now evs r ih => simp only [r, List.length_cons]; omega
  | case5 t n now evs hlate ih | case7 t n stale now evs hlate ih => simp only [List.length_cons]; omega

theorem recvLoop_length (t : Int) (n : Nat) (evs : List RecvEv) : (recvLoop t n evs).data.length ≤ n := by
  fun_induction recvLoop t n evs with
  | case1 | case2 | case4 | case6 | case8 => simp
  | case3 t n b last now evs r ih => simp only [r, List.length_cons]; omega
  | case5 t n now evs hlate ih | case7 t n stale now evs hlate ih => exact ih

/-- What is read has been taken from the script. -/
theorem antd_recv_le (c : Client) (n : Nat) :
    (antd_recv c n).2.1.length + (antd_recv c n).2.2.input.length ≤ c.input.length := recvLoop_le ..

theorem readLoop_le (n : Nat) (c : Client) :
    (readLoop n c).1.length + (readLoop n c).2.input.length ≤ c.input.length := by
  induction n generalizing c with
  | zero => simp [readLoop]
  | succ n ih =>
    have h := antd_recv_le c 1
    unfold readLoop
    split
    · rename_i r b data c' hr
      rw [hr] at h
      split
      · simp only [List.length_cons, List.length_nil] at h ⊢; omega
      · have := ih c'
        simp only [List.length_cons] at h ⊢; omega
    · rename_i r c' hr
      rw [hr] at h
      simpa using h

/-- A line takes its bytes from the script. -/
theorem read_buf_le (c : Client) (size : Nat) :
    (read_buf c size).1.length + (read_buf c size).2.input.length ≤ c.input.length := readLoop_le ..

theorem recvBytes_le (t : Int) (n : Nat) (evs : List RecvEv) :
    (recvBytes t n evs).1.length + (recvBytes t n evs).2.2.length ≤ evs.length ∧ (recvBytes t n evs).1.length ≤ n := by
  fun_induction recvBytes t n evs with
  | case1 => simp; omega
  | case2 t n b last now evs hl r ih => simp only [r, List.length_cons]; omega
  | case3 => simp

/-- Unless it fails, it meets an outcome of the script. -/
theorem antd_recv_upto_lt (c : Client) (n : Nat) (h : 0 ≤ (antd_recv_upto c n).1) :
    (antd_recv_upto c n).2.2.input.length < c.input.length := by
  unfold antd_recv_upto at h ⊢
  have hb := (recvBytes_le c.last_io n c.input).1
  split
  · rename_i hi
    rw [hi] at h
    simp only [← hi] at h ⊢
    split at h
    · omega
    · rename_i hne
      have := List.length_pos_iff.2 hne
      omega
  all_goals simp_all

/-! ## Sending -/

/-- What the loop of `antd_send` has written, what the call that broke it
returned, the time of the last write and the outcomes left. -/
structure Written where
  data : Bytes
  count : Int
  last_io : Int
  output : List SendEv

def sendLoop (last_io : Int) : Bytes → List SendEv → Written
  | [], evs => ⟨[], 0, last_io, evs⟩
  | _ :: _, [] => ⟨[], -1, last_io, []⟩
  | c :: data, .room n now :: evs =>
    let k := min (n + 1) (min (c :: data).length BUFFLEN)
    let r := sendLoop now ((c :: data).drop k) evs
    { r with data := (c :: data).take k ++ r.data }
  | c :: data, .again now :: evs =>
    if now - last_io > MAX_IO_WAIT_TIME then ⟨[], -1, last_io, evs⟩ else sendLoop last_io (c :: data) evs
  | c :: data, .closed now :: evs =>
    if now - last_io > MAX_IO_WAIT_TIME then ⟨[], 0, last_io, evs⟩ else sendLoop last_io (c :: data) evs
  | _ :: _, .error _ :: evs => ⟨[], -1, last_io, evs⟩

def antd_send (source : Client) (data : Bytes) : Int × Client :=
  let r := sendLoop source.last_io data source.output
  (if r.data = [] then r.count else r.data.length,
    { source with last_io := r.last_io, output := r.output, wire := source.wire ++ r.data })

/-- `__b`, at most `fuel` blocks: whether all of them were sent. -/
def sendBlocks : Nat → Client → Bytes → Bool × Client
  | 0, client, _ => (true, client)
  | fuel + 1, client, data =>
    if data = [] then (true, client) else
      let (nbytes, client) := antd_send client (data.take BUFFLEN)
      if nbytes = -1 then (false, client) else sendBlocks fuel client (data.drop BUFFLEN)

def __b (client : Client) (data : Bytes) : Bool × Client := sendBlocks data.length client data

/-- A line of text, then CRLF. -/
def __t (client : Client) (data : Bytes) : Client :=
  let (st, client) := __b client data
  if st then (__b client [13, 10]).2 else client

/-! ## Responses -/

def get_status_str (stat : Nat) : Bytes :=
  match statusTexts.find? (·.1 = stat) with
  | some (_, s) => str s
  | none => str "Unofficial Status"
where statusTexts : List (Nat × String) :=
  [(100, "Continue"), (101, "Switching Protocols"), (102, "Processing"), (103, "Early Hints"), (200, "OK"),
   (201, "Created"), (202, "Accepted"), (203, "Non-Authoritative Information"), (204, "No Content"),
   (205, "Reset Content"), (206, "Partial Content"), (207, "Multi-Status"), (208, "Already Reported"),
   (226, "IM Used"), (300, "Multiple Choices"), (301, "Moved Permanently"), (302, "Found"),
   (303, "See Other"), (304, "Not Modified"), (305, "Use Proxy"), (306, "Switch Proxy"),
   (307, "Temporary Redirect"), (308, "Permanent Redirect"), (400, "Bad Request"), (401, "Unauthorized"),
   (402, "Payment Required"), (403, "Forbidden"), (404, "Not Found"), (405, "Method Not Allowed"),
   (406, "Not Acceptable"), (407, "Proxy Authentication Required"), (408, "Request Timeout"),
   (409, "Conflict"), (410, "Gone"), (411, "Length Required"), (412, "Precondition Failed"),
   (413, "Payload Too Large"), (414, "URI Too Long"), (415, "Unsupported Media Type"),
   (416, "Range Not Satisfiable"), (417, "Expectation Failed"), (421, "Misdirected Request"),
   (422, "Unprocessable Entity"), (423, "Locked"), (424, "Failed Dependency"), (425, "Too Early"),
   (426, "Upgrade Required"), (428, "Precondition Required"), (429, "Too Many Requests"),
   (431, "Request Header Fields Too Large"), (451, "Unavailable For Legal Reasons"),
   (500, "Internal Server Error"), (501, "Not Implemented"), (502, "Bad Gateway"),
   (503, "Service Unavailable"), (504, "Gateway Timeout"), (505, "HTTP Version Not Supported"),
   (506, "Variant Also Negotiates"), (507, "Insufficient Storage"), (508, "Loop Detected"),
   (510, "Not Extended"), (511, "Network Authentication Required")]

/-- What `%s` prints of the value of a field. -/
def fieldText (value : Option Bytes) : Bytes := value.getD (str "(null)")

/-- `antd_send_header` for a response without cookies. -/
def antd_send_header (client : Client) (status : Nat) (header : Dictionary Bytes) : Client :=
  let header := header.dput (str "Server") (some (str "Antd"))
  let client := __t { client with answers := client.answers ++ [status] }
    (str "HTTP/1.1 " ++ decimal status ++ [32] ++ get_status_str status)
  let client := header.assocs.foldl (fun c it => __t c (it.1 ++ str ": " ++ fieldText it.2)) client
  (__b client [13, 10]).2

/-- `HTML_TPL` -/
def HTML_TPL (title msg : Bytes) : Bytes :=
  str "<HTML><HEAD><TITLE>" ++ title ++ str "</TITLE></HEAD><BODY><h2>" ++ msg ++ str "</h2></BODY></HTML>"

def antd_error (client : Client) (status : Nat) (msg : String) : Client :=
  let res_str := HTML_TPL (get_status_str status) (str msg)
  let header := (Dictionary.dict.dput (str "Content-Type") (some (str "text/html; charset=utf-8"))).dput
    (str "Content-Length") (some (decimal res_str.length))
  (__b (antd_send_header client status header) res_str).2

/-! ## What reading and writing leave alone -/

/-- Only the scripts, the wire and the time of the last byte differ. -/
structure Client.Io (c c' : Client) : Prop where
  sock : c'.sock = c.sock
  ssl : c'.ssl = c.ssl
  state : c'.state = c.state
  z_level : c'.z_level = c.z_level
  answers : c'.answers = c.answers

namespace Client.Io

theorem refl (c : Client) : Client.Io c c := ⟨rfl, rfl, rfl, rfl, rfl⟩

theorem trans {a b c : Client} (h : Client.Io a b) (h' : Client.Io b c) : Client.Io a c :=
  ⟨h'.sock.trans h.sock, h'.ssl.trans h.ssl, h'.state.trans h.state, h'.z_level.trans h.z_level,
    h'.answers.trans h.answers⟩

end Client.Io

theorem antd_recv_io (c : Client) (n : Nat) : Client.Io c (antd_recv c n).2.2 := ⟨rfl, rfl, rfl, rfl, rfl⟩

theorem antd_recv_upto_io (c : Client) (n : Nat) : Client.Io c (antd_recv_upto c n).2.2 := by
  unfold antd_recv_upto
  split <;> exact ⟨rfl, rfl, rfl, rfl, rfl⟩

theorem readLoop_io (n : Nat) (c : Client) : Client.Io c (readLoop n c).2 := by
  induction n generalizing c with
  | zero => exact .refl c
  | succ n ih =>
    have h := antd_recv_io c 1
    unfold readLoop
    split
    · rename_i hr
      rw [hr] at h
      split
      · exact h
      · exact h.trans (ih _)
    · rename_i hr
      rw [hr] at h
      exact h

theorem read_buf_io (c : Client) (size : Nat) : Client.Io c (read_buf c size).2 := readLoop_io ..

theorem antd_send_io (c : Client) (data : Bytes) : Client.Io c (antd_send c data).2 := ⟨rfl, rfl, rfl, rfl, rfl⟩

theorem sendBlocks_io (fuel : Nat) (c : Client) (data : Bytes) : Client.Io c (sendBlocks fuel c data).2 := by
  induction fuel generalizing c data with
  | zero => exact .refl c
  | succ fuel ih =>
    have h := antd_send_io c (data.take BUFFLEN)
    simp only [sendBlocks]
    split
    · exact .refl c
    · split
      · exact h
      · exact h.trans (ih ..)

theorem b_io (c : Client) (data : Bytes) : Client.Io c (__b c data).2 := sendBlocks_io ..

theorem t_io (c : Client) (data : Bytes) : Client.Io c (__t c data) := by
  unfold __t
  have h := b_io c data
  simp only
  split
  · exact h.trans (b_io ..)
  · exact h

/-- Any number of writes. -/
theorem foldl_io {α : Type} {f : Client → α → Client} (hf : ∀ c a, Client.Io c (f c a)) (l : List α) (c : Client) :
    Client.Io c (l.foldl f c) := by
  induction l generalizing c with
  | nil => exact .refl c
  | cons a l ih => exact (hf c a).trans (ih _)

/-- A response header is one answer. -/
theorem antd_send_header_io (c : Client) (status : Nat) (header : Dictionary Bytes) :
    Client.Io { c with answers := c.answers ++ [status] } (antd_send_header c status header) := by
  unfold antd_send_header
  exact ((t_io ..).trans (foldl_io (fun _ _ => t_io ..) _ _)).trans (b_io ..)

theorem antd_error_io (c : Client) (status : Nat) (msg : String) :
    Client.Io { c with answers := c.answers ++ [status] } (antd_error c status msg) := by
  unfold antd_error
  exact (antd_send_header_io ..).trans (b_io ..)

-- from here on a response is what `antd_error_io` and `antd_send_header_io` say of it
attribute [irreducible] antd_error antd_send_header

end AntHttp
