import AntHttp.Steps
import AntHttp.Transfers
import Mathlib.Data.Finset.Lattice.Fold
import Mathlib.Order.Lattice.Nat
/-!
# The descriptors of files (`lib/handle.c`, `decode.c`)

`__f` and the handler of multipart bodies open files. The handlers of
`Pipeline.lean` that may call them are given again with the table of
descriptors beside the request. `serve_file` sends through `deflate` if the
client takes it: there a send that fails is not reported, and the file is read
to its end. The sockets of clients and backends are not in the table.
-/

set_option linter.style.nameCheck false

namespace AntHttp

open CString

/-! ## Opening and closing -/

inductive FdOp where
  | opened (fd : Nat)
  | closed (fd : Nat)
  deriving DecidableEq

/-- The descriptors in use, and what has been done. -/
structure Fds where
  table : Finset Nat
  log : List FdOp

namespace Fds

def add (fds : Fds) (fd : Nat) : Fds := ⟨insert fd fds.table, fds.log ++ [.opened fd]⟩

def close (fds : Fds) (fd : Nat) : Fds := ⟨fds.table.erase fd, fds.log ++ [.closed fd]⟩

theorem close_add {fds : Fds} {fd : Nat} (h : fd ∉ fds.table) :
    (fds.add fd).close fd = ⟨fds.table, fds.log ++ [.opened fd, .closed fd]⟩ := by
  rw [add, close, Finset.erase_insert h, List.append_assoc]
  rfl

theorem add_table_ne {fds : Fds} {fd : Nat} (h : fd ∉ fds.table) : (fds.add fd).table ≠ fds.table :=
  fun he => h (he ▸ Finset.mem_insert_self fd fds.table)

end Fds

/-- Every descriptor opened is closed, once, before the next is opened. -/
inductive Balanced : List FdOp → Prop
  | nil : Balanced []
  | snoc {log fd} : Balanced log → Balanced (log ++ [.opened fd, .closed fd])

/-- The outside, with what `open` gives, -1 or a descriptor that is not in use, and with the compression library. `opened`
is what `malloc` and `deflateInit` make of a new stream. -/
structure FdSys (σ : Type) extends Sys where
  open_file : Finset Nat → Bytes → Option Nat
  fresh : ∀ {table file fd}, open_file table file = some fd → fd ∉ table
  /-- `read` is given a buffer of `BUFFLEN` bytes. -/
  blocks : ∀ {file bs}, readFile file = some bs → ∀ b ∈ bs, b.length ≤ BUFFLEN
  zlib : Zlib σ
  g_gzip_types : Option (List (Option Bytes))
  opened : Option σ

/-- `__f` on the blocks of a file: whether it reaches the end. -/
def ZClient.sendFile {σ : Type} (g : Gzip σ) (client : ZClient σ) : List Bytes → Bool × ZClient σ
  | [] => (true, client)
  | buffer :: blocks =>
    let (n, client) := antd_send g client buffer
    if int32 n = -1 then (false, client) else sendFile g client blocks

namespace FdSys

variable {σ : Type}

def gzip (sys : FdSys σ) : Gzip σ := { sys.zlib with regexec := sys.regexec, g_gzip_types := sys.g_gzip_types }

/-- The outside as the handlers without descriptors see it: they are told whether a file is read, and written. -/
def seen (sys : FdSys σ) (table : Finset Nat) : Sys :=
  { sys.toSys with
    readFile := fun file => (sys.open_file table file).map fun _ => (sys.readFile file).getD []
    openTemp := fun file => (sys.open_file table file).any (0 < ·) }

/-! ## The handlers -/

/-- `__f`: it returns from the loop without closing. -/
def __f (sys : FdSys σ) (fds : Fds) (client : ZClient σ) (file : Bytes) : Bool × ZClient σ × Fds :=
  match sys.open_file fds.table file with
  | none => (false, client, fds)
  | some fd =>
    let r := client.sendFile sys.gzip ((sys.readFile file).getD [])
    (r.1, r.2, if r.1 then (fds.add fd).close fd else fds.add fd)

/-- The client, which has no stream before its first header. -/
def zclient (client : Client) : ZClient σ := ⟨client, none, .Z_NO_FLUSH, []⟩

def serve_file (sys : FdSys σ) (fds : Fds) (rq : Request) : Res ((Task × Request) × Fds) := do
  let task := antd_create_task none none rq.client.last_io
  let rq := rq.set_state .SERVE_FILE
  let path ← deref rq.RESOURCE_PATH
  match sys.stat 0 path with
  | none =>
    let a ← (zclient rq.client).antd_error sys.gzip 404 "File not found" sys.opened
    return ((task, { rq with client := a.client.client }), fds)
  | some st =>
    let header ← deref rq.REQUEST_HEADER
    if (header.dvalue (str "If-Modified-Since")).any fun d => st.st_ctime = sys.parseDate d then
      let a ← (zclient rq.client).antd_error sys.gzip 304 "" sys.opened
      return ((task, { rq with client := a.client.client }), fds)
    else
      let mime_type ← deref rq.RESOURCE_MIME
      let rhd ← ZClient.fileHeader sys.gzip sys.toSys (zclient rq.client) mime_type st
      let (head, _) ← (zclient rq.client).antd_send_header sys.gzip rhd sys.opened
      let r := __f sys fds head path
      return ((task, { rq with client := r.2.1.client }), r.2.2)

/-- `filePart`: a file is saved if `fd > 0`. -/
def filePart (sys : FdSys σ) (cnf : Config) (fds : Fds) (rq : Request) (boundary part_name part_file : Bytes) :
    Res ((Option Bytes × Request) × Fds) := do
  let file_path := uploadPath cnf.tmpdir part_file sys.time
  match sys.open_file fds.table file_path with
  | some (fd + 1) =>
    let r := saveLoop boundary rq.client sys.write [] 0
    let totalsize := int32 (r.totalsize - 2)
    let data := ftruncate (r.data ++ (sys.oldData file_path).drop r.data.length) totalsize
    let fds := (fds.add (fd + 1)).close (fd + 1)
    let field (suffix : String) := part_name ++ str suffix
    let dic ← deref rq.REQUEST_DATA
    let dic := dic.dput (field ".file") (some part_file)
    let dic := dic.dput (field ".tmp") (some file_path)
    let dic := dic.dput (field ".size") (some (decimalInt totalsize))
    let dic := dic.dput (field ".ext") (ext part_file)
    return ((some (cstr r.last), { rq with
      client := r.client, REQUEST_DATA := some dic
      stored := rq.stored + r.data.length, files := rq.files ++ [(file_path, data)] }), fds)
  | some 0 => return ((none, rq), fds.add 0)
  | none => return ((none, rq), fds)

def partData (sys : FdSys σ) (cnf : Config) (fds : Fds) (rq : Request) (boundary : Bytes) :
    Option Bytes × Option Bytes → Res ((Option Bytes × Request) × Fds)
  | (none, _) => .ok ((none, rq), fds)
  | (some part_name, part_file) =>
    let rq := { rq with client := (readUntil (strneq · [13, 10] 2) rq.client).2 }
    match part_file with
    | none => (textPart rq boundary part_name).map fun r => (r, fds)
    | some part_file => filePart sys cnf fds rq boundary part_name part_file

def decode_multi_part_request_data (sys : FdSys σ) (cnf : Config) (fds : Fds) (rq : Request) :
    Res ((Task × Request) × Fds) := do
  let task := (antd_create_task none none rq.client.last_io).bindIo rq.client.sock true true
  let r := readUntil (strstr · (str "Content-Disposition:")) rq.client
  let rq := { rq with client := r.2 }
  if r.1 = [] then return ((task, rq), fds)
  else
    let boundary ← deref rq.MULTI_PART_BOUNDARY
    let ((line, rq), fds) ← partData sys cnf fds rq boundary ((split 59 (cstr r.1)).foldl partParam (none, none))
    let task := { task with access_time := rq.client.last_io }
    if line.any fun l => !strstr l (boundary ++ str "--") && strstr l boundary then
      return (({ task with handle := some .decode_multi_part_request_data }, rq), fds)
    else return ((task, rq), fds)

def callHandler (sys : FdSys σ) (cnf : Config) (fds : Fds) (rq : Request) :
    Handler → Res ((Option Task × Option Request) × Fds)
  | .serve_file => (serve_file sys fds rq).map fun p => ((some p.1.1, some p.1.2), p.2)
  | .decode_multi_part_request_data =>
    (decode_multi_part_request_data sys cnf fds rq).map fun p => ((some p.1.1, some p.1.2), p.2)
  | h => (AntHttp.callHandler (sys.seen fds.table) cnf rq h).map fun p => (p, fds)

end FdSys

/-- A request, until it is finished, and the descriptors. -/
structure FdConn where
  conn : Option Conn
  fds : Fds

namespace FdConn

variable {σ : Type}

def execute (sys : FdSys σ) (cnf : Config) (c : Conn) (fds : Fds) : Res FdConn := do
  let ((ret, rq), fds) ← sys.callHandler cnf fds c.rq (← deref c.task.handle)
  return ⟨(antd_execute_task c.task ret).bind fun task => rq.map fun rq => ⟨task, rq⟩, fds⟩

def step (cnf : Config) (sys : FdSys σ) (s : FdConn) : Option FdConn :=
  s.conn.bind fun c => (execute sys cnf c s.fds).toOption

/-- A new connection, in a process that has these files open. -/
def Accepted (cnf : Config) (table : Finset Nat) (s : FdConn) : Prop :=
  ∃ c, Conn.Accepted cnf c ∧ s = ⟨some c, ⟨table, []⟩⟩

end FdConn

/-! ## These are the handlers of the pipeline -/

namespace FdSys

variable {σ : Type}

/-- A call for at most `BUFFLEN` bytes returns an `int`. -/
theorem int32_antd_send {client : Client} {data : Bytes} (h : data.length ≤ BUFFLEN) :
    int32 (AntHttp.antd_send client data).1 = (AntHttp.antd_send client data).1 := by
  obtain ⟨k, r, t', rest, hcall⟩ := exists_call client.last_io data.length client.output
  rw [BUFFLEN] at h
  rw [hcall.antd_send]
  rcases hcall.taken with ⟨rfl, rfl⟩ | ⟨rfl | rfl, hk⟩
  · dsimp only
    split
    · rfl
    · exact int32_eq (by omega) (by omega)
  all_goals
    dsimp only [Option.getD_some]
    split
    · rfl
    · exact int32_eq (by omega) (by omega)

/-- At level `CNONE` the file goes out as it is. -/
theorem sendFile_plain (g : Gzip σ) {blocks : List Bytes} (hb : ∀ b ∈ blocks, b.length ≤ BUFFLEN) {c : ZClient σ}
    (hc : c.deflates = false) : (c.sendFile g blocks).1 = (sendPieces c.client blocks).1 ∧
      (c.sendFile g blocks).2.client = (sendPieces c.client blocks).2 := by
  induction blocks generalizing c with
  | nil => exact ⟨rfl, rfl⟩
  | cons buffer blocks ih =>
    have hs : (ZClient.sendPlain c buffer).2.deflates = false := (ZClient.sendPlain_sends hc _).deflates.trans hc
    have hint : int32 (AntHttp.antd_send c.client buffer).1 = (AntHttp.antd_send c.client buffer).1 :=
      int32_antd_send (hb _ List.mem_cons_self)
    simp only [ZClient.sendFile, sendPieces, ZClient.antd_send_plain g hc]
    split
    · rename_i hn
      rw [if_pos (hint.symm.trans hn)]
      exact ⟨rfl, rfl⟩
    · rename_i hn
      rw [if_neg fun h => hn (hint.trans h)]
      exact ih (fun b hmem => hb b (List.mem_cons_of_mem _ hmem)) hs

theorem blocks_getD (sys : FdSys σ) {file : Bytes} : ∀ b ∈ (sys.readFile file).getD [], b.length ≤ BUFFLEN := by
  cases hread : sys.readFile file with
  | none => nofun
  | some bs => exact sys.blocks hread

theorem f_proj (sys : FdSys σ) (fds : Fds) {client : ZClient σ} (hc : client.deflates = false) (file : Bytes) :
    AntHttp.__f client.client (((sys.seen fds.table).readFile file).getD []) = (__f sys fds client file).2.1.client := by
  have hread : (sys.seen fds.table).readFile file = (sys.open_file fds.table file).map fun _ => (sys.readFile file).getD [] := rfl
  rw [hread, __f]
  cases sys.open_file fds.table file with
  | none => rfl
  | some fd =>
    rw [f_eq]
    exact (sendFile_plain sys.gzip sys.blocks_getD hc).2.symm

/-- A client that takes no compression is served as in `Server.lean`. -/
theorem serve_file_proj (sys : FdSys σ) (fds : Fds) {rq : Request} (hl : rq.client.z_level = .CNONE) {p : Task × Request}
    {fds' : Fds} (h : serve_file sys fds rq = .ok (p, fds')) : AntHttp.serve_file (sys.seen fds.table) rq = .ok p := by
  obtain ⟨path, hpath, h⟩ := Res.bind_ok.1 h
  have hbind {α β : Type} (a : α) (f : α → Res β) : (Except.ok a >>= f) = f a := rfl
  have hstat : (sys.seen fds.table).stat 0 path = sys.stat 0 path := rfl
  have hdate : (sys.seen fds.table).parseDate = sys.parseDate := rfl
  unfold AntHttp.serve_file
  dsimp only at h ⊢
  rw [hpath, hbind, hstat]
  generalize sys.stat 0 path = found at h ⊢
  cases found with
  | none =>
    obtain ⟨a, ha, h⟩ := Res.bind_ok.1 h
    cases h
    rw [ZClient.antd_error_plain sys.gzip hl ha]
    rfl
  | some st =>
    obtain ⟨header, hheader, h⟩ := Res.bind_ok.1 h
    dsimp only
    rw [hdate, hheader, hbind]
    split at h
    · rename_i hmod
      obtain ⟨a, ha, h⟩ := Res.bind_ok.1 h
      cases h
      rw [if_pos hmod, ZClient.antd_error_plain sys.gzip hl ha]
      rfl
    · rename_i hmod
      obtain ⟨mime_type, hmime, h⟩ := Res.bind_ok.1 h
      obtain ⟨rhd, hrhd, h⟩ := Res.bind_ok.1 h
      obtain ⟨⟨head, hd⟩, hhead, h⟩ := Res.bind_ok.1 h
      cases h
      rw [if_neg hmod, hmime, hbind]
      obtain ⟨b, -, hrhd⟩ := Res.bind_ok.1 hrhd
      have hlevel : (zclient (σ := σ) (rq.set_state .SERVE_FILE).client).client.z_level = .CNONE := hl
      simp only [hlevel, decide_true, Bool.or_true, if_true] at hrhd
      cases hrhd
      have hc := ZClient.header_cnone sys.gzip hlevel hhead
      rw [← f_proj sys fds hc, ZClient.antd_send_header_plain sys.gzip hlevel rfl hhead]
      rfl

theorem filePart_proj (sys : FdSys σ) (cnf : Config) (fds : Fds) (rq : Request) (boundary part_name part_file : Bytes) :
    (filePart sys cnf fds rq boundary part_name part_file).map (·.1) =
      AntHttp.filePart (sys.seen fds.table) cnf rq boundary part_name part_file := by
  have htemp (file : Bytes) : (sys.seen fds.table).openTemp file = (sys.open_file fds.table file).any (0 < ·) := rfl
  unfold filePart AntHttp.filePart
  simp only [htemp, show (sys.seen fds.table).time = sys.time from rfl]
  cases sys.open_file fds.table (uploadPath cnf.tmpdir part_file sys.time) with
  | none => rfl
  | some fd =>
    cases fd with
    | zero => rfl
    | succ fd =>
      rw [if_pos (by simp)]
      cases rq.REQUEST_DATA <;> rfl

theorem partData_proj (sys : FdSys σ) (cnf : Config) (fds : Fds) (rq : Request) (boundary : Bytes)
    (names : Option Bytes × Option Bytes) :
    (partData sys cnf fds rq boundary names).map (·.1) = AntHttp.partData (sys.seen fds.table) cnf rq boundary names := by
  obtain ⟨part_name, part_file⟩ := names
  cases part_name with
  | none => rfl
  | some part_name =>
    cases part_file with
    | none =>
      change ((textPart _ boundary part_name).map _).map _ = textPart _ boundary part_name
      cases textPart { rq with client := (readUntil (strneq · [13, 10] 2) rq.client).2 } boundary part_name <;> rfl
    | some part_file => exact filePart_proj ..

theorem decode_multi_part_request_data_proj (sys : FdSys σ) (cnf : Config) (fds : Fds) (rq : Request) :
    (decode_multi_part_request_data sys cnf fds rq).map (·.1) =
      AntHttp.decode_multi_part_request_data (sys.seen fds.table) cnf rq := by
  unfold decode_multi_part_request_data AntHttp.decode_multi_part_request_data
  simp only [← partData_proj]
  split
  · rfl
  · cases rq.MULTI_PART_BOUNDARY with
    | none => rfl
    | some boundary =>
      simp only [deref_some, Res.ok_bind]
      generalize partData sys cnf fds _ boundary _ = r
      cases r with
      | error e => rfl
      | ok r =>
        obtain ⟨⟨line, rq'⟩, fds'⟩ := r
        exact apply_ite (Except.map _) ..

/-- The handler is one of the pipeline, if it does not send a file to a client that takes compression. -/
theorem callHandler_proj {sys : FdSys σ} {cnf : Config} {fds fds' : Fds} {rq : Request} {h : Handler}
    (hl : h = .serve_file → rq.client.z_level = .CNONE) {p : Option Task × Option Request}
    (hc : callHandler sys cnf fds rq h = .ok (p, fds')) : AntHttp.callHandler (sys.seen fds.table) cnf rq h = .ok p := by
  have hsame {r : Res (Option Task × Option Request)} (hr : r.map (fun p => (p, fds)) = .ok (p, fds')) : r = .ok p := by
    obtain ⟨q, hq, he⟩ := Res.map_ok.1 hr
    cases he
    exact hq
  cases h with
  | serve_file =>
    obtain ⟨q, hq, he⟩ := Res.map_ok.1 hc
    cases he
    change (AntHttp.serve_file _ rq).map _ = _
    rw [serve_file_proj sys fds (hl rfl) hq]
    rfl
  | decode_multi_part_request_data =>
    obtain ⟨q, hq, he⟩ := Res.map_ok.1 hc
    cases he
    have hproj := decode_multi_part_request_data_proj sys cnf fds rq
    rw [hq] at hproj
    change (AntHttp.decode_multi_part_request_data _ cnf rq).map _ = _
    rw [← hproj]
    rfl
  | accept_request | decode_request_header | decode_request | resolve_request | proxify | proxy_monitor
    | decode_post_request => exact hsame hc
  | finish_request | plugin name fn =>
    cases hc
    rfl

end FdSys

/-- Files are sent to clients that take no compression. -/
def FdConn.Uncompressed {σ : Type} (_sys : FdSys σ) (s : FdConn) : Prop :=
  ∀ c, s.conn = some c → c.task.handle = some .serve_file → c.rq.client.z_level = .CNONE

/-- The step is one of the pipeline. -/
theorem FdConn.execute_proj {σ : Type} {sys : FdSys σ} {cnf : Config} {c : Conn} {fds : Fds} {s : FdConn}
    (hl : c.task.handle = some .serve_file → c.rq.client.z_level = .CNONE) (h : execute sys cnf c fds = .ok s) :
    AntHttp.execute (sys.seen fds.table) cnf c = .ok s.conn := by
  obtain ⟨g, hg, h⟩ := Res.bind_ok.1 h
  obtain ⟨⟨⟨ret, rq⟩, fds'⟩, hr, h⟩ := Res.bind_ok.1 h
  cases h
  have hproj := FdSys.callHandler_proj (fun he => hl (he ▸ deref_ok.1 hg)) hr
  unfold AntHttp.execute
  rw [hg]
  dsimp only [bind, Except.bind]
  rw [hproj]
  rfl

/-! ## What a step leaves open -/

namespace ZClient

variable {σ : Type} (g : Gzip σ)

/-- The stream after the `deflate` loop. -/
def streamAfter (flush : Flush) (zstream : σ) (data : Bytes) : σ :=
  match _h : g.deflate zstream flush data with
  | none => zstream
  | some (zstream', rest, buf) => if _hb : buf.length = BUFFLEN then streamAfter flush zstream' rest else zstream'
termination_by g.pending zstream flush data
decreasing_by exact g.pending_lt _h _hb

theorem deflateLoop_stream (flush : Flush) (client : Client) (len : Int) (zstream : σ) (data : Bytes) :
    (deflateLoop g flush client len zstream data).2.1 = streamAfter g flush zstream data := by
  fun_induction streamAfter g flush zstream data generalizing client len with
  | case1 zstream data h =>
    rw [deflateLoop, h]
  | case2 zstream data zstream' rest buf h hb ih =>
    rw [deflateLoop, h]
    dsimp only
    rw [dif_pos hb]
    exact ih ..
  | case3 zstream data zstream' rest buf h hb =>
    rw [deflateLoop, h]
    dsimp only
    rw [dif_neg hb]

/-- `deflate` fails on the block, or puts out so much that the count of it is -1. -/
def Fails (flush : Flush) (zstream : σ) (data : Bytes) : Prop :=
  (outputs g flush zstream data).1 = true ∨ int32 (outputs g flush zstream data).2.flatten.length = -1

/-- `deflate` fails on one of the blocks, whatever becomes of what it has put out. -/
inductive SomeFails (flush : Flush) : σ → List Bytes → Prop
  | here {zstream data blocks} : Fails g flush zstream data → SomeFails flush zstream (data :: blocks)
  | later {zstream data blocks} : SomeFails flush (streamAfter g flush zstream data) blocks →
    SomeFails flush zstream (data :: blocks)

/-- A block of the file is refused: by the socket, or by `deflate` if the client has a stream. -/
def Refuses (c : ZClient σ) (blocks : List Bytes) : Prop :=
  if c.client.z_level = .CNONE then SomeRefused c.client.last_io (blocks.map (·.length)) c.client.output
  else match c.zstream with
    | none => SomeRefused c.client.last_io (blocks.map (·.length)) c.client.output
    | some zstream => SomeFails g c.z_status zstream blocks

variable {g} {c : ZClient σ} {blocks : List Bytes}

/-- Only a failing `deflate` stops a file that is compressed. -/
theorem sendFile_deflates {zstream : σ} (hz : c.zstream = some zstream) (hl : c.client.z_level ≠ .CNONE) :
    (c.sendFile g blocks).1 = false ↔ SomeFails g c.z_status zstream blocks := by
  induction blocks generalizing c zstream with
  | nil =>
    refine iff_of_false (fun h => Bool.noConfusion h) fun h => ?_
    cases h
  | cons buffer blocks ih =>
    have hret := (antd_send_deflates g hz hl buffer).1
    have hstream : (antd_send g c buffer).2.zstream = some (streamAfter g c.z_status zstream buffer) := by
      simp only [antd_send, hz, if_neg hl, deflateLoop_stream]
    have hlevel : (antd_send g c buffer).2.client.z_level ≠ .CNONE := by
      simp only [antd_send, hz, if_neg hl]
      exact hl
    have hstatus : (antd_send g c buffer).2.z_status = c.z_status := by simp only [antd_send, hz, if_neg hl]
    have hnext := ih hstream hlevel
    have hfails : int32 (antd_send g c buffer).1 = -1 ↔ Fails g c.z_status zstream buffer := by
      have hneg : int32 (-1) = -1 := by decide
      rw [hret, Fails]
      cases (outputs g c.z_status zstream buffer).1 <;> simp [hneg]
    rw [hstatus] at hnext
    simp only [sendFile]
    split
    · rename_i hn
      exact iff_of_true rfl (.here (hfails.1 hn))
    · rename_i hn
      rw [hnext]
      constructor
      · exact .later
      · intro h
        cases h with
        | here hf => exact absurd (hfails.2 hf) hn
        | later h => exact h

theorem sendFile_fails_iff (hb : ∀ b ∈ blocks, b.length ≤ BUFFLEN) : (c.sendFile g blocks).1 = false ↔ Refuses g c blocks := by
  have hplain (hc : c.deflates = false) : (c.sendFile g blocks).1 = false ↔
      SomeRefused c.client.last_io (blocks.map (·.length)) c.client.output := by
    rw [(FdSys.sendFile_plain g hb hc).1]
    exact sendPieces_fails_iff
  unfold Refuses
  split
  · rename_i hl
    exact hplain (deflates_eq_false.2 (.inr hl))
  · rename_i hl
    split
    · rename_i hz
      exact hplain (deflates_eq_false.2 (.inl hz))
    · rename_i zstream hz
      exact sendFile_deflates hz hl

end ZClient

/-- The client after its header and the blocks that `serve_file` hands to `__f`, if there is a file to be read. -/
def FdSys.sending {σ : Type} (sys : FdSys σ) (table : Finset Nat) (rq : Request) : Option (ZClient σ × List Bytes) := do
  let client : ZClient σ := zclient (rq.set_state .SERVE_FILE).client
  let path ← rq.RESOURCE_PATH
  let st ← sys.stat 0 path
  let header ← rq.REQUEST_HEADER
  if (header.dvalue (str "If-Modified-Since")).any fun d => st.st_ctime = sys.parseDate d then none
  else
    let mime_type ← rq.RESOURCE_MIME
    let rhd ← (ZClient.fileHeader sys.gzip sys.toSys client mime_type st).toOption
    let (head, _) ← (client.antd_send_header sys.gzip rhd sys.opened).toOption
    let _ ← sys.open_file table path
    return (head, (sys.readFile path).getD [])

/-- The file for the next part, if it has a file name. -/
def saving (cnf : Config) (time : Nat) (rq : Request) : Option Bytes :=
  if (readUntil (strstr · (str "Content-Disposition:")) rq.client).1 = [] then none
  else (partNames rq).1.bind fun _ => (partNames rq).2.map fun part_file => uploadPath cnf.tmpdir part_file time

/-- A handler has opened no file, or has closed it, or has not. -/
inductive FdOutcome (fds : Fds) : Bool → Fds → Prop
  | unused : FdOutcome fds true fds
  | closed {fd} : fd ∉ fds.table → FdOutcome fds true ((fds.add fd).close fd)
  | left {fd} : fd ∉ fds.table → FdOutcome fds false (fds.add fd)

theorem FdOutcome.table_iff {fds fds' : Fds} {b : Bool} (h : FdOutcome fds b fds') : fds'.table = fds.table ↔ b = true := by
  cases h with
  | unused => exact iff_of_true rfl rfl
  | closed hfd =>
    rw [Fds.close_add hfd]
    exact iff_of_true rfl rfl
  | left hfd => exact iff_of_false (Fds.add_table_ne hfd) nofun

theorem FdOutcome.balanced {fds fds' : Fds} (h : FdOutcome fds true fds') (hb : Balanced fds.log) : Balanced fds'.log := by
  cases h with
  | unused => exact hb
  | closed hfd =>
    rw [Fds.close_add hfd]
    exact hb.snoc

theorem FdOutcome.closes {fds fds' : Fds} {b : Bool} (h : FdOutcome fds b fds')
    (hlog : fds'.log.length ≠ fds.log.length + 1) : b = true := by
  cases h with
  | unused | closed => rfl
  | left => exact absurd List.length_append hlog

namespace FdSys

variable {σ : Type} {sys : FdSys σ} {cnf : Config} {fds fds' : Fds} {rq : Request}

/-- A file that is sent has been opened; its descriptor is closed after the last block. -/
theorem serve_file_cases {p : Task × Request} (h : serve_file sys fds rq = .ok (p, fds')) :
    (sys.sending fds.table rq = none ∧ fds' = fds) ∨
    ∃ head blocks fd, sys.sending fds.table rq = some (head, blocks) ∧ fd ∉ fds.table ∧ (∀ b ∈ blocks, b.length ≤ BUFFLEN) ∧
      fds' = if (head.sendFile sys.gzip blocks).1 then (fds.add fd).close fd else fds.add fd := by
  obtain ⟨path, hpath, h⟩ := Res.bind_ok.1 h
  have hpath : rq.RESOURCE_PATH = some path := deref_ok.1 hpath
  unfold sending
  simp only [hpath, Option.bind_eq_bind, Option.bind_some]
  dsimp only at h
  split at h
  · rename_i hst
    obtain ⟨a, -, h⟩ := Res.bind_ok.1 h
    cases h
    exact .inl ⟨by rw [hst]; rfl, rfl⟩
  · rename_i st hst
    obtain ⟨header, hheader, h⟩ := Res.bind_ok.1 h
    have hheader : rq.REQUEST_HEADER = some header := deref_ok.1 hheader
    simp only [hst, hheader, Option.bind_some]
    split at h
    · -- what the client has is still good
      rename_i hmod
      obtain ⟨a, -, h⟩ := Res.bind_ok.1 h
      cases h
      exact .inl ⟨if_pos hmod, rfl⟩
    · rename_i hmod
      obtain ⟨mime_type, hmime, h⟩ := Res.bind_ok.1 h
      obtain ⟨rhd, hrhd, h⟩ := Res.bind_ok.1 h
      obtain ⟨⟨head, hd⟩, hhead, h⟩ := Res.bind_ok.1 h
      have hmime : rq.RESOURCE_MIME = some mime_type := deref_ok.1 hmime
      cases h
      rw [if_neg hmod]
      simp only [hmime, hrhd, hhead, Except.toOption, Option.bind_some]
      unfold __f
      cases hopen : sys.open_file fds.table path with
      | none => exact .inl ⟨rfl, rfl⟩
      | some fd => exact .inr ⟨head, _, fd, rfl, sys.fresh hopen, sys.blocks_getD, rfl⟩

theorem serve_file_fds {p : Task × Request} (h : serve_file sys fds rq = .ok (p, fds')) :
    ∃ b, FdOutcome fds b fds' ∧ (b = true ↔ ∀ head blocks, sys.sending fds.table rq = some (head, blocks) →
      ¬head.Refuses sys.gzip blocks) := by
  rcases serve_file_cases h with ⟨hs, rfl⟩ | ⟨head, blocks, fd, hs, hfd, hb, rfl⟩
  · refine ⟨true, .unused, iff_of_true rfl fun head blocks he => ?_⟩
    rw [hs] at he
    cases he
  · refine ⟨(head.sendFile sys.gzip blocks).1, ?_, ?_⟩
    · cases (head.sendFile sys.gzip blocks).1 with
      | true => exact .closed hfd
      | false => exact .left hfd
    · rw [← Bool.not_eq_false, ZClient.sendFile_fails_iff hb, hs]
      constructor
      · intro href c bs he
        cases he
        exact href
      · exact fun href => href head blocks rfl

theorem filePart_fds {boundary part_name part_file : Bytes} {p : Option Bytes × Request}
    (h : filePart sys cnf fds rq boundary part_name part_file = .ok (p, fds')) :
    ∃ b, FdOutcome fds b fds' ∧
      (b = true ↔ sys.open_file fds.table (uploadPath cnf.tmpdir part_file sys.time) ≠ some 0) := by
  unfold filePart at h
  dsimp only at h
  split at h
  · rename_i fd hopen
    obtain ⟨dic, -, h⟩ := Res.bind_ok.1 h
    cases h
    refine ⟨true, .closed (sys.fresh hopen), iff_of_true rfl ?_⟩
    rw [hopen]
    simp
  · rename_i hopen
    cases h
    exact ⟨false, .left (sys.fresh hopen), iff_of_false nofun (not_not.2 hopen)⟩
  · rename_i hopen
    cases h
    refine ⟨true, .unused, iff_of_true rfl ?_⟩
    rw [hopen]
    exact nofun

/-- A file is opened for a part that has a name and a file name. -/
theorem partData_fds {boundary : Bytes} {names : Option Bytes × Option Bytes} {p : Option Bytes × Request}
    (h : partData sys cnf fds rq boundary names = .ok (p, fds')) :
    ∃ b, FdOutcome fds b fds' ∧ (b = true ↔ ∀ file,
      (names.1.bind fun _ => names.2.map fun part_file => uploadPath cnf.tmpdir part_file sys.time) = some file →
        sys.open_file fds.table file ≠ some 0) := by
  unfold partData at h
  split at h
  · cases h
    exact ⟨true, .unused, iff_of_true rfl nofun⟩
  · dsimp only at h
    split at h
    · obtain ⟨r, -, hr⟩ := Res.map_ok.1 h
      cases hr
      exact ⟨true, .unused, iff_of_true rfl nofun⟩
    · obtain ⟨b, hout, hb⟩ := filePart_fds h
      refine ⟨b, hout, hb.trans ?_⟩
      simp only [Option.bind_some, Option.map_some, Option.some.injEq, forall_eq']

theorem decode_multi_part_request_data_fds {p : Task × Request}
    (h : decode_multi_part_request_data sys cnf fds rq = .ok (p, fds')) :
    ∃ b, FdOutcome fds b fds' ∧
      (b = true ↔ ∀ file, saving cnf sys.time rq = some file → sys.open_file fds.table file ≠ some 0) := by
  unfold decode_multi_part_request_data at h
  dsimp only at h
  split at h
  · rename_i hline
    cases h
    have hnone : saving cnf sys.time rq = none := if_pos hline
    refine ⟨true, .unused, iff_of_true rfl fun file he => ?_⟩
    rw [hnone] at he
    cases he
  · rename_i hline
    obtain ⟨boundary, -, h⟩ := Res.bind_ok.1 h
    obtain ⟨⟨⟨line, rq'⟩, fds₁⟩, hpart, h⟩ := Res.bind_ok.1 h
    obtain rfl : fds₁ = fds' := by
      dsimp only at h
      split at h <;> (cases h; rfl)
    change partData _ _ _ _ _ (partNames rq) = _ at hpart
    obtain ⟨b, hout, hb⟩ := partData_fds hpart
    refine ⟨b, hout, hb.trans ?_⟩
    rw [saving, if_neg hline]

/-- No block of a file is refused, and no file is saved under descriptor 0. -/
def Closes (sys : FdSys σ) (cnf : Config) (fds : Fds) (rq : Request) : Handler → Prop
  | .serve_file => ∀ head blocks, sys.sending fds.table rq = some (head, blocks) → ¬head.Refuses sys.gzip blocks
  | .decode_multi_part_request_data =>
    ∀ file, saving cnf sys.time rq = some file → sys.open_file fds.table file ≠ some 0
  | _ => True

theorem callHandler_fds {h : Handler} {p : Option Task × Option Request}
    (hc : callHandler sys cnf fds rq h = .ok (p, fds')) :
    ∃ b, FdOutcome fds b fds' ∧ (b = true ↔ Closes sys cnf fds rq h) := by
  have hsame {r : Res (Option Task × Option Request)} (hr : r.map (fun p => (p, fds)) = .ok (p, fds')) :
      ∃ b, FdOutcome fds b fds' ∧ (b = true ↔ True) := by
    obtain ⟨q, -, hq⟩ := Res.map_ok.1 hr
    cases hq
    exact ⟨true, .unused, iff_of_true rfl trivial⟩
  cases h with
  | serve_file =>
    obtain ⟨q, hq, he⟩ := Res.map_ok.1 hc
    cases he
    exact serve_file_fds hq
  | decode_multi_part_request_data =>
    obtain ⟨q, hq, he⟩ := Res.map_ok.1 hc
    cases he
    exact decode_multi_part_request_data_fds hq
  | accept_request | decode_request_header | decode_request | resolve_request | proxify | proxy_monitor
    | decode_post_request => exact hsame hc
  | finish_request | plugin name fn =>
    cases hc
    exact ⟨true, .unused, iff_of_true rfl trivial⟩

end FdSys

namespace FdConn

variable {σ : Type} {cnf : Config} {sys : FdSys σ} {s s' : FdConn} {table : Finset Nat}

/-- The handler that runs next closes what it opens. -/
def Closes (cnf : Config) (sys : FdSys σ) (s : FdConn) : Prop :=
  ∀ c h, s.conn = some c → c.task.handle = some h → sys.Closes cnf s.fds c.rq h

theorem step_fds (h : step cnf sys s = some s') : ∃ b, FdOutcome s.fds b s'.fds ∧ (b = true ↔ Closes cnf sys s) := by
  obtain ⟨c, hc, h⟩ := Option.bind_eq_some_iff.1 h
  obtain ⟨g, hg, h⟩ := Res.bind_ok.1 (Res.toOption_eq.1 h)
  obtain ⟨⟨⟨ret, rq⟩, fds⟩, hr, h⟩ := Res.bind_ok.1 h
  cases h
  obtain ⟨b, hout, hb⟩ := FdSys.callHandler_fds hr
  refine ⟨b, hout, hb.trans ⟨fun hcl c' h' hc' hh' => ?_, fun hcl => hcl c g hc (deref_ok.1 hg)⟩⟩
  obtain rfl : c = c' := Option.some.inj (hc.symm.trans hc')
  obtain rfl : g = h' := Option.some.inj ((deref_ok.1 hg).symm.trans hh')
  exact hcl

/-- A request that is followed with its descriptors is one of the pipeline. -/
theorem reachable (h : Runs.Run (step cnf) (Uncompressed (σ := σ)) (Accepted cnf table) s) {c : Conn} (hc : s.conn = some c) :
    Conn.Reachable cnf c := by
  induction h generalizing c with
  | init hi =>
    obtain ⟨c', hacc, rfl⟩ := hi
    cases hc
    exact .init hacc
  | @step s s' sys _ hl hs ih =>
    obtain ⟨c', hc', hs⟩ := Option.bind_eq_some_iff.1 hs
    refine .step (ih hc') trivial (i := sys.seen s.fds.table) ?_
    rw [Conn.step, execute_proj (hl c' hc') (Res.toOption_eq.1 hs)]
    exact hc

/-- The files open are the same and every one has been closed again, in every run whose steps close what they open;
and only such a step keeps them the same. -/
theorem descriptors_kept (σ : Type) (cnf : Config) (table : Finset Nat) :
    (∀ s, Runs.Run (step cnf) (Closes (σ := σ) cnf) (Accepted cnf table) s → s.fds.table = table ∧ Balanced s.fds.log) ∧
      ∀ (sys : FdSys σ) (s s' : FdConn), step cnf sys s = some s' → (s'.fds.table = s.fds.table ↔ Closes cnf sys s) := by
  constructor
  · intro s h
    refine h.inv (fun s => s.fds.table = table ∧ Balanced s.fds.log) ?_ ?_
    · rintro _ ⟨c, -, rfl⟩
      exact ⟨rfl, .nil⟩
    · rintro sys s s' ⟨htable, hlog⟩ hok hs
      obtain ⟨b, hout, hb⟩ := step_fds hs
      obtain rfl := hb.2 hok
      exact ⟨(hout.table_iff.2 rfl).trans htable, hout.balanced hlog⟩
  · intro sys s s' hs
    obtain ⟨b, hout, hb⟩ := step_fds hs
    exact hout.table_iff.trans hb

/-- Surroundings with one page, in which `open` gives a number above all that are in use. -/
def pageSys : FdSys (Compress × Bool) :=
  { sampleSys [str "/www//a.html"] with
    readFile := fun _ => some [str "hi"]
    open_file := fun table _ => some (table.sup id + 1)
    fresh := fun {table file fd} h hm => by
      have hle : fd ≤ table.sup id := Finset.le_sup (f := id) hm
      have hfd := Option.some.inj h
      omega
    blocks := fun {file bs} h b hb => by
      cases h
      rw [List.mem_singleton.1 hb]
      decide
    zlib := Exchange.smallZlib
    g_gzip_types := some [some (str "text/html")]
    opened := some (.CGZ, false) }

/-- The page is asked for, with these fields, by a client that the given outcomes await. -/
def pageConn (fields : String) (output : List SendEv) : FdConn :=
  ⟨some (antd_monitor (samplePort none []) 4 0 (atOnce (str "GET /a.html HTTP/1.1\r\n" ++ str fields ++ str "\r\n")) output),
    ⟨{0, 1, 2}, []⟩⟩

theorem pageConn_accepted (fields : String) (output : List SendEv) :
    Accepted (sampleConfig none []) {0, 1, 2} (pageConn fields output) := by
  refine ⟨_, ⟨samplePort none [], 4, 0, _, _, ?_, rfl⟩, rfl⟩
  have hp : str "80" = decimal 80 := by decide
  simp [sampleConfig, samplePort, dictOf, hp]

/-- A run whose steps never open a file and nothing else. -/
theorem run_unchanged {init : FdConn → Prop} {is : List (FdSys σ)} (h : Runs.Run (step cnf) (Closes (σ := σ) cnf) init s)
    (hr : Runs.runAll (fun sys s => (step cnf sys s).filter fun s' => s'.fds.log.length ≠ s.fds.log.length + 1) is s =
      some s') : Runs.Run (step cnf) (Closes (σ := σ) cnf) init s' := by
  induction is generalizing s with
  | nil => cases hr; exact h
  | cons sys is ih =>
    obtain ⟨t, ht, hr⟩ := Option.bind_eq_some_iff.1 hr
    obtain ⟨hstep, hlog⟩ := Option.filter_eq_some_iff.1 ht
    obtain ⟨b, hout, hb⟩ := step_fds hstep
    exact ih (.step h (hb.1 (hout.closes (of_decide_eq_true hlog))) hstep) hr

/-- The page is sent to its end. -/
theorem descriptors_kept_page : ∃ s : FdConn, s.conn = none ∧ s.fds.log = [.opened 3, .closed 3] ∧
    s.fds.table = {0, 1, 2} ∧ Balanced s.fds.log := by
  have hrun : (Runs.runAll (fun sys s => (step (sampleConfig none []) sys s).filter
      fun s' => s'.fds.log.length ≠ s.fds.log.length + 1) (List.replicate 6 pageSys)
      (pageConn "" (List.replicate 20 (.room 1023 0)))).map
      (fun s => (s.conn.isNone, s.fds.log)) = some (true, [.opened 3, .closed 3]) := by decide +kernel
  obtain ⟨s, hs, he⟩ := Option.map_eq_some_iff.1 hrun
  obtain ⟨hconn, hlog⟩ := Prod.mk.inj he
  have hreach := run_unchanged (.init (pageConn_accepted _ _)) hs
  exact ⟨s, Option.isNone_iff_eq_none.1 hconn, hlog, (descriptors_kept _ (sampleConfig none []) {0, 1, 2}).1 s hreach⟩

/-- The client is gone after the header: the request is over and the page still open. -/
theorem descriptor_left : ∃ s, Runs.Reachable (step (σ := Compress × Bool) (sampleConfig none []))
    (Accepted (sampleConfig none []) {0, 1, 2}) s ∧ s.conn = none ∧ s.fds.log = [.opened 3] ∧ 3 ∈ s.fds.table := by
  have hrun : (Runs.runAll (step (sampleConfig none [])) (List.replicate 6 pageSys)
      (pageConn "" (List.replicate 13 (.room 1023 0) ++ [.error 0]))).map
      (fun s => (s.conn.isNone, s.fds.log, decide (3 ∈ s.fds.table))) = some (true, [.opened 3], true) := by
    decide +kernel
  obtain ⟨s, hs, he⟩ := Option.map_eq_some_iff.1 hrun
  obtain ⟨hconn, he⟩ := Prod.mk.inj he
  obtain ⟨hlog, hmem⟩ := Prod.mk.inj he
  exact ⟨s, Runs.reachable_runAll (.init (pageConn_accepted _ _)) hs, Option.isNone_iff_eq_none.1 hconn, hlog,
    of_decide_eq_true hmem⟩

/-- A client that takes gzip is gone after the header as well: nobody is told, and the page is closed. -/
example : (Runs.runAll (step (sampleConfig none [])) (List.replicate 6 pageSys)
    (pageConn "Accept-Encoding: gzip\r\n" (List.replicate 13 (.room 1023 0) ++ [.error 0]))).map
    (fun s => (s.conn.isNone, s.fds.log)) = some (true, [.opened 3, .closed 3]) := by decide +kernel

end FdConn

end AntHttp
