import AntHttp.Requests
import AntHttp.Resolve
import AntHttp.Transfers
/-!
# What a request is answered

`responseTo` says what a port without rules and without upgrades has to say to a
request: a page for each error, the file for a path. The steps of the connection
write exactly this answer, once, and then finish the request.
-/

set_option linter.style.nameCheck false

namespace AntHttp

open CString

/-! ## Answers -/

/-- A status, the fields of the head and the body in the pieces it is handed over in. -/
structure Response where
  status : Nat
  header : Dictionary Bytes
  body : List Bytes

/-- The fields with the one that `antd_send_header` adds. -/
def Response.fields (r : Response) : Dictionary Bytes := r.header.dput (str "Server") (some (str "Antd"))

def Response.text (r : Response) : Bytes := headText r.status r.fields ++ r.body.flatten

def Response.sends (r : Response) : List Bytes := headPieces r.status r.fields ++ r.body

/-- The page of an error. -/
def errorPage (status : Nat) (msg : String) : Response where
  status := status
  header := (Dictionary.dict.dput (str "Content-Type") (some (str "text/html; charset=utf-8"))).dput
    (str "Content-Length") (some (decimal (HTML_TPL (get_status_str status) (str msg)).length))
  body := pieces (HTML_TPL (get_status_str status) (str msg))

/-- What becomes of a file at the time it is served. -/
def fileResponse (sys : Sys) (header : Dictionary Bytes) (path mime_type : Bytes) : Response :=
  match sys.stat 0 path with
  | none => errorPage 404 "File not found"
  | some st =>
    if (header.dvalue (str "If-Modified-Since")).any fun d => st.st_ctime = sys.parseDate d then errorPage 304 ""
    else ⟨200, fileHeader sys mime_type st, (sys.readFile path).getD []⟩

/-- A plugin that is not enabled or not there. One that is loaded answers for itself. -/
def pluginResponse (sys : Sys) (pcnf : PortConfig) (pname : Bytes) : Option Response :=
  match pluginEnabled sys pcnf pname with
  | .ok false => some (errorPage 403 "Access forbidden")
  | .ok true => if (sys.antd_plugin_load pname).isNone then some (errorPage 503 "Requested service not found") else none
  | .error _ => none

def resourceResponse (resolves serves : Sys) (cnf : Config) (pcnf : PortConfig) (header : Dictionary Bytes) : Resolved → Option Response
  | .file path => (mime resolves.regexec cnf.mimes path).toOption.map (fileResponse serves header path)
  | .plugin pname _ => pluginResponse resolves pcnf pname
  | .forbidden _ => some (errorPage 403 "Access forbidden")
  | .missing => some (errorPage 404 "Resource Not Found")

/-- What the server has to say to the request, if it is for the server to say. -/
def responseTo (resolves serves : Sys) (cnf : Config) (pcnf : PortConfig) (method url : Bytes) (header : Dictionary Bytes) :
    Option Response :=
  if method ∈ [str "GET", str "HEAD", str "OPTIONS", str "DELETE", str "POST", str "PUT", str "PATCH"] then
    (resolved resolves cnf pcnf.htdocs url).toOption.bind (resourceResponse resolves serves cnf pcnf header)
  else some (errorPage 501 "Request Method Not Implemented")

/-! ## The answer is written -/

section

variable {c : Client} {t' : Int} {rest : List SendEv} {header : Dictionary Bytes} {status : Nat} {msg : String} {r : Response}

/-- The client once the answer has been written. -/
def Client.told (c : Client) (r : Response) (t' : Int) (rest : List SendEv) : Client :=
  { c with answers := c.answers ++ [r.status] }.after r.text t' rest

/-- A response whose pieces are all taken: the head first. -/
theorem Taken.sends_header (h : Taken c.last_io (r.sends.map (·.length)) c.output t' rest) : ∃ t₁ evs₁,
    antd_send_header c r.status r.header = { c with answers := c.answers ++ [r.status] }.after (headText r.status r.fields) t₁ evs₁ ∧
      Taken t₁ (r.body.map (·.length)) evs₁ t' rest := by
  rw [Response.sends, List.map_append] at h
  obtain ⟨t₁, evs₁, h₁, h₂⟩ := h.append
  refine ⟨t₁, evs₁, ?_, h₂⟩
  unfold antd_send_header
  exact Taken.head (c := { c with answers := c.answers ++ [r.status] }) h₁

theorem Taken.sends_error (h : Taken c.last_io ((errorPage status msg).sends.map (·.length)) c.output t' rest) :
    antd_error c status msg = c.told (errorPage status msg) t' rest := by
  obtain ⟨t₁, evs₁, hhead, hbody⟩ := h.sends_header
  have htold := Taken.b (c := { c with answers := c.answers ++ [status] }.after
    (headText status (errorPage status msg).fields) t₁ evs₁) hbody
  rw [Client.after_after] at htold
  have herror : antd_error c status msg =
      (__b (antd_send_header c (errorPage status msg).status (errorPage status msg).header)
        (HTML_TPL (get_status_str status) (str msg))).2 := by
    unfold antd_error
    rfl
  rw [herror, hhead]
  refine (congrArg Prod.snd htold).trans ?_
  rw [Client.told, Response.text, show (errorPage status msg).body = pieces _ from rfl, pieces_flatten]
  rfl

/-- The head of a file and the file behind it. -/
theorem Taken.sends_file (h : Taken c.last_io (r.sends.map (·.length)) c.output t' rest) :
    __f (antd_send_header c r.status r.header) r.body = c.told r t' rest := by
  obtain ⟨t₁, evs₁, hhead, hbody⟩ := h.sends_header
  have htold := Taken.sendPieces (c := { c with answers := c.answers ++ [r.status] }.after (headText r.status r.fields) t₁ evs₁) hbody
  rw [Client.after_after] at htold
  rw [hhead, f_eq, sendFile, htold]
  rfl

/-- There is room for all of the response, whenever it is sent. -/
def Response.Fits (r : Response) (output : List SendEv) : Prop := ∀ t, ∃ t' rest, Taken t (r.sends.map (·.length)) output t' rest

/-- The response has been written, and nothing else. -/
structure Tells (c : Client) (r : Response) (c' : Client) : Prop where
  wire : c'.wire = c.wire ++ r.text
  answers : c'.answers = c.answers ++ [r.status]

/-- Nothing has been written. -/
structure Unsent (c c' : Client) : Prop where
  wire : c'.wire = c.wire
  output : c'.output = c.output
  answers : c'.answers = c.answers

variable {c' : Client}

theorem Unsent.refl (c : Client) : Unsent c c := ⟨rfl, rfl, rfl⟩

theorem Client.Receives.unsent (h : c.Receives c') : Unsent c c' := by
  obtain ⟨t, rest, rfl⟩ := h
  exact ⟨rfl, rfl, rfl⟩

theorem Unsent.trans {c'' : Client} (h : Unsent c c') (h' : Unsent c' c'') : Unsent c c'' :=
  ⟨h'.wire.trans h.wire, h'.output.trans h.output, h'.answers.trans h.answers⟩

theorem Unsent.tells {c'' : Client} (h : Unsent c c') (h' : Tells c' r c'') : Tells c r c'' :=
  ⟨h.wire ▸ h'.wire, h.answers ▸ h'.answers⟩

theorem Response.Fits.error (h : (errorPage status msg).Fits c.output) : Tells c (errorPage status msg) (antd_error c status msg) := by
  obtain ⟨t', rest, htaken⟩ := h c.last_io
  rw [htaken.sends_error]
  exact ⟨rfl, rfl⟩

theorem Response.Fits.file (h : r.Fits c.output) : Tells c r (__f (antd_send_header c r.status r.header) r.body) := by
  obtain ⟨t', rest, htaken⟩ := h c.last_io
  rw [htaken.sends_file]
  exact ⟨rfl, rfl⟩

theorem discardBody_receives (c : Client) (clen read : UInt32) : c.Receives (discardBody c clen read) := by
  fun_induction discardBody c clen read with
  | case1 c read _ _ c' h =>
    have hrec := antd_recv_receives c (min BUF_SIZE clen.toNat)
    rwa [h] at hrec
  | case2 c read _ _ b data c' h ih =>
    have hrec := antd_recv_receives c (min BUF_SIZE clen.toNat)
    rw [h] at hrec
    exact hrec.trans ih
  | case3 c => exact .refl c

end

/-! ## The handlers -/

section

variable {sys resolves serves : Sys} {cnf : Config} {pcnf : PortConfig} {rq rq' : Request} {t : Task} {r : Response}
  {root url pname path mime_type : Bytes} {header : Dictionary Bytes} {out : Res (Task × Request)} {res : Resolved}

/-- A handler that writes the response, and whose task is over. -/
def Concludes (rq : Request) (r : Response) (out : Res (Task × Request)) : Prop :=
  ∃ t rq', out = .ok (t, rq') ∧ t.handle = none ∧ t.callback = [] ∧ Tells rq.client r rq'.client

theorem ends_error {status : Nat} {msg : String} {rq₁ : Request} (h : (errorPage status msg).Fits rq.client.output)
    (hq : Unsent rq.client rq₁.client) (hh : t.handle = none) (hc : t.callback = []) :
    Concludes rq (errorPage status msg) (.ok (t, rq₁.antd_error status msg)) := by
  rw [← hq.output] at h
  exact ⟨_, _, rfl, hh, hc, hq.tells h.error⟩

theorem execute_plugin_ends {rq₁ : Request} (hp : cnf.port rq₁.SERVER_PORT = .ok (some pcnf))
    (hq : Unsent rq.client rq₁.client) (hr : pluginResponse sys pcnf pname = some r) (h : r.Fits rq.client.output) :
    Concludes rq r (execute_plugin sys cnf rq₁ pname) := by
  unfold pluginResponse at hr
  unfold execute_plugin
  rw [hp, Res.ok_bind, deref_some, Res.ok_bind]
  cases he : pluginEnabled sys pcnf pname with
  | error e =>
    rw [he] at hr
    cases hr
  | ok enabled =>
    rw [he] at hr
    rw [Res.ok_bind]
    cases enabled with
    | false =>
      cases hr
      exact ends_error h hq rfl rfl
    | true =>
      cases hl : sys.antd_plugin_load pname with
      | some ctx =>
        simp [hl] at hr
      | none =>
        simp only [hl, Option.isNone_none, if_true, Option.some.injEq] at hr
        subst hr
        simp only [if_true]
        exact ends_error h ⟨hq.wire, hq.output, hq.answers⟩ rfl rfl

/-- The file is left to the handler that serves it. -/
structure LeftToServe (rq : Request) (path mime_type : Bytes) (t : Task) (rq' : Request) : Prop where
  handle : t.handle = some .serve_file
  callback : t.callback = []
  unsent : Unsent rq.client rq'.client
  path : rq'.RESOURCE_PATH = some path
  mime : rq'.RESOURCE_MIME = some mime_type
  header : rq'.REQUEST_HEADER = rq.REQUEST_HEADER

/-- What a plugin that takes the request over finds in it. -/
structure Passed (rq rq' : Request) : Prop where
  port : rq'.SERVER_PORT = rq.SERVER_PORT
  method : rq'.METHOD = rq.METHOD
  header : rq'.REQUEST_HEADER = rq.REQUEST_HEADER
  data : rq'.REQUEST_DATA = rq.REQUEST_DATA
  loads : rq'.loads = rq.loads
  unsent : Unsent rq.client rq'.client
  has : ∀ bs, rq.client.Has bs → rq'.client.Has bs

/-- What `resolve_request` does with a request that is resolved so. -/
def ResolvesTo (sys : Sys) (cnf : Config) (rq : Request) (out : Res (Task × Request)) : Resolved → Prop
  | .file path => ∃ (mime_type : Bytes) (t : Task) (rq' : Request), mime sys.regexec cnf.mimes path = .ok mime_type ∧ out = .ok (t, rq') ∧
      LeftToServe rq path mime_type t rq'
  | .plugin pname _ => ∃ rq₁ : Request, out = execute_plugin sys cnf rq₁ pname ∧ Passed rq rq₁
  | .forbidden _ => ∃ (t : Task) (rq₁ : Request), out = .ok (t, rq₁.antd_error 403 "Access forbidden") ∧ t.handle = none ∧ t.callback = [] ∧
      Unsent rq.client rq₁.client
  | .missing => ∃ (t : Task) (rq₁ : Request), out = .ok (t, rq₁.antd_error 404 "Resource Not Found") ∧ t.handle = none ∧ t.callback = [] ∧
      Unsent rq.client rq₁.client

theorem serveResource_leads (rq : Request) (hres : resolvedAt sys cnf path = .ok res) (hh : t.handle = none) (hc : t.callback = []) :
    ResolvesTo sys cnf rq (serveResource sys cnf rq t path) res := by
  obtain ⟨mime_type, hm, hres⟩ := Res.map_ok.1 hres
  unfold serveResource
  rw [hm, Res.ok_bind]
  dsimp only
  by_cases ho : mime_type = OCTET_STREAM
  · rw [if_pos ho] at hres ⊢
    cases hg : (ext path).bind cnf.handlers.dvalue with
    | some g =>
      rw [hg] at hres
      subst hres
      exact ⟨_, rfl, rfl, rfl, rfl, rfl, rfl, .refl _, fun _ h => h⟩
    | none =>
      rw [hg] at hres
      subst hres
      exact ⟨_, _, rfl, hh, hc, .refl _⟩
  · rw [if_neg ho] at hres ⊢
    subst hres
    exact ⟨mime_type, _, _, hm, rfl, rfl, hc, (discardBody_receives ..).unsent, rfl, rfl, rfl⟩

theorem resolve_request_leads (hu : rq.REQUEST_URI = some url) (hr : rq.SERVER_WWW_ROOT = some root)
    (hres : resolved sys cnf root url = .ok res) : ResolvesTo sys cnf rq (resolve_request sys cnf rq) res := by
  have hroot : (rq.set_state .RESOLVE_REQUEST).SERVER_WWW_ROOT = some root := hr
  have hstate : Unsent rq.client (rq.set_state .RESOLVE_REQUEST).client := ⟨rfl, rfl, rfl⟩
  -- the effects are those on a request whose state has changed
  have serve {path : Bytes} {task : Task} (h : resolvedAt sys cnf path = .ok res) (hh : task.handle = none) (hc : task.callback = []) :
      ResolvesTo sys cnf rq (serveResource sys cnf (rq.set_state .RESOLVE_REQUEST) task path) res := by
    have hl := serveResource_leads (rq.set_state .RESOLVE_REQUEST) h hh hc
    cases res with
    | file path =>
      obtain ⟨m, t, rq', hm, hout, hs⟩ := hl
      exact ⟨m, t, rq', hm, hout, hs.handle, hs.callback, hstate.trans hs.unsent, hs.path, hs.mime, hs.header⟩
    | plugin pname path =>
      obtain ⟨rq₁, hout, hp⟩ := hl
      exact ⟨rq₁, hout, hp.port, hp.method, hp.header, hp.data, hp.loads, hstate.trans hp.unsent, hp.has⟩
    | forbidden | missing =>
      obtain ⟨t, rq₁, hout, hh, hc, hq⟩ := hl
      exact ⟨t, rq₁, hout, hh, hc, hstate.trans hq⟩
  unfold resolved at hres
  unfold resolve_request
  rw [hu, deref_some, Res.ok_bind]
  dsimp only at hres ⊢
  rw [hroot, deref_some, Res.ok_bind]
  cases hs : sys.stat 0 (snprintf BUF_SIZE (root ++ [47] ++ url)) with
  | none =>
    rw [hs] at hres
    cases hres
    exact ⟨_, rfl, rfl, rfl, rfl, rfl, rfl, hstate, fun _ h => h⟩
  | some st =>
    rw [hs] at hres
    dsimp only at hres ⊢
    by_cases hd : st.isDir
    · rw [if_pos hd] at hres ⊢
      split at hres
      · cases hres
      · rename_i hle
        rw [if_neg hle]
        split at hres
        · rename_i hi
          rw [if_pos hi]
          exact serve hres rfl rfl
        · rename_i hi
          rw [if_neg hi]
          cases hx : handlerIndex sys root url 2 cnf.handlers.assocs with
          | some path =>
            rw [hx] at hres
            exact serve hres rfl rfl
          | none =>
            rw [hx] at hres
            cases hres
            exact ⟨_, _, rfl, rfl, rfl, hstate⟩
    · rw [if_neg hd] at hres ⊢
      exact serve hres rfl rfl

/-- The file that was found is served, unless it is gone or the client has it. -/
theorem serve_file_ends (hp : rq.RESOURCE_PATH = some path) (hm : rq.RESOURCE_MIME = some mime_type)
    (hh : rq.REQUEST_HEADER = some header) (h : (fileResponse sys header path mime_type).Fits rq.client.output) :
    Concludes rq (fileResponse sys header path mime_type) (serve_file sys rq) := by
  have hpath : (rq.set_state .SERVE_FILE).RESOURCE_PATH = some path := hp
  have hmime : (rq.set_state .SERVE_FILE).RESOURCE_MIME = some mime_type := hm
  have hheader : (rq.set_state .SERVE_FILE).REQUEST_HEADER = some header := hh
  have hstate : Unsent rq.client (rq.set_state .SERVE_FILE).client := ⟨rfl, rfl, rfl⟩
  unfold serve_file
  dsimp only
  rw [hpath, deref_some, Res.ok_bind]
  unfold fileResponse at h ⊢
  cases hs : sys.stat 0 path with
  | none =>
    rw [hs] at h
    exact ends_error h hstate rfl rfl
  | some st =>
    rw [hs] at h
    dsimp only at h ⊢
    rw [hheader, deref_some, Res.ok_bind]
    split at h
    · rename_i hseen
      rw [if_pos hseen, if_pos hseen]
      exact ends_error h hstate rfl rfl
    · rename_i hseen
      rw [if_neg hseen, if_neg hseen, hmime, deref_some, Res.ok_bind]
      have htells := Response.Fits.file (c := (rq.set_state .SERVE_FILE).client) h
      exact ⟨_, _, rfl, rfl, rfl, hstate.tells htells⟩

theorem decode_request_goes (hh : rq.REQUEST_HEADER = some header) (hk : header.dvalue (str "Sec-WebSocket-Key") = none)
    {method : Bytes} (hm : rq.METHOD = some method)
    (hmem : method ∈ [str "GET", str "HEAD", str "OPTIONS", str "DELETE", str "POST", str "PUT", str "PATCH"]) :
    decode_request sys rq =
      .ok ({ antd_create_task none none rq.client.last_io with handle := some .resolve_request }, rq) := by
  unfold decode_request
  rw [hh, deref_some, Res.ok_bind, hm, deref_some, Res.ok_bind]
  dsimp only
  rw [hk]
  by_cases hget : method = str "GET"
  · rw [if_pos hget, upgrade]
    · rfl
    · intro ws_key hws hnone
      cases hnone
  · rw [if_neg hget, if_pos ((List.mem_cons.1 hmem).resolve_left hget)]
    rfl

theorem decode_request_ends (hh : rq.REQUEST_HEADER = some header) {method : Bytes} (hm : rq.METHOD = some method)
    (hmem : method ∉ [str "GET", str "HEAD", str "OPTIONS", str "DELETE", str "POST", str "PUT", str "PATCH"])
    (h : (errorPage 501 "Request Method Not Implemented").Fits rq.client.output) :
    Concludes rq (errorPage 501 "Request Method Not Implemented") (decode_request sys rq) := by
  rw [List.mem_cons, not_or] at hmem
  unfold decode_request
  rw [hh, deref_some, Res.ok_bind, hm, deref_some, Res.ok_bind]
  dsimp only
  rw [if_neg hmem.1, if_neg hmem.2]
  exact ends_error h (.refl _) rfl rfl

end

/-! ## The run -/

def RequestText.url (r : RequestText) : Bytes := url_decode (splitQuery r.target).1

theorem RequestText.Readable.take_target {r : RequestText} (h : r.Readable) : r.target.take (BUF_SIZE - 1) = r.target := by
  apply List.take_of_length_le
  have hline := h.line
  rw [RequestText.line] at hline
  simp only [List.length_append, List.length_cons, BUFFLEN] at hline
  rw [BUF_SIZE, BUFFLEN]
  omega

/-- The last handler of a request is next. -/
structure Finishing (r : Response) (c : Conn) : Prop where
  handle : c.task.handle = some .finish_request
  callback : c.task.callback = []
  wire : c.rq.client.wire = r.text
  answers : c.rq.client.answers = [r.status]

section

variable {sys : Sys} {c c' : Conn} {g : Handler} {r : Response}

/-- A handler whose task is over leaves the request to the callback. -/
theorem Conn.step_ends (cnf : Config) (hh : c.task.handle = some g) (hcb : c.task.callback = [.finish_request]) (hw : c.rq.client.wire = [])
    (ha : c.rq.client.answers = []) {out : Res (Task × Request)}
    (hcall : callHandler sys cnf c.rq g = out.map fun p => (some p.1, some p.2)) (hout : Concludes c.rq r out) :
    ∃ c', Conn.step cnf sys c = some c' ∧ Finishing r c' := by
  obtain ⟨t, rq', rfl, hnone, hnil, htells⟩ := hout
  refine ⟨⟨{ t with handle := some .finish_request, callback := [] }, rq'⟩, ?_, rfl, rfl, ?_, ?_⟩
  · exact Conn.step_callback hh hcall hnone (by rw [hnil, hcb]; rfl)
  · rw [htells.wire, hw, List.nil_append]
  · rw [htells.answers, ha, List.nil_append]

end

section

variable {cnf : Config} {pcnf : PortConfig} {resolves serves : Sys} {method url : Bytes} {header : Dictionary Bytes} {a : Response}

/-- The sizes are those of the files, and fit an `int`. -/
def Sys.Measured (sys : Sys) : Prop := ∀ path st, sys.stat 0 path = some st →
  st.st_size = ((sys.readFile path).getD []).flatten.length ∧ st.st_size < 2 ^ 31

/-- The body is as long as the head says. -/
def Response.Announced (r : Response) : Prop := r.fields.dvalue (str "Content-Length") = some (decimal r.body.flatten.length)

theorem errorPage_announced (status : Nat) (msg : String) : (errorPage status msg).Announced := by
  have hne : str "Content-Length" ≠ str "Server" := by decide +kernel
  rw [Response.Announced, Response.fields, Dictionary.dvalue_dput, if_neg hne, errorPage]
  dsimp only
  rw [Dictionary.dvalue_dput_self, pieces_flatten]

theorem fileResponse_announced (hs : serves.Measured) (path mime_type : Bytes) :
    (fileResponse serves header path mime_type).Announced := by
  unfold fileResponse
  cases hst : serves.stat 0 path with
  | none => exact errorPage_announced 404 _
  | some st =>
    dsimp only
    split
    · exact errorPage_announced 304 _
    · obtain ⟨hsize, hlt⟩ := hs path st hst
      have hne : ∀ k ∈ [str "Server", str "Cache-Control", str "Last-Modified"], str "Content-Length" ≠ k := by decide +kernel
      rw [List.forall_mem_cons, List.forall_mem_cons, List.forall_mem_singleton] at hne
      rw [Response.Announced, Response.fields, Dictionary.dvalue_dput, if_neg hne.1, fileHeader]
      dsimp only
      rw [Dictionary.dvalue_dput, if_neg hne.2.1, Dictionary.dvalue_dput, if_neg hne.2.2, Dictionary.dvalue_dput_self,
        hsize, (size_recorded_iff _).2 (by omega)]

theorem responseTo_announced (hs : serves.Measured) (h : responseTo resolves serves cnf pcnf method url header = some a) :
    a.Announced := by
  unfold responseTo at h
  split at h
  · obtain ⟨res, -, h⟩ := Option.bind_eq_some_iff.1 h
    cases res with
    | file path =>
      obtain ⟨mime_type, -, rfl⟩ := Option.map_eq_some_iff.1 h
      exact fileResponse_announced hs path mime_type
    | plugin pname path =>
      simp only [resourceResponse, pluginResponse] at h
      split at h
      · cases h
        exact errorPage_announced 403 _
      · split at h
        · cases h
          exact errorPage_announced 503 _
        · cases h
      · cases h
    | forbidden =>
      cases h
      exact errorPage_announced 403 _
    | missing =>
      cases h
      exact errorPage_announced 404 _
  · cases h
    exact errorPage_announced 501 _

theorem responseTo_resolved (hmem : method ∈ [str "GET", str "HEAD", str "OPTIONS", str "DELETE", str "POST", str "PUT", str "PATCH"])
    (h : responseTo resolves serves cnf pcnf method url header = some a) : ∃ res,
      resolved resolves cnf pcnf.htdocs url = .ok res ∧ resourceResponse resolves serves cnf pcnf header res = some a := by
  rw [responseTo, if_pos hmem] at h
  obtain ⟨res, hres, h⟩ := Option.bind_eq_some_iff.1 h
  exact ⟨res, Res.toOption_eq.1 hres, h⟩

end

/-- A request whose header has been decoded, and that has not been answered. -/
structure Asking (pcnf : PortConfig) (method url : Bytes) (header : Dictionary Bytes) (output : List SendEv) (c : Conn) : Prop where
  callback : c.task.callback = [.finish_request]
  method : c.rq.METHOD = some method
  uri : c.rq.REQUEST_URI = some url
  root : c.rq.SERVER_WWW_ROOT = some pcnf.htdocs
  port : c.rq.SERVER_PORT = some (decimal pcnf.port)
  header : c.rq.REQUEST_HEADER = some header
  output : c.rq.client.output = output
  wire : c.rq.client.wire = []
  answers : c.rq.client.answers = []

section

variable {cnf : Config} {pcnf : PortConfig} {asks resolves serves : Sys} {method url : Bytes} {header : Dictionary Bytes}
  {a : Response} {c : Conn} {output : List SendEv} {res : Resolved}

theorem Config.port_eq (h : cnf.ports.dvalue (decimal pcnf.port) = some pcnf) :
    cnf.port (some (decimal pcnf.port)) = .ok (some pcnf) := by
  rw [Config.port, deref_some, Res.ok_bind, h]
  rfl

/-- A handler that ends with the response, and the steps that lead to it. -/
theorem Asking.ends (cnf : Config) (h : Asking pcnf method url header output c) {sys : Sys} {g : Handler} (hh : c.task.handle = some g)
    {out : Res (Task × Request)} (hcall : callHandler sys cnf c.rq g = out.map fun p => (some p.1, some p.2))
    (hout : Concludes c.rq a out) : ∃ conn, Runs.runAll (Conn.step cnf) [sys] c = some conn ∧ Finishing a conn := by
  obtain ⟨conn, hstep, hfin⟩ := Conn.step_ends cnf hh h.callback h.wire h.answers hcall hout
  exact ⟨conn, by rw [Runs.runAll, hstep]; rfl, hfin⟩

theorem Asking.served (h : Asking pcnf method url header output c) (hh : c.task.handle = some .resolve_request) {path : Bytes}
    (hres : resolved resolves cnf pcnf.htdocs url = .ok (.file path))
    (ha : resourceResponse resolves serves cnf pcnf header (.file path) = some a) (hfits : a.Fits output) :
    ∃ conn, Runs.runAll (Conn.step cnf) [resolves, serves] c = some conn ∧ Finishing a conn := by
  obtain ⟨mime_type, t, rq', hm, hout, hs⟩ := resolve_request_leads h.uri h.root hres
  obtain ⟨mime_type', hm', rfl⟩ := Option.map_eq_some_iff.1 ha
  rw [hm] at hm'
  cases hm'
  have hcall : callHandler resolves cnf c.rq .resolve_request = .ok (some t, some rq') := by
    rw [callHandler, hout]
    rfl
  have hstep := Conn.step_goes hh hcall hs.handle
  rw [hs.callback, List.nil_append] at hstep
  have hends := serve_file_ends hs.path hs.mime (hs.header.trans h.header) (by rw [hs.unsent.output, h.output]; exact hfits)
  obtain ⟨conn, hlast, hfin⟩ := Conn.step_ends (c := ⟨{ t with callback := c.task.callback }, rq'⟩) cnf hs.handle h.callback
    (hs.unsent.wire.trans h.wire) (hs.unsent.answers.trans h.answers) rfl hends
  refine ⟨conn, ?_, hfin⟩
  rw [Runs.runAll, hstep, Option.bind_some, Runs.runAll, hlast]
  rfl

/-- From the resolution on. -/
theorem Asking.from_path (h : Asking pcnf method url header output c) (hh : c.task.handle = some .resolve_request)
    (hport : cnf.ports.dvalue (decimal pcnf.port) = some pcnf) (hres : resolved resolves cnf pcnf.htdocs url = .ok res)
    (ha : resourceResponse resolves serves cnf pcnf header res = some a) (hfits : a.Fits output) :
    ∃ steps conn, steps <+: [resolves, serves] ∧ Runs.runAll (Conn.step cnf) steps c = some conn ∧ Finishing a conn := by
  have hlead := resolve_request_leads h.uri h.root hres
  have hone : [resolves] <+: [resolves, serves] := ⟨[serves], rfl⟩
  rw [← h.output] at hfits
  cases res with
  | file path =>
    obtain ⟨conn, hrun, hfin⟩ := h.served hh hres ha (h.output ▸ hfits)
    exact ⟨_, conn, List.prefix_refl _, hrun, hfin⟩
  | plugin pname path =>
    obtain ⟨rq₁, hout, hpassed⟩ := hlead
    have hp : cnf.port rq₁.SERVER_PORT = .ok (some pcnf) := by
      rw [hpassed.port, h.port]
      exact Config.port_eq hport
    obtain ⟨conn, hrun, hfin⟩ := h.ends cnf hh rfl (hout ▸ execute_plugin_ends hp hpassed.unsent ha hfits)
    exact ⟨_, conn, hone, hrun, hfin⟩
  | forbidden path =>
    obtain ⟨t, rq₁, hout, hnone, hnil, hq⟩ := hlead
    cases ha
    obtain ⟨conn, hrun, hfin⟩ := h.ends cnf hh rfl (hout ▸ ends_error hfits hq hnone hnil)
    exact ⟨_, conn, hone, hrun, hfin⟩
  | missing =>
    obtain ⟨t, rq₁, hout, hnone, hnil, hq⟩ := hlead
    cases ha
    obtain ⟨conn, hrun, hfin⟩ := h.ends cnf hh rfl (hout ▸ ends_error hfits hq hnone hnil)
    exact ⟨_, conn, hone, hrun, hfin⟩

theorem Asking.answered (h : Asking pcnf method url header output c) (hh : c.task.handle = some .decode_request)
    (hport : cnf.ports.dvalue (decimal pcnf.port) = some pcnf) (hkey : header.dvalue (str "Sec-WebSocket-Key") = none)
    (ha : responseTo resolves serves cnf pcnf method url header = some a) (hfits : a.Fits output) :
    ∃ steps conn, steps <+: [asks, resolves, serves] ∧ Runs.runAll (Conn.step cnf) steps c = some conn ∧ Finishing a conn := by
  by_cases hmem : method ∈ [str "GET", str "HEAD", str "OPTIONS", str "DELETE", str "POST", str "PUT", str "PATCH"]
  · obtain ⟨res, hres, htells⟩ := responseTo_resolved hmem ha
    have hcall : callHandler asks cnf c.rq .decode_request =
        .ok (some { antd_create_task none none c.rq.client.last_io with handle := some .resolve_request }, some c.rq) := by
      rw [callHandler, decode_request_goes h.header hkey h.method hmem]
      rfl
    have hstep := Conn.step_goes hh hcall rfl
    have hnext : Asking pcnf method url header output ⟨{ antd_create_task none none c.rq.client.last_io with
        handle := some .resolve_request, callback := c.task.callback }, c.rq⟩ :=
      ⟨h.callback, h.method, h.uri, h.root, h.port, h.header, h.output, h.wire, h.answers⟩
    obtain ⟨steps, conn, hpre, hrun, hfin⟩ := hnext.from_path rfl hport hres htells hfits
    refine ⟨asks :: steps, conn, List.cons_prefix_cons.2 ⟨rfl, hpre⟩, ?_, hfin⟩
    rw [Runs.runAll, hstep, Option.bind_some]
    exact hrun
  · rw [responseTo, if_neg hmem] at ha
    cases ha
    rw [← h.output] at hfits
    obtain ⟨conn, hrun, hfin⟩ := h.ends cnf hh rfl (decode_request_ends h.header h.method hmem hfits)
    exact ⟨[asks], conn, ⟨[resolves, serves], rfl⟩, hrun, hfin⟩

end

/-- The server answers exactly what there is to say, once: the steps of the connection write the response and nothing else,
and then finish the request. The head announces the length of the body. -/
theorem request_answered {cnf : Config} {pcnf : PortConfig} {sock now : Int} {input : List RecvEv} {output : List SendEv}
    {r : RequestText} {more : Bytes} {accepts decodes asks resolves serves : Sys} {a : Response}
    (hport : cnf.ports.dvalue (decimal pcnf.port) = some pcnf) (hssl : pcnf.usessl = false) (hrules : pcnf.rules.assocs = [])
    (hr : r.Plain cnf) (hkey : lastValue (r.fields.filterMap HeaderField.entry) (str "Sec-WebSocket-Key") = none)
    (ha : accepts.Readable) (hx : Ere.Posix decodes.regexec)
    (hin : (antd_monitor pcnf sock now input output).rq.client.Has (r.bytes ++ more))
    (htells : responseTo resolves serves cnf pcnf r.method r.url (putAll .dict (r.fields.filterMap HeaderField.entry)) = some a)
    (hfits : a.Fits output) :
    (∃ steps conn, steps <+: [accepts, decodes, asks, resolves, serves] ∧
      Runs.runAll (Conn.step cnf) steps (antd_monitor pcnf sock now input output) = some conn ∧ Finishing a conn) ∧
    (serves.Measured → a.Announced) := by
  refine ⟨?_, fun hs => responseTo_announced hs htells⟩
  obtain ⟨c, hrun, hhandle, hcb, hdec⟩ := request_decoded hport hssl hrules hr ha hx hin
  obtain ⟨hout, hwire, hanswers⟩ : c.rq.client.output = output ∧ c.rq.client.wire = [] ∧ c.rq.client.answers = [] :=
    ⟨hdec.client.unsent.output, hdec.client.unsent.wire, hdec.client.unsent.answers⟩
  have huri : c.rq.REQUEST_URI = some r.url := by
    rw [hdec.uri, hr.readable.take_target]
    rfl
  have hasking : Asking pcnf r.method r.url (putAll .dict (r.fields.filterMap HeaderField.entry)) output c :=
    ⟨hcb, hdec.method, huri, hdec.root, hdec.port, hdec.header, hout, hwire, hanswers⟩
  have hnone : (putAll .dict (r.fields.filterMap HeaderField.entry)).dvalue (str "Sec-WebSocket-Key") = none := by
    rw [(holdsEntries_putAll _).value, hkey]
  obtain ⟨steps, conn, hpre, hsteps, hfin⟩ := hasking.answered hhandle hport hnone htells hfits
  refine ⟨[accepts, decodes] ++ steps, conn, (List.prefix_append_right_inj _).2 hpre, ?_, hfin⟩
  rw [Runs.runAll_append, hrun]
  exact hsteps

/-- One page of two bytes. -/
def pageSys : Sys :=
  { sampleSys [] with
    stat := fun _ path => if path = str "/www//a.html" then some ⟨false, 2, 0⟩ else none
    readFile := fun _ => some [str "hi"] }

def pageRequest : RequestText := ⟨str "GET", str "/a.html", str "HTTP/1.1", []⟩

theorem pageRequest_plain (cnf : Config) : pageRequest.Plain cnf := by
  have hmethod : Token pageRequest.method := ⟨by decide +kernel, by decide +kernel⟩
  have htarget : Token pageRequest.target := ⟨by decide +kernel, by decide +kernel⟩
  have hversion : Token pageRequest.version := ⟨by decide +kernel, by decide +kernel⟩
  refine ⟨⟨hmethod, htarget, hversion, by decide +kernel, ?_, by decide +kernel⟩, by decide +kernel, ?_, rfl⟩
  · intro f hf
    cases hf
  · intro v hv
    cases hv

/-- The page is served. -/
theorem request_answered_page : ∃ a : Response, a.status = 200 ∧ a.body = [str "hi"] ∧
    (∃ steps conn, steps <+: [sampleSys [], sampleSys [], pageSys, pageSys, pageSys] ∧
      Runs.runAll (Conn.step (sampleConfig none [])) steps (antd_monitor (samplePort none []) 4 0 (atOnce pageRequest.bytes)
        (List.replicate 20 (.room 1023 0))) = some conn ∧ Finishing a conn) ∧
    (pageSys.Measured → a.Announced) := by
  have hport : (sampleConfig none []).ports.dvalue (decimal (samplePort none []).port) = some (samplePort none []) := by
    have hkey : str "80" = decimal 80 := by decide
    simp [sampleConfig, samplePort, dictOf, hkey]
  obtain ⟨a, ha⟩ : ∃ a, responseTo pageSys pageSys (sampleConfig none []) (samplePort none []) pageRequest.method pageRequest.url
      (putAll .dict (pageRequest.fields.filterMap HeaderField.entry)) = some a := Option.isSome_iff_exists.1 (by decide +kernel)
  have hstatus : a.status = 200 := Option.some.inj ((congrArg (Option.map Response.status) ha).symm.trans (by decide +kernel))
  have hbody : a.body = [str "hi"] := Option.some.inj ((congrArg (Option.map Response.body) ha).symm.trans (by decide +kernel))
  have hsends : (a.sends.all fun p => decide (0 < p.length ∧ p.length ≤ BUFFLEN)) ∧ a.sends.length ≤ 20 := by
    have hall := congrArg (Option.map fun a : Response =>
      decide ((a.sends.all fun p => decide (0 < p.length ∧ p.length ≤ BUFFLEN)) ∧ a.sends.length ≤ 20)) ha
    exact of_decide_eq_true (Option.some.inj (hall.symm.trans (by decide +kernel)))
  have hsizes : ∀ n ∈ a.sends.map (·.length), 0 < n ∧ n ≤ BUFFLEN := by
    intro n hn
    obtain ⟨p, hp, rfl⟩ := List.mem_map.1 hn
    exact of_decide_eq_true (List.all_eq_true.1 hsends.1 p hp)
  have hhas : (antd_monitor (samplePort none []) 4 0 (atOnce pageRequest.bytes)
      (List.replicate 20 (.room 1023 0))).rq.client.Has (pageRequest.bytes ++ []) := by
    obtain ⟨t, hin⟩ := arrives_bytes 0 0 pageRequest.bytes []
    rw [List.append_nil] at hin ⊢
    exact ⟨t, [], hin⟩
  refine ⟨a, hstatus, hbody, ?_⟩
  exact request_answered hport rfl rfl (pageRequest_plain _) rfl ⟨true, false, false, rfl⟩ Ere.regexec_posix
    hhas ha fun t => taken_rooms t 0 hsizes 20 (by rw [List.length_map]; exact hsends.2)

end AntHttp
