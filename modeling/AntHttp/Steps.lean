import AntHttp.Pipeline
/-!
# What one run of a handler can do

For each handler of the server: which task it returns, which keys of the
request are still there afterwards, and what it has answered. The theorems
about whole runs are drawn from these.
-/

namespace AntHttp

open CString

/-! ## Where a request can go -/

def Handler.IsPlugin : Handler → Prop
  | .plugin .. => True
  | _ => False

/-- The handle and the callbacks of the task a handler returns. -/
inductive Flow : Handler → Option Handler → List Handler → Prop
  | done {h} : h ≠ .finish_request → Flow h none []
  | acceptAgain : Flow .accept_request (some .accept_request) []
  | accepted : Flow .accept_request (some .decode_request_header) []
  | headerAgain : Flow .decode_request_header (some .decode_request_header) []
  | proxied : Flow .decode_request_header (some .proxify) []
  | decoded : Flow .decode_request_header (some .decode_request) []
  | resolve : Flow .decode_request (some .resolve_request) []
  | file : Flow .resolve_request (some .serve_file) []
  | rawPlugin {p} : Flow .resolve_request (some (.plugin p 0)) []
  | plugin {p} : Flow .resolve_request (some .decode_post_request) [.plugin p 0]
  | connected : Flow .proxify (some .proxy_monitor) []
  | relayed : Flow .proxy_monitor (some .proxy_monitor) []
  | parts : Flow .decode_post_request (some .decode_multi_part_request_data) []
  | morePart : Flow .decode_multi_part_request_data (some .decode_multi_part_request_data) []
  | pluginTask {p n h cbs} : (∀ g ∈ h, Handler.IsPlugin g) → (∀ g ∈ cbs, Handler.IsPlugin g) → Flow (.plugin p n) h cbs

/-- The handlers that store bytes of the body. -/
def Handler.StoresBody (h : Handler) : Prop := h = .decode_post_request ∨ h = .decode_multi_part_request_data

/-- In the hands of `h` keys that are set stay set, and the connection stays the same. -/
structure Kept (h : Handler) (rq rq' : Request) : Prop where
  sock : rq'.client.sock = rq.client.sock
  port : rq'.SERVER_PORT = rq.SERVER_PORT
  root : rq'.SERVER_WWW_ROOT = rq.SERVER_WWW_ROOT
  header : rq.REQUEST_HEADER.isSome → rq'.REQUEST_HEADER.isSome
  data : rq.REQUEST_DATA.isSome → rq'.REQUEST_DATA.isSome
  method : rq.METHOD.isSome → rq'.METHOD.isSome
  query : rq.REQUEST_QUERY.isSome → rq'.REQUEST_QUERY.isSome
  stored : h.StoresBody ∨ rq'.stored = rq.stored

/-- Nothing is sent either. -/
structure Quiet (h : Handler) (rq rq' : Request) : Prop extends Kept h rq rq' where
  answers : rq'.client.answers = rq.client.answers
  web_socket : rq'.web_socket = rq.web_socket

/-- The handlers that can send a final answer. -/
def Handler.MayAnswer (h : Handler) : Prop := h ≠ .finish_request ∧ h ≠ .decode_multi_part_request_data

instance (h : Handler) : Decidable h.MayAnswer := inferInstanceAs (Decidable (_ ∧ _))

/-- What a handler has sent: nothing, the 101 answer before the request is
resolved, or a final answer, after which it returns no handler. -/
inductive Answered (h : Handler) (rq rq' : Request) (t : Task) : Prop
  | nothing : rq'.client.answers = rq.client.answers → rq'.web_socket = rq.web_socket → Answered h rq rq' t
  | switched : rq'.client.answers = rq.client.answers ++ [101] → rq'.web_socket = some (str "1") →
      t.handle = some .resolve_request → Answered h rq rq' t
  | final {status} : h.MayAnswer → rq'.client.answers = rq.client.answers ++ [status] → status ≠ 101 →
      t.handle = none → t.callback = [] → Answered h rq rq' t

/-- What one run of the handler `h` does to a request, and the task it returns. -/
structure Step (h : Handler) (rq : Request) (t : Task) (rq' : Request) : Prop where
  flow : Flow h t.handle t.callback
  kept : Kept h rq rq'
  answered : Answered h rq rq' t

variable {h : Handler} {rq rq₁ rq' : Request} {t : Task}

theorem Kept.trans (hk : Kept h rq rq₁) (hk' : Kept h rq₁ rq') : Kept h rq rq' where
  sock := hk'.sock.trans hk.sock
  port := hk'.port.trans hk.port
  root := hk'.root.trans hk.root
  header := hk'.header ∘ hk.header
  data := hk'.data ∘ hk.data
  method := hk'.method ∘ hk.method
  query := hk'.query ∘ hk.query
  stored := by
    rcases hk.stored with hs | hs
    · exact .inl hs
    · rcases hk'.stored with hs' | hs'
      · exact .inl hs'
      · exact .inr (hs'.trans hs)

theorem Quiet.refl (h : Handler) (rq : Request) : Quiet h rq rq := ⟨⟨rfl, rfl, rfl, id, id, id, id, .inr rfl⟩, rfl, rfl⟩

theorem Quiet.trans (hq : Quiet h rq rq₁) (hq' : Quiet h rq₁ rq') : Quiet h rq rq' :=
  ⟨hq.toKept.trans hq'.toKept, hq'.answers.trans hq.answers, hq'.web_socket.trans hq.web_socket⟩

/-- Reading and relaying. -/
theorem Quiet.client (h : Handler) (rq : Request) {c : Client} (hc : Client.Io rq.client c) :
    Quiet h rq { rq with client := c } :=
  ⟨⟨hc.sock, rfl, rfl, id, id, id, id, .inr rfl⟩, hc.answers, rfl⟩

theorem Quiet.set_state (h : Handler) (rq : Request) (st : ClientState) : Quiet h rq (rq.set_state st) :=
  ⟨⟨rfl, rfl, rfl, id, id, id, id, .inr rfl⟩, rfl, rfl⟩

/-- A handler that sends nothing. -/
theorem Step.silent (hf : Flow h t.handle t.callback) (hq : Quiet h rq rq') : Step h rq t rq' :=
  ⟨hf, hq.toKept, .nothing hq.answers hq.web_socket⟩

/-- A handler that ends with an error answer. -/
theorem Step.error {status : Nat} {msg : String} (hh : h.MayAnswer) (hs : status ≠ 101)
    (ht : t.handle = none) (hc : t.callback = []) (hq : Quiet h rq rq₁) : Step h rq t (rq₁.antd_error status msg) where
  flow := by rw [ht, hc]; exact .done hh.1
  kept := hq.toKept.trans ⟨(antd_error_io ..).sock, rfl, rfl, id, id, id, id, .inr rfl⟩
  answered := .final hh (by rw [antd_error_answers, hq.answers]) hs ht hc

/-- Quiet work before a step is part of it. -/
theorem Step.after (hq : Quiet h rq rq₁) (hs : Step h rq₁ t rq') : Step h rq t rq' where
  flow := hs.flow
  kept := hq.toKept.trans hs.kept
  answered := by
    rcases hs.answered with ⟨ha, hw⟩ | ⟨ha, hw, ht⟩ | ⟨hh, ha, hs, ht, hc⟩
    · exact .nothing (ha.trans hq.answers) (hw.trans hq.web_socket)
    · exact .switched (by rw [ha, hq.answers]) hw ht
    · exact .final hh (by rw [ha, hq.answers]) hs ht hc

/-! ## Accepting -/

/-- The handler for the header runs on a request that has a method and a target. -/
def HasTarget (t : Task) (rq' : Request) : Prop :=
  t.handle = some .decode_request_header → rq'.METHOD.isSome ∧ rq'.REQUEST_QUERY.isSome

theorem requestLine_step {task : Task} {buf : Bytes} (ht : task.handle = none) (hc : task.callback = [])
    (h : requestLine rq task buf = .ok (t, rq')) : Step .accept_request rq t rq' ∧ HasTarget t rq' := by
  unfold requestLine at h
  split at h
  · split at h
    · cases h
      refine ⟨.silent ?_ ⟨⟨rfl, rfl, rfl, id, id, fun _ => rfl, fun _ => rfl, .inr rfl⟩, rfl, rfl⟩, fun _ => ⟨rfl, rfl⟩⟩
      rw [hc]; exact .accepted
    · cases h
      refine ⟨.error (by decide) (by decide) ht hc ⟨⟨rfl, rfl, rfl, id, id, fun _ => rfl, id, .inr rfl⟩, rfl, rfl⟩, ?_⟩
      intro h; rw [ht] at h; cases h
  · cases h
    refine ⟨.error (by decide) (by decide) ht hc (.refl ..), ?_⟩
    intro h; rw [ht] at h; cases h

theorem acceptReady_step {sys : Sys} {task : Task} {pollin : Bool} (ht : task.handle = none) (hc : task.callback = [])
    (h : acceptReady sys rq task pollin = .ok (t, rq')) : Step .accept_request rq t rq' ∧ HasTarget t rq' := by
  unfold acceptReady at h
  simp only at h
  have hagain : Flow .accept_request (some .accept_request) task.callback := hc ▸ .acceptAgain
  split at h
  · split at h <;> cases h
    · exact ⟨.silent hagain (.set_state ..), nofun⟩
    · exact ⟨.silent hagain (.refl ..), nofun⟩
    · refine ⟨.error (by decide) (by decide) ht hc (.refl ..), ?_⟩
      intro h; rw [ht] at h; cases h
  · split at h
    · cases h
      exact ⟨.silent hagain (.refl ..), nofun⟩
    · obtain ⟨hs, hq⟩ := requestLine_step ht hc h
      exact ⟨hs.after (.trans (.set_state ..) (.client _ _ (read_buf_io ..))), hq⟩

theorem accept_request_step {sys : Sys} (h : accept_request sys rq = .ok (t, rq')) :
    Step .accept_request rq t rq' ∧ HasTarget t rq' := by
  unfold accept_request at h
  simp only at h
  split at h
  · cases h
    exact ⟨.error (by decide) (by decide) rfl rfl (.refl ..), nofun⟩
  · cases h
    exact ⟨.silent .acceptAgain (.refl ..), nofun⟩
  · split at h
    · cases h
      exact ⟨.error (by decide) (by decide) rfl rfl (.refl ..), nofun⟩
    · split at h
      · cases h
        exact ⟨.silent .acceptAgain (.refl ..), nofun⟩
      · exact acceptReady_step rfl rfl h

/-! ## Decoding the header -/

theorem putHeader_isSome {xheader xheader' : Option (Dictionary Bytes)} {token : Bytes} {line : Option Bytes}
    (h : putHeader xheader token line = .ok xheader') : xheader.isSome → xheader'.isSome := by
  intro hx
  unfold putHeader at h
  split at h
  · obtain ⟨d, -, h⟩ := Res.bind_ok.1 h
    cases h; rfl
  · cases h; exact hx

theorem headerLine_isSome {s s' : HeaderScan} {buf : Bytes} (h : headerLine s buf = .ok s') :
    s.xheader.isSome → s'.xheader.isSome := by
  intro hx
  unfold headerLine at h
  obtain ⟨x, hp, h⟩ := Res.bind_ok.1 h
  have hx' := putHeader_isSome hp hx
  simp only at h
  split at h
  · obtain ⟨d, -, h⟩ := Res.bind_ok.1 h
    cases h; exact hx'
  · split at h
    · obtain ⟨d, -, h⟩ := Res.bind_ok.1 h
      cases h; exact hx'
    · cases h; exact hx'

/-- The loop over the header only reads, and keeps the dictionary. -/
theorem headerLoop_ok {c c' : Client} {s s' : HeaderScan} {e : HeaderEnd} (h : headerLoop c s = .ok (e, c', s')) :
    Client.Io c c' ∧ (s.xheader.isSome → s'.xheader.isSome) := by
  fun_induction headerLoop c s with
  | case1 c s c₁ hr =>
    cases h
    exact ⟨by have := read_buf_io c BUF_SIZE; rwa [hr] at this, id⟩
  | case2 c s b line c₁ hr hcr =>
    cases h
    exact ⟨by have := read_buf_io c BUF_SIZE; rwa [hr] at this, id⟩
  | case3 c s b line c₁ hr hcr ih =>
    have hio : Client.Io c c₁ := by have := read_buf_io c BUF_SIZE; rwa [hr] at this
    obtain ⟨s₁, hl, h⟩ := Res.bind_ok.1 h
    have hx := headerLine_isSome hl
    split at h
    · cases h; exact ⟨hio, hx⟩
    · obtain ⟨hio', hx'⟩ := ih s₁ h
      exact ⟨hio.trans hio', hx' ∘ hx⟩

theorem decode_url_request_isSome {query : Bytes} {dic dic' : Option (Dictionary Bytes)}
    (h : decode_url_request query dic = .ok dic') : dic.isSome → dic'.isSome := by
  have fold : ∀ (l : List Bytes) {d d' : Option (Dictionary Bytes)}, l.foldlM queryPair d = .ok d' →
      d.isSome → d'.isSome := by
    intro l
    induction l with
    | nil => intro d d' h hd; cases h; exact hd
    | cons token l ih =>
      intro d d' h hd
      rw [List.foldlM_cons] at h
      obtain ⟨d₁, hp, h⟩ := Res.bind_ok.1 h
      refine ih h ?_
      unfold queryPair at hp
      split at hp
      · obtain ⟨x, -, hp⟩ := Res.bind_ok.1 hp
        cases hp; rfl
      · cases hp; exact hd
  unfold decode_url_request at h
  split at h
  · cases h; exact id
  · exact fold _ h

/-- A proxy task, the 503 answer, or nothing done. -/
theorem check_proxy_ok {regexec : Regexec} {path query : Bytes} {o : Option Task}
    (h : check_proxy regexec rq path query = .ok (o, rq')) :
    (o = none ∧ rq' = rq) ∨ ∃ t, o = some t ∧ Step .decode_request_header rq t rq' := by
  unfold check_proxy at h
  obtain ⟨m, -, h⟩ := Res.bind_ok.1 h
  split at h
  · cases h; exact .inl ⟨rfl, rfl⟩
  · refine .inr ?_
    split at h
    · cases h
      exact ⟨_, rfl, .error (by decide) (by decide) rfl rfl (.refl ..)⟩
    · obtain ⟨host, -, h⟩ := Res.bind_ok.1 h
      obtain ⟨port, -, h⟩ := Res.bind_ok.1 h
      cases h
      exact ⟨_, rfl, .silent .proxied ⟨⟨rfl, rfl, rfl, id, id, id, id, .inr rfl⟩, rfl, rfl⟩⟩

theorem rewriteRequest_step {sys : Sys} {pcnf : Option PortConfig} {url : Option Bytes} {s : HeaderScan}
    (h : rewriteRequest sys rq pcnf url s = .ok (t, rq')) : Step .decode_request_header rq t rq' := by
  unfold rewriteRequest at h
  obtain ⟨p, -, h⟩ := Res.bind_ok.1 h
  obtain ⟨u, -, h⟩ := Res.bind_ok.1 h
  obtain ⟨w, -, h⟩ := Res.bind_ok.1 h
  obtain ⟨⟨o, rq₁⟩, hp, h⟩ := Res.bind_ok.1 h
  have hq : Quiet .decode_request_header rq { rq with COOKIE := s.cookie.or rq.COOKIE, host := s.host, producer := w.producer } :=
    ⟨⟨rfl, rfl, rfl, id, id, id, id, .inr rfl⟩, rfl, rfl⟩
  rcases check_proxy_ok hp with ⟨rfl, rfl⟩ | ⟨t₁, rfl, hs⟩
  · obtain ⟨d, hd, h⟩ := Res.bind_ok.1 h
    cases h
    refine .silent .decoded (hq.trans ⟨⟨rfl, rfl, rfl, id, decode_url_request_isSome hd, id, fun _ => rfl, .inr rfl⟩, rfl, rfl⟩)
  · cases h
    exact hs.after hq

theorem headerComplete_step {sys : Sys} {cnf : Config} {pcnf : Option PortConfig} {url : Option Bytes}
    {s : HeaderScan} (h : headerComplete sys cnf rq pcnf url s = .ok (t, rq')) :
    Step .decode_request_header rq t rq' := by
  unfold headerComplete at h
  obtain ⟨x, -, h⟩ := Res.bind_ok.1 h
  split at h
  · cases h
    exact .error (by decide) (by decide) rfl rfl (.refl ..)
  · obtain ⟨z, -, h⟩ := Res.bind_ok.1 h
    have hq : Quiet .decode_request_header rq { rq with client.z_level := z } :=
      ⟨⟨rfl, rfl, rfl, id, id, id, id, .inr rfl⟩, rfl, rfl⟩
    exact (rewriteRequest_step h).after hq

theorem decode_request_header_step {sys : Sys} {cnf : Config} (h : decode_request_header sys cnf rq = .ok (t, rq')) :
    Step .decode_request_header rq t rq' := by
  unfold decode_request_header at h
  obtain ⟨pcnf, -, h⟩ := Res.bind_ok.1 h
  obtain ⟨⟨e, c, s⟩, hl, h⟩ := Res.bind_ok.1 h
  obtain ⟨hio, hx⟩ := headerLoop_ok hl
  have hq : Quiet .decode_request_header rq { rq with client := c, REQUEST_HEADER := s.xheader } :=
    ⟨⟨hio.sock, rfl, rfl, hx, id, id, id, .inr rfl⟩, hio.answers, rfl⟩
  cases e with
  | tooLarge => cases h; exact .error (by decide) (by decide) rfl rfl hq
  | wait => cases h; exact .silent .headerAgain hq
  | complete => exact (headerComplete_step h).after hq

/-! ## Choosing what comes next -/

theorem ws_confirm_request_ok {sys : Sys} {c c' : Client} {key : Bytes} (h : ws_confirm_request sys c key = .ok c') :
    Client.Io { c with answers := c.answers ++ [101] } c' := by
  unfold ws_confirm_request at h
  split at h
  · cases h
    exact foldl_io (fun _ _ => antd_send_io ..) _ _
  · cases h

theorem decode_request_step {sys : Sys} (h : decode_request sys rq = .ok (t, rq')) : Step .decode_request rq t rq' := by
  unfold decode_request at h
  obtain ⟨headers, -, h⟩ := Res.bind_ok.1 h
  obtain ⟨method, -, h⟩ := Res.bind_ok.1 h
  simp only at h
  split at h
  · obtain ⟨rq₁, hu, h⟩ := Res.bind_ok.1 h
    cases h
    unfold upgrade at hu
    split at hu
    · obtain ⟨c, hc, hu⟩ := Res.bind_ok.1 hu
      cases hu
      have hio := ws_confirm_request_ok hc
      exact ⟨.resolve, ⟨hio.sock, rfl, rfl, id, id, id, id, .inr rfl⟩, .switched hio.answers rfl rfl⟩
    · cases hu
      exact .silent .resolve (.refl ..)
  · split at h
    · cases h
      exact .silent .resolve (.refl ..)
    · cases h
      exact .error (by decide) (by decide) rfl rfl (.refl ..)

/-! ## Resolving and serving -/

theorem execute_plugin_step {sys : Sys} {cnf : Config} {pname : Bytes}
    (h : execute_plugin sys cnf rq pname = .ok (t, rq')) : Step .resolve_request rq t rq' := by
  unfold execute_plugin at h
  obtain ⟨p, -, h⟩ := Res.bind_ok.1 h
  obtain ⟨pcnf, -, h⟩ := Res.bind_ok.1 h
  obtain ⟨enabled, -, h⟩ := Res.bind_ok.1 h
  split at h
  · have hq : Quiet .resolve_request rq { rq.set_state .PLUGIN_EXEC with loads := rq.loads ++ [pname] } :=
      ⟨⟨rfl, rfl, rfl, id, id, id, id, .inr rfl⟩, rfl, rfl⟩
    simp only at h
    split at h
    · cases h
      exact .error (by decide) (by decide) rfl rfl hq
    · split at h
      · cases h
        exact .silent .rawPlugin (hq.trans ⟨⟨rfl, rfl, rfl, id, id, id, id, .inr rfl⟩, rfl, rfl⟩)
      · cases h
        exact .silent .plugin (hq.trans ⟨⟨rfl, rfl, rfl, id, id, id, id, .inr rfl⟩, rfl, rfl⟩)
  · cases h
    exact .error (by decide) (by decide) rfl rfl (.refl ..)

theorem discardBody_io (c : Client) (clen read : UInt32) : Client.Io c (discardBody c clen read) := by
  fun_induction discardBody c clen read with
  | case1 c read hlt r c' hr =>
    have h := antd_recv_io c (min BUF_SIZE clen.toNat)
    rwa [hr] at h
  | case2 c read hlt r b data c' hr ih =>
    have h := antd_recv_io c (min BUF_SIZE clen.toNat)
    rw [hr] at h
    exact h.trans ih
  | case3 => exact .refl _

theorem serveResource_step {sys : Sys} {cnf : Config} {task : Task} {path : Bytes} (ht : task.handle = none)
    (hc : task.callback = []) (h : serveResource sys cnf rq task path = .ok (t, rq')) :
    Step .resolve_request rq t rq' := by
  unfold serveResource at h
  obtain ⟨mime_type, -, h⟩ := Res.bind_ok.1 h
  have hq : Quiet .resolve_request rq { rq with RESOURCE_PATH := some path, RESOURCE_MIME := some mime_type } :=
    ⟨⟨rfl, rfl, rfl, id, id, id, id, .inr rfl⟩, rfl, rfl⟩
  simp only at h
  split at h
  · split at h
    · exact (execute_plugin_step h).after hq
    · cases h
      exact .error (by decide) (by decide) ht hc hq
  · cases h
    refine .silent ?_ (hq.trans (.client _ _ (discardBody_io ..)))
    rw [show (Task.bindIo { task with handle := some .serve_file } _ false true).callback = [] from hc]
    exact .file

theorem resolve_request_step {sys : Sys} {cnf : Config} (h : resolve_request sys cnf rq = .ok (t, rq')) :
    Step .resolve_request rq t rq' := by
  unfold resolve_request at h
  obtain ⟨url, -, h⟩ := Res.bind_ok.1 h
  obtain ⟨root, -, h⟩ := Res.bind_ok.1 h
  have hq := Quiet.set_state .resolve_request rq .RESOLVE_REQUEST
  simp only at h
  split at h
  · refine Step.after ?_ (execute_plugin_step h)
    exact ⟨⟨rfl, rfl, rfl, id, id, id, id, .inr rfl⟩, rfl, rfl⟩
  · split at h
    · split at h
      · cases h
      · split at h
        · exact (serveResource_step rfl rfl h).after hq
        · split at h
          · exact (serveResource_step rfl rfl h).after hq
          · cases h
            exact .error (by decide) (by decide) rfl rfl hq
    · exact (serveResource_step rfl rfl h).after hq

theorem f_io (c : Client) (blocks : List Bytes) : Client.Io c (__f c blocks) := by
  induction blocks generalizing c with
  | nil => exact .refl c
  | cons buffer blocks ih =>
    have h := antd_send_io c buffer
    simp only [__f]
    split
    · exact h
    · exact h.trans (ih _)

theorem serve_file_step {sys : Sys} (h : serve_file sys rq = .ok (t, rq')) : Step .serve_file rq t rq' := by
  unfold serve_file at h
  obtain ⟨path, -, h⟩ := Res.bind_ok.1 h
  have hq := Quiet.set_state .serve_file rq .SERVE_FILE
  simp only at h
  split at h
  · cases h
    exact .error (by decide) (by decide) rfl rfl hq
  · rename_i st _
    obtain ⟨header, -, h⟩ := Res.bind_ok.1 h
    split at h
    · cases h
      exact .error (by decide) (by decide) rfl rfl hq
    · obtain ⟨mime_type, -, h⟩ := Res.bind_ok.1 h
      cases h
      have hio := (antd_send_header_io (rq.set_state .SERVE_FILE).client 200 (fileHeader sys mime_type st)).trans
        (f_io _ ((sys.readFile path).getD []))
      exact ⟨.done (by decide), ⟨hio.sock, rfl, rfl, id, id, id, id, .inr rfl⟩, .final (by decide) hio.answers (by decide) rfl rfl⟩

/-! ## Proxying -/

theorem proxify_step {sys : Sys} (h : proxify sys rq = .ok (t, rq')) : Step .proxify rq t rq' := by
  unfold proxify at h
  obtain ⟨port, -, h⟩ := Res.bind_ok.1 h
  have hq := Quiet.set_state .proxify rq .RESOLVE_REQUEST
  simp only at h
  split at h
  · cases h
    exact .error (by decide) (by decide) rfl rfl hq
  · split at h
    · cases h
      exact .error (by decide) (by decide) rfl rfl hq
    · split at h
      · cases h
        exact .error (by decide) (by decide) rfl rfl hq
      · split at h
        · cases h
          exact .silent .connected (hq.trans ⟨⟨rfl, rfl, rfl, id, id, id, id, .inr rfl⟩, rfl, rfl⟩)
        · cases h
          refine .error (by decide) (by decide) rfl rfl (hq.trans ?_)
          exact ⟨⟨rfl, rfl, rfl, id, id, id, id, .inr rfl⟩, rfl, rfl⟩

theorem toBackend_io (c p : Client) : Client.Io c (toBackend c p).2.2.1 := by
  unfold toBackend
  have hr := antd_recv_upto_io c BUFFLEN
  simp only
  split <;> exact hr

theorem toClient_io (c p : Client) : Client.Io c (toClient c p).2.2.1 := by
  unfold toClient
  simp only
  split
  · exact antd_send_io ..
  · exact .refl _

theorem relayRound_io (c p : Client) (poll : Poll) : Client.Io c (relayRound c p poll).2.1 := by
  have hb := toBackend_io c p
  unfold relayRound
  split
  · rename_i hr; rwa [hr] at hb
  · rename_i sz c₁ p₁ hr
    rw [hr] at hb
    split
    · exact hb
    · exact hb
    · rename_i pollin _ _ _ _ _
      have hc : Client.Io c₁ (if pollin then toClient c₁ p₁ else (0, true, c₁, p₁)).2.2.1 := by
        split
        · exact toClient_io ..
        · exact .refl _
      split
      · rename_i hr'
        rw [hr'] at hc; exact hb.trans hc
      · rename_i hr'
        rw [hr'] at hc
        split <;> exact hb.trans hc

theorem relayLoop_io (c p : Client) (polls : List Poll) : Client.Io c (relayLoop c p polls).2.1 := by
  induction polls generalizing c p with
  | nil => exact .refl c
  | cons poll polls ih =>
    have h := relayRound_io c p poll
    unfold relayLoop
    split
    · rename_i hr
      rw [hr] at h
      exact h.trans (ih ..)
    · rename_i r relay c₁ p₁ _ hr
      rwa [hr] at h

theorem proxy_monitor_step {sys : Sys} (h : proxy_monitor sys rq = .ok (t, rq')) : Step .proxy_monitor rq t rq' := by
  unfold proxy_monitor at h
  obtain ⟨proxy, -, h⟩ := Res.bind_ok.1 h
  have hio := relayLoop_io (rq.set_state .PROXY_MONITOR).client proxy sys.proxyPolls
  have hq := (Quiet.set_state .proxy_monitor rq .PROXY_MONITOR).trans (.client _ _ hio)
  simp only at h
  split at h
  · cases h
    exact .silent (.done (by decide)) (hq.trans ⟨⟨rfl, rfl, rfl, id, id, id, id, .inr rfl⟩, rfl, rfl⟩)
  · cases h
    refine .silent ?_ (hq.trans ⟨⟨rfl, rfl, rfl, id, id, id, id, .inr rfl⟩, rfl, rfl⟩)
    split <;> exact .relayed

/-! ## The body -/

theorem readUntil_io (stop : Bytes → Bool) (c : Client) : Client.Io c (readUntil stop c).2 := by
  fun_induction readUntil stop c with
  | case1 c c' hr => have h := read_buf_io c BUFFLEN; rwa [hr] at h
  | case2 c b buf c' hr hs => have h := read_buf_io c BUFFLEN; rwa [hr] at h
  | case3 c b buf c' hr hs ih => have h := read_buf_io c BUFFLEN; rw [hr] at h; exact h.trans ih

theorem postLoop_io (c : Client) (len : Nat) (query : Bytes) : Client.Io c (postLoop c len query).2 := by
  have hio (c : Client) (q : Bytes) := antd_recv_upto_io c (min BUFFLEN (len - q.length))
  fun_induction postLoop c len query with
  | case1 => exact .refl _
  | case2 c q hlt stat data c' hr hneg => have h := hio c q; rwa [hr] at h
  | case3 c q hlt stat data c' hr hneg hlate => have h := hio c q; rwa [hr] at h
  | case4 c q hlt stat data c' hr hneg hlate ih => have h := hio c q; rw [hr] at h; exact h.trans ih

theorem decode_multi_part_request_step {ctype : Bytes} (h : decode_multi_part_request rq ctype = .ok (t, rq')) :
    Step .decode_post_request rq t rq' := by
  unfold decode_multi_part_request at h
  obtain ⟨headers, -, h⟩ := Res.bind_ok.1 h
  simp only at h
  split at h
  · rename_i c boundary _
    have hio := readUntil_io (strstr · (trim (c :: boundary) 32)) rq.client
    have hq (d b) : Quiet .decode_post_request rq { rq with
        REQUEST_HEADER := some d, MULTI_PART_BOUNDARY := b
        client := (readUntil (strstr · (trim (c :: boundary) 32)) rq.client).2 } :=
      ⟨⟨hio.sock, rfl, rfl, fun _ => rfl, id, id, id, .inr rfl⟩, hio.answers, rfl⟩
    split at h
    · cases h; exact .silent (.done (by decide)) (hq ..)
    · cases h; exact .silent .parts (hq ..)
  · cases h
    exact .silent (.done (by decide)) ⟨⟨rfl, rfl, rfl, fun _ => rfl, id, id, id, .inr rfl⟩, rfl, rfl⟩

theorem decode_post_request_step (h : decode_post_request rq = .ok (t, rq')) : Step .decode_post_request rq t rq' := by
  unfold decode_post_request at h
  obtain ⟨headers, -, h⟩ := Res.bind_ok.1 h
  have hq := Quiet.set_state .decode_post_request rq .RQ_DATA_DECODE
  simp only at h
  split at h
  · cases h
    exact .silent (.done (by decide)) hq
  · split at h
    · cases h
      exact .error (by decide) (by decide) rfl rfl hq
    · split at h
      · cases h
        exact .error (by decide) (by decide) rfl rfl hq
      · split at h
        · -- the buffer of the body is all that is stored
          have hio := postLoop_io (rq.set_state .RQ_DATA_DECODE).client
            ((headers.dvalue (str "Content-Length")).elim (-1) atoi).toNat []
          have hq' (n) : Quiet .decode_post_request (rq.set_state .RQ_DATA_DECODE) { rq.set_state .RQ_DATA_DECODE with
              client := (post_data_decode (rq.set_state .RQ_DATA_DECODE).client
                ((headers.dvalue (str "Content-Length")).elim (-1) atoi)).2
              stored := n } :=
            ⟨⟨hio.sock, rfl, rfl, id, id, id, id, .inl (.inl rfl)⟩, hio.answers, rfl⟩
          split at h
          · obtain ⟨d, hd, h⟩ := Res.bind_ok.1 h
            cases h
            exact .silent (.done (by decide)) ((hq.trans (hq' _)).trans
              ⟨⟨rfl, rfl, rfl, id, decode_url_request_isSome hd, id, id, .inr rfl⟩, rfl, rfl⟩)
          · split at h
            · cases h; exact .error (by decide) (by decide) rfl rfl (hq.trans (hq' _))
            · cases h; exact .silent (.done (by decide)) (hq.trans (hq' _))
        · split at h
          · exact (decode_multi_part_request_step h).after hq
          · obtain ⟨d, -, h⟩ := Res.bind_ok.1 h
            cases h
            exact .silent (.done (by decide)) (hq.trans ⟨⟨rfl, rfl, rfl, id, fun _ => rfl, id, id, .inr rfl⟩, rfl, rfl⟩)

theorem saveLoop_io (boundary : Bytes) (c : Client) (evs : List WriteEv) (data : Bytes) (totalsize : Int) :
    Client.Io c (saveLoop boundary c evs data totalsize).client := by
  fun_induction saveLoop boundary c evs data totalsize with
  | case1 c evs w n c' hr => have h := read_buf_io c BUFFLEN; rwa [hr] at h
  | case2 c evs w n b buf c' hr hs => have h := read_buf_io c BUFFLEN; rwa [hr] at h
  | case3 c evs w n b buf c' hr hs m done evs' hg ih => have h := read_buf_io c BUFFLEN; rw [hr] at h; exact h.trans ih

theorem textPart_quiet {boundary part_name : Bytes} {line : Option Bytes}
    (h : textPart rq boundary part_name = .ok (line, rq')) : Quiet .decode_multi_part_request_data rq rq' := by
  unfold textPart at h
  obtain ⟨d, hd, h⟩ := Res.bind_ok.1 h
  cases h
  have hio := (read_buf_io rq.client BUFFLEN).trans (readUntil_io (strstr · boundary) _)
  refine ⟨⟨hio.sock, rfl, rfl, id, fun hs => ?_, id, id, .inr rfl⟩, hio.answers, rfl⟩
  unfold putText at hd
  split at hd
  · cases hd; exact hs
  · obtain ⟨_, -, rfl⟩ := Res.map_ok.1 hd; rfl

theorem filePart_quiet {sys : Sys} {cnf : Config} {boundary part_name part_file : Bytes} {line : Option Bytes}
    (h : filePart sys cnf rq boundary part_name part_file = .ok (line, rq')) :
    Quiet .decode_multi_part_request_data rq rq' := by
  unfold filePart at h
  simp only at h
  split at h
  · obtain ⟨d, -, h⟩ := Res.bind_ok.1 h
    cases h
    have hio := saveLoop_io boundary rq.client sys.write [] 0
    exact ⟨⟨hio.sock, rfl, rfl, id, fun _ => rfl, id, id, .inl (.inr rfl)⟩, hio.answers, rfl⟩
  · cases h; exact .refl ..

theorem partData_quiet {sys : Sys} {cnf : Config} {boundary : Bytes} {names : Option Bytes × Option Bytes}
    {line : Option Bytes} (h : partData sys cnf rq boundary names = .ok (line, rq')) :
    Quiet .decode_multi_part_request_data rq rq' := by
  unfold partData at h
  split at h
  · cases h; exact .refl ..
  · have hq := Quiet.client .decode_multi_part_request_data rq (readUntil_io (strneq · [13, 10] 2) rq.client)
    simp only at h
    split at h
    · exact hq.trans (textPart_quiet h)
    · exact hq.trans (filePart_quiet h)

/-- The name and the file name that the header of the next part gives. -/
def partNames (rq : Request) : Option Bytes × Option Bytes :=
  (split 59 (cstr (readUntil (strstr · (str "Content-Disposition:")) rq.client).1)).foldl partParam (none, none)

/-- The client after the header of the next part. -/
def Request.atPart (rq : Request) : Request :=
  { rq with client := (readUntil (strstr · (str "Content-Disposition:")) rq.client).2 }

/-- No part has been found, or its data has been read; the chain of the parts goes on or ends. -/
theorem decode_multi_part_request_data_of {sys : Sys} {cnf : Config}
    (h : decode_multi_part_request_data sys cnf rq = .ok (t, rq')) :
    (rq' = rq.atPart ∨ ∃ boundary line, rq.MULTI_PART_BOUNDARY = some boundary ∧
      partData sys cnf rq.atPart boundary (partNames rq) = .ok (line, rq')) ∧
    t.callback = [] ∧ (t.handle = none ∨ t.handle = some .decode_multi_part_request_data) := by
  unfold decode_multi_part_request_data at h
  simp only at h
  split at h
  · cases h
    exact ⟨.inl rfl, rfl, .inl rfl⟩
  · obtain ⟨boundary, hb, h⟩ := Res.bind_ok.1 h
    obtain ⟨⟨line, rq₁⟩, hp, h⟩ := Res.bind_ok.1 h
    simp only at h
    split at h
    · cases h
      exact ⟨.inr ⟨boundary, line, deref_ok.1 hb, hp⟩, rfl, .inr rfl⟩
    · cases h
      exact ⟨.inr ⟨boundary, line, deref_ok.1 hb, hp⟩, rfl, .inl rfl⟩

theorem decode_multi_part_request_data_step {sys : Sys} {cnf : Config}
    (h : decode_multi_part_request_data sys cnf rq = .ok (t, rq')) :
    Step .decode_multi_part_request_data rq t rq' := by
  have hq : Quiet .decode_multi_part_request_data rq rq.atPart := .client _ _ (readUntil_io ..)
  obtain ⟨hrq, hcb, ht⟩ := decode_multi_part_request_data_of h
  have hq' : Quiet .decode_multi_part_request_data rq rq' := by
    rcases hrq with rfl | ⟨boundary, line, -, hp⟩
    · exact hq
    · exact hq.trans (partData_quiet hp)
  refine .silent ?_ hq'
  rw [hcb]
  rcases ht with ht | ht
  · rw [ht]; exact .done (by decide)
  · rw [ht]; exact .morePart

/-! ## All handlers -/

/-- A handler of the server returns a task for the same request. -/
theorem callHandler_server {sys : Sys} {cnf : Config} {ret : Option Task} {left : Option Request}
    (hp : ¬ h.IsPlugin) (hf : h ≠ .finish_request) (hc : callHandler sys cnf rq h = .ok (ret, left)) :
    ∃ t rq', ret = some t ∧ left = some rq' ∧ Step h rq t rq' ∧ (h = .accept_request → HasTarget t rq') := by
  cases h with
  | finish_request => exact absurd rfl hf
  | plugin name fn => exact absurd trivial hp
  | accept_request =>
    obtain ⟨p, hp, rfl, rfl⟩ := Res.map_ok.1 hc
    exact ⟨_, _, rfl, rfl, (accept_request_step hp).1, fun _ => (accept_request_step hp).2⟩
  | decode_request_header =>
    obtain ⟨p, hp, rfl, rfl⟩ := Res.map_ok.1 hc
    exact ⟨_, _, rfl, rfl, decode_request_header_step hp, nofun⟩
  | decode_request =>
    obtain ⟨p, hp, rfl, rfl⟩ := Res.map_ok.1 hc
    exact ⟨_, _, rfl, rfl, decode_request_step hp, nofun⟩
  | resolve_request =>
    obtain ⟨p, hp, rfl, rfl⟩ := Res.map_ok.1 hc
    exact ⟨_, _, rfl, rfl, resolve_request_step hp, nofun⟩
  | serve_file =>
    obtain ⟨p, hp, rfl, rfl⟩ := Res.map_ok.1 hc
    exact ⟨_, _, rfl, rfl, serve_file_step hp, nofun⟩
  | proxify =>
    obtain ⟨p, hp, rfl, rfl⟩ := Res.map_ok.1 hc
    exact ⟨_, _, rfl, rfl, proxify_step hp, nofun⟩
  | proxy_monitor =>
    obtain ⟨p, hp, rfl, rfl⟩ := Res.map_ok.1 hc
    exact ⟨_, _, rfl, rfl, proxy_monitor_step hp, nofun⟩
  | decode_post_request =>
    obtain ⟨p, hp, rfl, rfl⟩ := Res.map_ok.1 hc
    exact ⟨_, _, rfl, rfl, decode_post_request_step hp, nofun⟩
  | decode_multi_part_request_data =>
    obtain ⟨p, hp, rfl, rfl⟩ := Res.map_ok.1 hc
    exact ⟨_, _, rfl, rfl, decode_multi_part_request_data_step hp, nofun⟩

/-- A plugin returns nothing or a task of its own, and leaves the record as it is. -/
theorem callHandler_plugin {sys : Sys} {cnf : Config} {ret : Option Task} {left : Option Request}
    (hp : h.IsPlugin) (hc : callHandler sys cnf rq h = .ok (ret, left)) :
    (∀ t ∈ ret, Flow h t.handle t.callback) ∧ ∃ rq', left = some rq' ∧
      rq'.client.answers = rq.client.answers ∧ rq'.stored = rq.stored := by
  cases h with
  | plugin name fn =>
    cases hc
    refine ⟨fun t ht => ?_, _, rfl, rfl, rfl⟩
    obtain ⟨p, -, rfl⟩ := Option.map_eq_some_iff.1 ht
    refine .pluginTask (fun g hg => ?_) fun g hg => ?_
    · obtain ⟨q, -, rfl⟩ := Option.map_eq_some_iff.1 hg; trivial
    · obtain ⟨q, -, rfl⟩ := List.mem_map.1 hg; trivial
  | _ => cases hp

/-! ## Tasks are well formed -/

/-- Functions of plugins, and then the end of the request. -/
def PluginsThenFinish (cbs : List Handler) : Prop :=
  ∃ ps : List Handler, (∀ p ∈ ps, p.IsPlugin) ∧ cbs = ps ++ [.finish_request]

/-- The callbacks of a task for a handler: the request is finished once, at the end. -/
def Shape : Handler → List Handler → Prop
  | .finish_request, cbs => cbs = []
  | .plugin .., cbs => PluginsThenFinish cbs
  | .decode_post_request, cbs => PluginsThenFinish cbs
  | .decode_multi_part_request_data, cbs => PluginsThenFinish cbs
  | _, cbs => cbs = [.finish_request]

theorem pluginsThenFinish_finish : PluginsThenFinish [.finish_request] := ⟨[], by simp, rfl⟩

theorem PluginsThenFinish.append {ps cbs : List Handler} (hp : ∀ p ∈ ps, Handler.IsPlugin p) (h : PluginsThenFinish cbs) :
    PluginsThenFinish (ps ++ cbs) := by
  obtain ⟨qs, hq, rfl⟩ := h
  refine ⟨ps ++ qs, fun p h => ?_, by rw [List.append_assoc]⟩
  exact (List.mem_append.1 h).elim (hp p) (hq p)

/-- Every handler but the last is followed by the plugins' functions and `finish_request`. -/
theorem Shape.pluginsThenFinish {cbs : List Handler} (hf : h ≠ .finish_request) (hs : Shape h cbs) :
    PluginsThenFinish cbs := by
  cases h with
  | finish_request => exact absurd rfl hf
  | plugin | decode_post_request | decode_multi_part_request_data => exact hs
  | accept_request | decode_request_header | decode_request | resolve_request | serve_file | proxify |
    proxy_monitor =>
    cases hs; exact pluginsThenFinish_finish

/-- The first callback takes over. -/
theorem PluginsThenFinish.head {cbs : List Handler} (hs : PluginsThenFinish cbs) :
    ∃ h next, cbs = h :: next ∧ (h = .finish_request ∨ h.IsPlugin) ∧ Shape h next := by
  obtain ⟨ps, hp, rfl⟩ := hs
  cases ps with
  | nil => exact ⟨_, _, rfl, .inl rfl, rfl⟩
  | cons p ps =>
    have hpl := hp p List.mem_cons_self
    refine ⟨p, _, rfl, .inr hpl, ?_⟩
    cases p with
    | plugin => exact ⟨ps, fun q hq => hp q (List.mem_cons_of_mem _ hq), rfl⟩
    | _ => cases hpl

/-- What a returned task adds to the callbacks goes well with them. -/
theorem Flow.shape {g : Handler} {o : Option Handler} {cbs cbs' : List Handler} (hf : Flow h o cbs') (ho : o = some g)
    (hs : Shape h cbs) : Shape g (cbs' ++ cbs) := by
  cases hf with
  | done => cases ho
  | pluginTask hh hcb =>
    have hpl : g.IsPlugin := hh g ho
    cases g with
    | plugin => exact .append hcb hs
    | _ => cases hpl
  | rawPlugin => cases ho; cases hs; exact pluginsThenFinish_finish
  | @plugin p => cases ho; cases hs; exact ⟨[.plugin p 0], by simp [Handler.IsPlugin], rfl⟩
  | acceptAgain | accepted | headerAgain | proxied | decoded | resolve | file | connected | relayed | parts
  | morePart =>
    cases ho; exact hs

theorem Flow.plugins {o : Option Handler} {cbs' : List Handler} (hf : Flow h o cbs') : ∀ g ∈ cbs', Handler.IsPlugin g := by
  cases hf with
  | pluginTask _ hcb => exact hcb
  | plugin => simp [Handler.IsPlugin]
  | _ => simp

/-- The task queued after a handler has returned: the one it returned, or the
next callback. -/
theorem antd_execute_task_shape {task : Task} {ret : Option Task} (hf : h ≠ .finish_request)
    (hs : Shape h task.callback) (hr : ∀ t ∈ ret, Flow h t.handle t.callback) :
    ∃ next g, antd_execute_task task ret = some next ∧ next.handle = some g ∧ Shape g next.callback ∧
      ((∃ t, ret = some t ∧ t.handle = some g) ∨
        ((∀ t ∈ ret, t.handle = none) ∧ (g = .finish_request ∨ g.IsPlugin) ∧
          (ret.elim [] Task.callback ++ task.callback).head? = some g)) := by
  have hp := hs.pluginsThenFinish hf
  cases ret with
  | none =>
    obtain ⟨g, cbs, hcb, hg, hsg⟩ := hp.head
    refine ⟨{ task with handle := some g, callback := cbs }, g, ?_, rfl, hsg, .inr ⟨by simp, hg, by simp [hcb]⟩⟩
    simp only [antd_execute_task, execute_callback, hcb]
  | some t =>
    have hflow := hr t rfl
    cases ht : t.handle with
    | some g =>
      refine ⟨{ t with callback := t.callback ++ task.callback }, g, ?_, ht, hflow.shape ht hs, .inl ⟨t, rfl, ht⟩⟩
      simp only [antd_execute_task, ht, Option.isSome_some, if_true]
    | none =>
      obtain ⟨g, cbs, hcb, hg, hsg⟩ := (hp.append hflow.plugins).head
      refine ⟨{ t with handle := some g, callback := cbs }, g, ?_, rfl, hsg, .inr ⟨?_, hg, ?_⟩⟩
      · simp only [antd_execute_task, ht, Option.isSome_none, execute_callback, hcb]; simp
      · intro t' ht'; cases ht'; exact ht
      · simp [hcb]

/-! ## One step of a connection -/

/-- A run of the connection's task, seen from its handler. -/
theorem execute_ok {sys : Sys} {cnf : Config} {c : Conn} {o : Option Conn} (he : execute sys cnf c = .ok o) :
    ∃ h ret left, c.task.handle = some h ∧ callHandler sys cnf c.rq h = .ok (ret, left) ∧
      o = (antd_execute_task c.task ret).bind fun task => left.map fun rq => ⟨task, rq⟩ := by
  unfold execute at he
  obtain ⟨h, hh, he⟩ := Res.bind_ok.1 he
  obtain ⟨⟨ret, left⟩, hc, he⟩ := Res.bind_ok.1 he
  cases he
  exact ⟨h, ret, left, deref_ok.1 hh, hc, rfl⟩

theorem Conn.step_execute {sys : Sys} {cnf : Config} {c c' : Conn} (hs : Conn.step cnf sys c = some c') :
    execute sys cnf c = .ok (some c') := by
  unfold Conn.step at hs
  split at hs
  · rename_i he
    rw [he, hs]
  · cases hs

/-- A plugin's task runs a plugin's function. -/
theorem Flow.of_plugin {h g : Handler} {cbs : List Handler} (hf : Flow h (some g) cbs) (hp : h.IsPlugin) :
    g.IsPlugin := by
  cases hf with
  | pluginTask hg => exact hg _ rfl
  | _ => cases hp

/-- The handler of a connection has run, and `g` runs next. -/
inductive Conn.Next (sys : Sys) (cnf : Config) (c c' : Conn) (h g : Handler) : Prop
  | plugin : h.IsPlugin → g = .finish_request ∨ g.IsPlugin → c'.rq.client.answers = c.rq.client.answers →
      c'.rq.stored = c.rq.stored → Next sys cnf c c' h g
  | server (t : Task) : ¬ h.IsPlugin → callHandler sys cnf c.rq h = .ok (some t, some c'.rq) → Step h c.rq t c'.rq →
      (h = .accept_request → HasTarget t c'.rq) →
      (t.handle = some g ∨
        (t.handle = none ∧ (g = .finish_request ∨ g.IsPlugin) ∧ (t.callback ++ c.task.callback).head? = some g)) →
      Next sys cnf c c' h g

theorem Conn.step_next {sys : Sys} {cnf : Config} {c c' : Conn} {h : Handler} (hs : Conn.step cnf sys c = some c')
    (hh : c.task.handle = some h) (hshape : Shape h c.task.callback) :
    ∃ g, c'.task.handle = some g ∧ Shape g c'.task.callback ∧ h ≠ .finish_request ∧ Conn.Next sys cnf c c' h g := by
  obtain ⟨h', ret, left, hh', hc, ho⟩ := execute_ok (Conn.step_execute hs)
  rw [hh] at hh'; cases hh'
  obtain ⟨task, htask, ho⟩ := Option.bind_eq_some_iff.1 ho.symm
  obtain ⟨rq', rfl, ho⟩ := Option.map_eq_some_iff.1 ho
  cases ho
  have hf : h ≠ .finish_request := by rintro rfl; cases hc
  by_cases hp : h.IsPlugin
  · obtain ⟨hflow, rq'', hl, ha, hst⟩ := callHandler_plugin hp hc
    cases hl
    obtain ⟨next, g, hn, hg, hsg, hor⟩ := antd_execute_task_shape hf hshape hflow
    rw [htask] at hn
    cases hn
    refine ⟨g, hg, hsg, hf, .plugin hp ?_ ha hst⟩
    rcases hor with ⟨t, rfl, ht⟩ | ⟨-, hor, -⟩
    · exact .inr ((ht ▸ hflow t rfl).of_plugin hp)
    · exact hor
  · obtain ⟨t, rq'', rfl, hl, hst, htarget⟩ := callHandler_server hp hf hc
    cases hl
    have hflow : ∀ t' ∈ some t, Flow h t'.handle t'.callback := fun t' ht' => by cases ht'; exact hst.flow
    obtain ⟨next, g, hn, hg, hsg, hor⟩ := antd_execute_task_shape hf hshape hflow
    rw [htask] at hn
    cases hn
    refine ⟨g, hg, hsg, hf, .server t hp hc hst htarget ?_⟩
    rcases hor with ⟨t', ht', ht⟩ | ⟨hnone, hor, hhead⟩
    · cases ht'; exact .inl ht
    · exact .inr ⟨hnone t rfl, hor, hhead⟩

end AntHttp
