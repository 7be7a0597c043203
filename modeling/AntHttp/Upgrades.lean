import AntHttp.WsClient
/-!
# Both ends of an upgrade

The request of `ws_open_handshake` goes through the server's handlers, and their
answer back to the client: both agree that the connection is a WebSocket, and
neither has taken a byte of what follows.
-/

set_option linter.style.nameCheck false

namespace AntHttp

open CString

/-! ## The request of the client -/

/-- A resource that can be part of a request line. -/
def Resource (resource : Bytes) : Prop := ∀ c ∈ resource, c ≠ 32 ∧ c ≠ 13 ∧ c ≠ 10 ∧ c ≠ 0

/-- The name of a host that can be part of a field. -/
structure HostName where
  text : Bytes
  line : ∀ c ∈ text, c ≠ 13 ∧ c ≠ 10
  string : 0 ∉ text

def hostField (host : HostName) : HeaderField := .of (str "Host") host.text ⟨by decide, by decide +kernel, host.line⟩

/-- The fields behind that of the host. -/
def upgradeFields : List HeaderField :=
  [.of (str "Upgrade") (str "websocket") (by decide +kernel), .of (str "Connection") (str "Upgrade") (by decide +kernel),
    .of (str "Sec-WebSocket-Key") sampleKey (by decide +kernel),
    .of (str "Sec-WebSocket-Version") (str "13") (by decide +kernel)]

def upgradeRequest (resource : Bytes) (host : HostName) : RequestText :=
  ⟨str "GET", 47 :: resource, str "HTTP/1.1", hostField host :: upgradeFields⟩

section

variable {resource : Bytes} {host : HostName} {e : Bytes × Bytes} {es : List (Bytes × Bytes)} {k : Bytes}

theorem upgradeRequest_bytes : (upgradeRequest resource host).bytes = CLIENT_RQ resource host.text := by
  simp [upgradeRequest, RequestText.bytes, RequestText.line, headerBlock, HeaderField.line, HeaderField.text, hostField,
    upgradeFields, HeaderField.of, sampleKey, CLIENT_RQ, str]

/-- A later entry hides the first one. -/
theorem lastValue_cons : lastValue (e :: es) k = (lastValue es k).or (if e.1 = k then some e.2 else none) := by
  rw [lastValue, List.reverse_cons, List.find?_append, lastValue]
  by_cases h : e.1 = k <;> cases List.find? _ es.reverse <;> simp [h]

theorem host_entry {e : Bytes × Bytes} (h : (hostField host).entry = some e) : e.1 = str "Host" := by
  unfold HeaderField.entry at h
  split at h
  · cases h
  · have hkey : verify_header (trim (str "Host") 32) = str "Host" := by decide
    cases h
    exact hkey

/-- The field of the host stands for another key. -/
theorem upgrade_value (hk : str "Host" ≠ k) :
    lastValue ((hostField host :: upgradeFields).filterMap HeaderField.entry) k =
      lastValue (upgradeFields.filterMap HeaderField.entry) k := by
  cases h : (hostField host).entry with
  | none => rw [List.filterMap_cons_none h]
  | some e => rw [List.filterMap_cons_some h, lastValue_cons, host_entry h, if_neg hk, Option.or_none]

theorem line_length_le {f : HeaderField} {fs : List HeaderField} (h : f ∈ fs) :
    f.line.length ≤ (headerBlock fs).length := by
  obtain ⟨before, after, rfl⟩ := List.append_of_mem h
  rw [headerBlock, List.flatMap_append, List.flatMap_cons]
  simp only [List.length_append]
  omega

theorem upgradeRequest_plain (cnf : Config) (hres : Resource resource) (hroom : (CLIENT_RQ resource host.text).length < MAX_BUFF) :
    (upgradeRequest resource host).Plain cnf := by
  have hbytes : (upgradeRequest resource host).line.length + 1 +
      (headerBlock (hostField host :: upgradeFields)).length < MAX_BUFF := by
    have hlen := congrArg List.length (@upgradeRequest_bytes resource host)
    rw [RequestText.bytes, List.length_append, List.length_cons] at hlen
    change _ + ((headerBlock (hostField host :: upgradeFields)).length + 1) = _ at hlen
    omega
  have hmethod : Token (str "GET") := ⟨by decide, by decide +kernel⟩
  have hversion : Token (str "HTTP/1.1") := ⟨by decide, by decide +kernel⟩
  refine ⟨⟨hmethod, ⟨List.cons_ne_nil _ _, ?_⟩, hversion, ?_, ?_, ?_⟩, rfl, ?_, ?_⟩
  · intro c hc
    rcases List.mem_cons.1 hc with rfl | hc
    · decide
    · exact hres c hc
  · exact Nat.lt_of_le_of_lt (Nat.le_add_right _ _) hbytes
  · intro f hf
    constructor
    · have hle := line_length_le hf
      change _ ≤ (headerBlock (hostField host :: upgradeFields)).length at hle
      have hbuf : MAX_BUFF ≤ BUF_SIZE := by decide
      omega
    · rcases List.mem_cons.1 hf with rfl | hf
      · have h0 : 0 ∉ str "Host" := by decide
        simp [HeaderField.line, HeaderField.text, hostField, HeaderField.of, host.string, h0]
      · have hall : ∀ f ∈ upgradeFields, 0 ∉ f.line := by decide +kernel
        exact hall f hf
  · have hmax : MAX_BUFF ≤ HEADER_MAX_SIZE := by decide
    change (headerBlock (hostField host :: upgradeFields)).length ≤ _
    omega
  · have hnone : lastValue ((hostField host :: upgradeFields).filterMap HeaderField.entry) (str "Content-Length") = none :=
      (upgrade_value (by decide)).trans (by decide +kernel)
    intro v hv
    cases hnone.symm.trans hv
  · exact (upgrade_value (by decide)).trans (by decide +kernel)

/-! ## The answer of the server -/

/-- The answer to the key of the client. -/
def upgradeAnswer : Answer where
  status := str "HTTP/1.1 101 Switching Protocols\r"
  fields :=
    [.of (str "Upgrade") (str "websocket") (by decide +kernel), .of (str "Connection") (str "Upgrade") (by decide +kernel),
      .of (str "Sec-WebSocket-Accept") SERVER_WS_KEY (by decide +kernel)]

theorem upgradeAnswer_bytes : (answerTexts sha sampleKey).flatten = upgradeAnswer.bytes := by
  have hkey : base64 (sha.digest (sampleKey ++ WS_MAGIC_STRING)) = SERVER_WS_KEY := SERVER_WS_KEY_eq
  rw [answerTexts, hkey]
  decide +kernel

theorem upgradeAnswer_readable : upgradeAnswer.Readable := by
  refine ⟨⟨_, rfl⟩, by decide, by decide, ?_⟩
  have hall : ∀ f ∈ upgradeAnswer.fields, f.line.length < MAX_BUFF ∧ 0 ∉ f.line := by decide +kernel
  exact hall

theorem upgradeAnswer_accepts : upgradeAnswer.Accepts := by
  have hsome : ∃ f ∈ upgradeAnswer.fields, f.accepts := by decide +kernel
  have hall : ∀ f ∈ upgradeAnswer.fields, f.accepts → f.keyed := by decide +kernel
  exact ⟨hsome, hall⟩

variable {c : Client} {t' : Int} {rest : List SendEv} {ts : List Bytes}

/-- Texts that are taken whole are sent. -/
theorem Taken.sends (h : Taken c.last_io (ts.map (·.length)) c.output t' rest) :
    ts.foldl (fun client buf => (antd_send client buf).2) c = c.after ts.flatten t' rest := by
  induction ts generalizing c with
  | nil =>
    cases h
    rw [List.flatten_nil, Client.after, List.append_nil]
    rfl
  | cons text ts ih =>
    cases h with
    | @cons _ _ _ _ t₁ evs₁ _ _ hcall h =>
      have hsent : (antd_send c text).2 = c.after text t₁ evs₁ := by
        rw [hcall.antd_send, List.take_of_length_le (Nat.le_refl _)]
        rfl
      rw [List.foldl_cons, hsent, ih (c := c.after text t₁ evs₁) h, Client.after_after, List.flatten_cons]

/-- The answer goes out within the buffers. -/
theorem ws_confirm_request_taken {sys : Sys} {sha : Sha1} {key : Bytes} (hsys : ∀ s, sys.sha1Base64 s = base64 (sha.digest s))
    (h0 : 0 ∉ key) (hlen : key.length ≤ 91)
    (h : Taken c.last_io ((answerTexts sha key).map (·.length)) c.output t' rest) : ws_confirm_request sys c key =
      .ok (({ c with answers := c.answers ++ [101] } : Client).after (answerTexts sha key).flatten t' rest) := by
  obtain ⟨b, hb, hgets⟩ := joined_short h0 hlen
  rw [ws_confirm_request_eq hsys h0, confirmTexts_of_joined sha hb hgets]
  simp only [Except.ok.injEq]
  exact Taken.sends (c := { c with answers := c.answers ++ [101] }) h

/-- A GET request that asks for an upgrade with this key. -/
theorem decode_request_upgrade {sys : Sys} {rq : Request} {d : Dictionary Bytes} {key : Bytes} {c : Client}
    (hheader : rq.REQUEST_HEADER = some d) (hmethod : rq.METHOD = some (str "GET"))
    (hkey : d.dvalue (str "Sec-WebSocket-Key") = some key)
    (hws : (d.dvalue (str "Upgrade")).any (strcaseeq · (str "websocket")) = true)
    (hconfirm : ws_confirm_request sys rq.client key = .ok c) : decode_request sys rq =
      .ok ({ antd_create_task none none rq.client.last_io with handle := some .resolve_request },
        { rq with client := c, web_socket := some (str "1") }) := by
  unfold decode_request
  simp only [hheader, hmethod, hkey, hws, deref_some, Res.ok_bind, upgrade, hconfirm, if_true]
  rfl

end

/-- The server upgrades the connection that the client asks it to upgrade, and the client takes its answer. What the
client sends next is all that the server has still to read, and what the server sends next all that is left to the
client. -/
theorem handshake_agrees {cnf : Config} {pcnf : PortConfig} {sock now : Int} {input : List RecvEv} {output : List SendEv}
    {resource frames : Bytes} {host : HostName} {accepts decodes answers : Sys} {client : Client}
    (hport : cnf.ports.dvalue (decimal pcnf.port) = some pcnf) (hssl : pcnf.usessl = false) (hrules : pcnf.rules.assocs = [])
    (hres : Resource resource) (hroom : (CLIENT_RQ resource host.text).length < MAX_BUFF)
    (hsent : (antd_send client (CLIENT_RQ resource host.text)).1 = (CLIENT_RQ resource host.text).length)
    (ha : accepts.Readable) (hx : Ere.Posix decodes.regexec) (hsha : ∀ s, answers.sha1Base64 s = base64 (sha.digest s))
    (hin : (antd_monitor pcnf sock now input output).rq.client.Has (CLIENT_RQ resource host.text ++ frames))
    (hout : ∀ t, ∃ t' rest, Taken t ((answerTexts sha sampleKey).map (·.length)) output t' rest) : ∃ conn,
      Runs.runAll (Conn.step cnf) [accepts, decodes, answers] (antd_monitor pcnf sock now input output) = some conn ∧
      conn.task.handle = some .resolve_request ∧ conn.rq.web_socket = some (str "1") ∧
      conn.rq.client.answers = [101] ∧ frames <+: bytesOf conn.rq.client.input ∧
      ∀ more, (antd_send client (CLIENT_RQ resource host.text)).2.Has (conn.rq.client.wire ++ more) →
        ∃ client', ws_open_handshake client resource host.text = .ok (0, client') ∧ client'.Has more := by
  have hplain := upgradeRequest_plain cnf hres hroom
  have hbytes : (antd_monitor pcnf sock now input output).rq.client.Has ((upgradeRequest resource host).bytes ++ frames) := by
    rw [upgradeRequest_bytes]
    exact hin
  obtain ⟨c, hrun, hhandle, hcb, hdec⟩ := request_decoded hport hssl hrules hplain ha hx hbytes
  obtain ⟨t, evs, hclient⟩ := hdec.client
  have hc : c.rq.client.wire = [] ∧ c.rq.client.answers = [] ∧ c.rq.client.output = output := by
    rw [hclient]
    exact ⟨rfl, rfl, rfl⟩
  obtain ⟨hwire, hanswers, houtput⟩ := hc
  obtain ⟨t', rest, htaken⟩ := hout c.rq.client.last_io
  rw [← houtput] at htaken
  have h0 : (0 : UInt8) ∉ sampleKey := by decide
  have hconfirm := ws_confirm_request_taken hsha h0 (by decide) htaken
  have hvalue := (holdsEntries_putAll ((upgradeRequest resource host).fields.filterMap HeaderField.entry)).value
  have hkey : (putAll .dict ((upgradeRequest resource host).fields.filterMap HeaderField.entry)).dvalue
      (str "Sec-WebSocket-Key") = some sampleKey := by
    rw [hvalue]
    exact (upgrade_value (by decide)).trans (by decide +kernel)
  have hws : (putAll .dict ((upgradeRequest resource host).fields.filterMap HeaderField.entry)).dvalue (str "Upgrade") =
      some (str "websocket") := by
    rw [hvalue]
    exact (upgrade_value (by decide)).trans (by decide +kernel)
  have hdecode := decode_request_upgrade hdec.header hdec.method hkey (by rw [hws]; decide) hconfirm
  have hcall : callHandler answers cnf c.rq .decode_request =
      .ok (some { antd_create_task none none c.rq.client.last_io with handle := some .resolve_request }, some { c.rq with
        client := ({ c.rq.client with answers := c.rq.client.answers ++ [101] } : Client).after
          (answerTexts sha sampleKey).flatten t' rest
        web_socket := some (str "1") }) := by
    rw [callHandler, hdecode]
    rfl
  have hstep := Conn.step_goes hhandle hcall rfl
  have hall : Runs.runAll (Conn.step cnf) ([accepts, decodes] ++ [answers]) (antd_monitor pcnf sock now input output) =
      Conn.step cnf answers c := by
    rw [Runs.runAll_append, hrun, Option.bind_some, Runs.runAll]
    exact Option.bind_fun_some _
  refine ⟨_, hall.trans hstep, rfl, rfl, ?_, ?_, ?_⟩
  · exact congrArg (· ++ [101]) hanswers
  · obtain ⟨_, later, hframes⟩ := hdec.has
    exact ⟨bytesOf later, hframes.bytesOf.symm⟩
  · intro more hmore
    have hanswer : (antd_send client (CLIENT_RQ resource host.text)).2.Has (upgradeAnswer.bytes ++ more) := by
      rw [Client.after_wire, hwire, List.nil_append, upgradeAnswer_bytes] at hmore
      exact hmore
    obtain ⟨ret, client', heq, -, -, hret, hleft⟩ := ws_open_handshake_answer hroom hsent upgradeAnswer_readable hanswer
    obtain rfl := hret.2 upgradeAnswer_accepts
    exact ⟨client', heq, hleft rfl⟩

/-- Surroundings whose digest is SHA-1. -/
def upgradingSys : Sys := { sampleSys [] with sha1Base64 := fun s => base64 (sha.digest s) }

def localhost : HostName := ⟨str "localhost", by decide +kernel, by decide⟩

/-- A chat on the only port, with the first byte of a frame behind the request. -/
theorem handshake_agrees_chat : ∃ conn,
    Runs.runAll (Conn.step (sampleConfig none [])) [sampleSys [], sampleSys [], upgradingSys] (antd_monitor (samplePort none []) 4 0
      (atOnce (CLIENT_RQ (str "chat") localhost.text ++ [0x81])) (List.replicate 5 (.room 1023 0))) = some conn ∧
    conn.task.handle = some .resolve_request ∧ conn.rq.web_socket = some (str "1") ∧
    conn.rq.client.answers = [101] ∧ [0x81] <+: bytesOf conn.rq.client.input ∧
    ∀ more, (antd_send (askingClient []) (CLIENT_RQ (str "chat") localhost.text)).2.Has (conn.rq.client.wire ++ more) →
      ∃ client', ws_open_handshake (askingClient []) (str "chat") localhost.text = .ok (0, client') ∧ client'.Has more := by
  have hres : Resource (str "chat") := by
    unfold Resource
    decide +kernel
  have hport : (sampleConfig none []).ports.dvalue (decimal (samplePort none []).port) = some (samplePort none []) := by
    have hkey : str "80" = decimal 80 := by decide
    simp [sampleConfig, samplePort, dictOf, hkey]
  have hsizes : ∀ n ∈ (answerTexts sha sampleKey).map (·.length), 0 < n ∧ n ≤ BUFFLEN := by
    have hkey : base64 (sha.digest (sampleKey ++ WS_MAGIC_STRING)) = SERVER_WS_KEY := SERVER_WS_KEY_eq
    rw [answerTexts, hkey]
    decide +kernel
  have hroom : (CLIENT_RQ (str "chat") localhost.text).length < MAX_BUFF := by decide +kernel
  have hsent : (antd_send (askingClient []) (CLIENT_RQ (str "chat") localhost.text)).1 =
      (CLIENT_RQ (str "chat") localhost.text).length := by decide +kernel
  obtain ⟨t, hin⟩ := arrives_bytes 0 0 (CLIENT_RQ (str "chat") localhost.text ++ [0x81]) []
  rw [List.append_nil] at hin
  exact handshake_agrees hport rfl rfl hres hroom hsent ⟨true, false, false, rfl⟩ Ere.regexec_posix (fun _ => rfl)
    ⟨t, [], hin⟩ fun t => taken_rooms t 0 hsizes 5 (Nat.le_refl 5)

end AntHttp
